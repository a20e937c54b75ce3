import ScopeStack.Proofs.Departures
import ScopeStack.Proofs.OpenBlocks

/-!
# Blocks that control words have popped

A control word holds the blocks that it has popped, and nothing else may refer to them. So a block that a
word is going to run, or to run again, goes if a step lets go of it or of a block around it meanwhile: the
word itself, if it does without its other operand, or whatever it runs.

* `Event.Takes`: a control word pops a block. `Event.Reclaims`: a step lets go of it.
* `Session.gone_of_reclaims`, `Session.known_or_reclaimed`: once gone it is gone, and until then it is
  known. `Session.taken_of_due`: what is still to be run was popped, and resolved then.
* `Session.due_resolves_iff`: **a block that is still to be run resolves, and can be called, exactly as
  long as no step has let go of it.**
-/

namespace ScopeStack

open ScopeStack.Action

/-- The step carries out a control word that pops the block, which is known. -/
def Event.Takes (k : ScopeId) : Event → Prop
  | step thread before _ => thread.Takes before (.block k)
  | push _ => False

/-- The step lets go of the block, or of one around it, and it goes. -/
def Event.Reclaims (k : ScopeId) : Event → Prop
  | step thread before after => thread.letsGo before = true ∧ before.arena.contains k = true ∧
      after.arena.contains k = false
  | push _ => False

instance (k : ScopeId) : DecidablePred (Event.Reclaims k)
  | .step thread before after => inferInstanceAs (Decidable (thread.letsGo before = true ∧
      before.arena.contains k = true ∧ after.arena.contains k = false))
  | .push _ => inferInstanceAs (Decidable False)

variable {trace : List Event} {t : Thread} {m : Machine} {e : Event} {k : ScopeId} {c : Context}

/-! ## 1. Along a session -/

/-- A block that a step has taken out stays out. -/
theorem Session.gone_of_reclaims (h : Session trace t m) (hspawn : SpawnFree trace) (he : e ∈ trace)
    (hr : e.Reclaims k) : k ≤ m.arena.lastScope ∧ m.arena.get? k = none := by
  induction h with
  | start => cases he
  | request _ _ _ ih => exact ih hspawn he
  | pass _ _ _ _ ih => exact ih hspawn he
  | @step trace t t' m m' h hstep ih =>
    have hm : InOrder False False t.agenda m := h.inOrder hspawn.of_cons False.elim False.elim
    have hf := (hm.step hstep False.elim hspawn.last).2
    rcases List.mem_cons.mp he with rfl | he
    · obtain ⟨-, hbefore, hafter⟩ := hr
      obtain ⟨s, hs⟩ := Arena.contains_iff.mp hbefore
      exact ⟨Nat.le_trans (hm.steady.tree.forest.le_last hs) hf.lastScope,
        Arena.contains_eq_false.mp hafter⟩
    · obtain ⟨hle, hgone⟩ := ih hspawn.of_cons he
      exact ⟨Nat.le_trans hle hf.lastScope, hf.absent hle hgone⟩
  | @push trace t m v h hdone ih =>
    rcases List.mem_cons.mp he with rfl | he
    · exact hr.elim
    · have hS := h.still_of_push hspawn.of_cons hdone v
      obtain ⟨hle, hgone⟩ := ih hspawn.of_cons he
      exact ⟨hS.lastScope ▸ hle, hS.absent hgone⟩

/-- A known block stays known until a step lets go of it. -/
theorem Session.step_known_or_reclaims {t' : Thread} {m' : Machine} (h : Session trace t m)
    (hspawn : SpawnFree (.step t m m' :: trace)) (hstep : t.step m = some (t', m'))
    (hk : Known m.arena (.block k)) :
    Known m'.arena (.block k) ∨ Event.Reclaims k (.step t m m') := by
  have hm : InOrder False False t.agenda m := h.inOrder hspawn.of_cons False.elim False.elim
  obtain ⟨p, hp⟩ := known_block_iff.mp hk
  rcases Thread.step_known hm hstep hspawn.last hp with hp' | ⟨hlets, hgone⟩
  · exact Or.inl (known_block_iff.mpr ⟨p, hp'⟩)
  · exact Or.inr ⟨hlets, Arena.contains_iff.mpr (hk k rfl).1, Arena.contains_eq_false.mpr hgone⟩

/-- **A block that a control word has popped is known, or a step has let go of it.** -/
theorem Session.known_or_reclaimed (h : Session trace t m) (hspawn : SpawnFree trace)
    (he : e ∈ trace) (ht : e.Takes k) :
    Known m.arena (.block k) ∨ ∃ e ∈ trace, e.Reclaims k := by
  induction h with
  | start => cases he
  | request _ _ _ ih => exact ih hspawn he
  | pass _ _ _ _ ih => exact ih hspawn he
  | @step trace t t' m m' h hstep ih =>
    have hnext (hk : Known m.arena (.block k)) :
        Known m'.arena (.block k) ∨ ∃ e ∈ Event.step t m m' :: trace, e.Reclaims k :=
      (h.step_known_or_reclaims hspawn hstep hk).imp_right fun hr => ⟨_, List.mem_cons_self, hr⟩
    rcases List.mem_cons.mp he with rfl | he
    · obtain ⟨_, _, _, _, _, _, -, -, -, -, -, -, hk⟩ := ht
      exact hnext hk
    · rcases ih hspawn.of_cons he with hk | ⟨e, he, hr⟩
      · exact hnext hk
      · exact Or.inr ⟨e, List.mem_cons_of_mem _ he, hr⟩
  | @push trace t m v h hdone ih =>
    rcases List.mem_cons.mp he with rfl | he
    · exact ht.elim
    · rcases ih hspawn.of_cons he with hk | ⟨e, he, hr⟩
      · exact Or.inl ((h.still_of_push hspawn.of_cons hdone v).known_iff.mpr hk)
      · exact Or.inr ⟨e, List.mem_cons_of_mem _ he, hr⟩

/-- **What is still to be run for a control word was popped by one**, and was known then. -/
theorem Session.taken_of_due (h : Session trace t m) (hspawn : SpawnFree trace) {job : Job}
    (hjob : job ∈ t.agenda) (hdue : .block k ∈ job.due) : ∃ e ∈ trace, e.Takes k := by
  induction h generalizing job with
  | start => cases hjob
  | request _ _ hr _ =>
    rw [List.mem_singleton.mp hjob] at hdue
    cases hr <;> cases hdue
  | pass _ _ _ _ ih => exact ih hspawn hjob hdue
  | @step trace t t' m m' h hstep ih =>
    have hm : InOrder False False t.agenda m := h.inOrder hspawn.of_cons False.elim False.elim
    rcases Thread.step_due hm hstep hjob hdue with ⟨i, hi, hdue⟩ | htakes
    · obtain ⟨e, he, ht⟩ := ih hspawn.of_cons hi hdue
      exact ⟨e, List.mem_cons_of_mem _ he, ht⟩
    · exact ⟨_, List.mem_cons_self, htakes⟩
  | push _ _ _ ih =>
    obtain ⟨e, he, ht⟩ := ih hspawn.of_cons hjob hdue
    exact ⟨e, List.mem_cons_of_mem _ he, ht⟩

/-! ## 2. Running what was popped -/

namespace Context

/-- A call of a block that does not resolve. -/
theorem callBlock_unresolved (hr : m.arena.resolveBlock c.scope k = .error (.notInterned k)) :
    (c.callBlock k).Ends m (fun _ _ => False) fun f _ => f = ⟨.notInterned k, none⟩ := by
  unfold callBlock beginCall prepareCall
  rw [bind_assoc, bind_assoc, ends_bind, ends_inArena, hr]
  refine ⟨fun _ h => (by cases h), fun f hf => ?_⟩
  cases hf
  rfl

/-- A call of a block that resolves fails for other reasons only. -/
theorem callBlock_resolved (hr : m.arena.resolveBlock c.scope k = .ok k) :
    (c.callBlock k).Ends m (fun _ _ => True) fun f _ => f.fault ≠ .notInterned k := by
  have hscope {β : Type} (id : ScopeId) {g : Scope → Action β} {n : Machine}
      (hg : ∀ s, (g s).Ends n (fun _ _ => True) fun f _ => f.fault ≠ .notInterned k) :
      (getScope id >>= g).Ends n (fun _ _ => True) fun f _ => f.fault ≠ .notInterned k := by
    rw [ends_bind, ends_getScope]
    exact ⟨fun s _ => hg s, fun _ h => by cases h⟩
  have henter (callee : Context) (call : Call) (n : Machine) :
      (enterCall call >>= fun _ => (pure (callee, call) : Action (Context × Call))).Ends n
        (fun _ _ => True) fun f _ => f.fault ≠ .notInterned k := by
    unfold enterCall
    rw [bind_assoc]
    exact hscope call.block fun _ => trivial
  suffices hbegin : (c.beginCall k).Ends m (fun _ _ => True) fun f _ => f.fault ≠ .notInterned k from
    hbegin.bind fun _ _ _ => trivial
  unfold beginCall prepareCall
  rw [bind_assoc, ends_bind, ends_inArena_ok hr, bind_assoc]
  refine hscope k fun s => ?_
  dsimp only
  split
  · exact fun h => by cases h
  split
  · unfold sharedStacks
    split
    · exact henter _ _ m
    · rw [bind_assoc, bind_assoc]
      exact hscope c.scope fun _ => henter _ _ m
  · exact henter _ _ _

/-- **A call fails because the block does not resolve exactly if it does not.** -/
theorem callBlock_notInterned_iff : ((c.callBlock k).outcome m).1 = .error ⟨.notInterned k, none⟩ ↔
    m.arena.resolveBlock c.scope k ≠ .ok k := by
  have hcases : m.arena.resolveBlock c.scope k = .ok k ∨
      m.arena.resolveBlock c.scope k = .error (.notInterned k) := by
    unfold Arena.resolveBlock
    dsimp only
    split
    · exact Or.inl rfl
    · exact Or.inr rfl
  rcases hcases with hr | hr
  · refine ⟨fun hfail => ?_, fun hno => absurd hr hno⟩
    rcases (callBlock_resolved hr).outcome with ⟨v, m', ho, -⟩ | ⟨f, m', ho, hf⟩
    · rw [ho] at hfail
      cases hfail
    · rw [ho] at hfail
      cases hfail
      exact absurd rfl hf
  · refine ⟨fun _ hok => (by rw [hr] at hok; cases hok), fun _ => ?_⟩
    rcases (callBlock_unresolved hr).outcome with ⟨v, m', -, hno⟩ | ⟨f, m', ho, rfl⟩
    · exact hno.elim
    · rw [ho]

end Context

/-- Where the scope has a way out, a block is found exactly if it is known. -/
theorem Arena.Tree.resolveBlock_iff_known {a : Arena} (hT : a.Tree) {id : ScopeId} (hl : a.Linked id) :
    a.resolveBlock id k = .ok k ↔ Known a (.block k) := by
  constructor
  · intro hr h he
    cases he
    obtain ⟨-, ⟨s, hs, -⟩, -, -, hknown⟩ := hT.of_resolveBlock hr
    exact ⟨⟨s, hs⟩, hknown⟩
  · intro hk
    exact hT.resolveBlock_eq_ok hl (hk k rfl).1 (hk k rfl).2

/-- Where code may run in a session. -/
theorem InOrder.seated_of_mem {honest kept : Prop} (h : InOrder honest kept t.agenda m) {job : Job}
    (hjob : job ∈ t.agenda) (hc : job.context? = some c) : Seated m.arena c := by
  obtain ⟨back, hsub, hfits⟩ := h.fits.of_mem hjob
  exact h.seated ((hfits.hosted hc).mono hsub)

/-- **Without processes, what is still to be run for a control word was popped by one and known then. A
block among it resolves exactly if no step so far has let go of it; and running it fails because it does
not resolve exactly if one has.** -/
theorem Session.due_resolves_iff (h : Session trace t m) (hspawn : SpawnFree trace) {job : Job}
    (hjob : job ∈ t.agenda) (hc : job.context? = some c) (hdue : .block k ∈ job.due) :
    (∃ e ∈ trace, e.Takes k) ∧
    (m.arena.resolveBlock c.scope k = .ok k ↔ ∀ e ∈ trace, ¬ e.Reclaims k) ∧
    (((Job.value c (.block k)).start.outcome m).1 = .error ⟨.notInterned k, none⟩ ↔
      ∃ e ∈ trace, e.Reclaims k) := by
  have hm : InOrder False False t.agenda m := h.inOrder hspawn False.elim False.elim
  have hlinked := (hm.seated_of_mem hjob hc).linked
  obtain ⟨e, he, ht⟩ := h.taken_of_due hspawn hjob hdue
  have hknown : Known m.arena (.block k) ↔ ∀ e ∈ trace, ¬ e.Reclaims k := by
    constructor
    · intro hk e he hr
      obtain ⟨s, hs⟩ := (hk k rfl).1
      rw [(h.gone_of_reclaims hspawn he hr).2] at hs
      cases hs
    · intro hno
      refine (h.known_or_reclaimed hspawn he ht).resolve_right ?_
      rintro ⟨e, he, hr⟩
      exact hno e he hr
  have hresolve := (hm.steady.tree.resolveBlock_iff_known hlinked).trans hknown
  refine ⟨⟨e, he, ht⟩, hresolve, Context.callBlock_notInterned_iff.trans ?_⟩
  rw [ne_eq, hresolve]
  refine ⟨fun h => Classical.byContradiction fun hno => h fun e he hr => hno ⟨e, he, hr⟩, ?_⟩
  rintro ⟨e, he, hr⟩ hno
  exact hno e he hr

/-- The block that a job is about to run, and where. -/
def Job.runsBlock? : Job → Option (Context × ScopeId)
  | .value c (.block k) => some (c, k)
  | _ => none

theorem Job.of_mem_runsBlock? {jobs : List Job} (h : (c, k) ∈ jobs.filterMap runsBlock?) :
    Job.value c (.block k) ∈ jobs := by
  obtain ⟨job, hjob, he⟩ := List.mem_filterMap.mp h
  cases job with
  | value d v =>
    cases v with
    | block j =>
      cases he
      exact hjob
    | _ => cases he
  | _ => cases he

/-- `[ drop ] 2 times`: the block has been run once and is about to be run again. Nothing has let go of
it. -/
theorem Session.due_resolves_iff_again : ∃ trace t m, Session trace t m ∧ SpawnFree trace ∧
    Job.value .top (.block 2) ∈ t.agenda ∧ (∃ e ∈ trace, e.Takes 2) ∧
    m.arena.resolveBlock rootScope 2 = .ok 2 := by
  obtain ⟨hsession, -⟩ := Environment.execution_session 16 "[ drop ] 2 times"
  have hfacts : SpawnFree (Environment.execution 16 "[ drop ] 2 times").1 ∧
      (∀ e ∈ (Environment.execution 16 "[ drop ] 2 times").1, ¬ e.Reclaims 2) ∧
      (.top, 2) ∈ (Environment.execution 16 "[ drop ] 2 times").2.1.agenda.filterMap
        Job.runsBlock? := by decide +kernel
  generalize Environment.execution 16 "[ drop ] 2 times" = run at hsession hfacts
  obtain ⟨hspawn, hkept, hnext⟩ := hfacts
  have hjob := Job.of_mem_runsBlock? hnext
  obtain ⟨htaken, hresolves, -⟩ := hsession.due_resolves_iff hspawn hjob rfl List.mem_cons_self
  exact ⟨_, _, _, hsession, hspawn, hjob, htaken, hresolves.mpr hkept⟩

/-- The failure that the work of a thread has ended with. -/
def Thread.failure? (t : Thread) : Option Failure :=
  match t.status with
  | .ok () => none
  | .error f => some f

/-- **A control word loses a block that it has popped**: in `true [ 1 ] dup if` both branches are the same
block. It resolved when it was popped, the word lets go of it as the branch that is skipped, and then
fails to run it as the branch that is taken. -/
theorem Session.popped_block_lost : ∃ trace t m, Session trace t m ∧ SourceOnly trace ∧
    SpawnFree trace ∧ Job.value .top (.block 2) ∈ t.agenda ∧ (∃ e ∈ trace, e.Takes 2) ∧
    ∃ t' m', t.step m = some (t', m') ∧ t'.failure? = some ⟨.notInterned 2, none⟩ := by
  obtain ⟨hsession, hsource⟩ := Environment.execution_session 12 "true [ 1 ] dup if"
  have hfacts : SpawnFree (Environment.execution 12 "true [ 1 ] dup if").1 ∧
      (.top, 2) ∈ (Environment.execution 12 "true [ 1 ] dup if").2.1.agenda.filterMap
        Job.runsBlock? ∧
      ((Environment.execution 12 "true [ 1 ] dup if").2.1.step
        (Environment.execution 12 "true [ 1 ] dup if").2.2).map (·.1.failure?) =
          some (some ⟨.notInterned 2, none⟩) := by decide +kernel
  generalize Environment.execution 12 "true [ 1 ] dup if" = run at hsession hsource hfacts
  obtain ⟨hspawn, hnext, hstep⟩ := hfacts
  have hjob := Job.of_mem_runsBlock? hnext
  obtain ⟨⟨t', m'⟩, hstep, hstatus⟩ := Option.map_eq_some_iff.mp hstep
  exact ⟨_, _, _, hsession, hsource, hspawn, hjob,
    hsession.taken_of_due hspawn hjob List.mem_cons_self, t', m', hstep, hstatus⟩

end ScopeStack
