import ScopeStack.Proofs.Sessions

/-!
# Blocks that are open

An open block is not referred to by anything but the list of open blocks, and letting go of a scope
does not look there. So a block that code has opened inside another one goes with it, and from then
on nothing can be compiled and nothing can be closed.

* `Arena.OpenSound`: what the list of open blocks should be like.
* `Event.ReclaimsOpen`: a step that takes an open block out.
* `Session.openSound_iff`: **the list is as it should be exactly as long as no step has done so**, and
  from then on every token fails.
-/

namespace ScopeStack

open ScopeStack.Action

/-- Each of these blocks is there and being compiled; it was opened inside the next one, and the last
one inside a scope that is there and not being compiled. -/
def Arena.OpenSound (a : Arena) : List ScopeId → Prop
  | [] => True
  | [k] => ∃ s p t, a.get? k = some s ∧ s.compiling = true ∧ s.parent = some p ∧
      a.get? p = some t ∧ t.compiling = false
  | k :: j :: rest => (∃ s, a.get? k = some s ∧ s.compiling = true ∧ s.parent = some j) ∧
      a.OpenSound (j :: rest)

/-- The step takes a block out that is open. -/
def Event.ReclaimsOpen : Event → Prop
  | step _ before after => ∃ k ∈ before.arena.openBlocks,
      before.arena.contains k = true ∧ after.arena.contains k = false
  | push _ => False

instance : DecidablePred Event.ReclaimsOpen
  | .step _ before after => inferInstanceAs (Decidable (∃ k ∈ before.arena.openBlocks,
      before.arena.contains k = true ∧ after.arena.contains k = false))
  | .push _ => inferInstanceAs (Decidable False)

/-! ## 1. Open blocks that have gone -/

/-- A block is open that is not there. -/
def Arena.Broken (a : Arena) : Prop := ∃ k ∈ a.openBlocks, a.get? k = none

theorem Arena.contains_eq_false {a : Arena} {id : ScopeId} :
    a.contains id = false ↔ a.get? id = none := by
  rw [contains_eq, Option.isSome_eq_false_iff, Option.isNone_iff_eq_none]

/-- The list of open blocks is as it should be unless one of them has gone. -/
theorem Arena.Orderly.openSound_iff_not_broken {a : Arena} (hO : a.Orderly) :
    a.OpenSound a.openBlocks ↔ ¬ a.Broken := by
  have hlinked {k : ScopeId} (hk : k ∈ a.openBlocks) {s : Scope} (hs : a.get? k = some s) :
      a.Linked k := hO.tree.linked_openBlock hk hs
  have hchain := hO.opens
  unfold Broken
  generalize a.openBlocks = ks at hlinked hchain
  induction ks with
  | nil => exact ⟨fun _ ⟨k, hk, _⟩ => (by cases hk), fun _ => trivial⟩
  | cons k rest ih =>
    have ih := ih (fun hj => hlinked (List.mem_cons_of_mem _ hj)) hchain.2.2
    have hsplit : (¬ ∃ j ∈ k :: rest, a.get? j = none) ↔
        (∃ s, a.get? k = some s) ∧ ¬ ∃ j ∈ rest, a.get? j = none := by
      constructor
      · intro h
        refine ⟨?_, fun ⟨j, hj, hn⟩ => h ⟨j, List.mem_cons_of_mem _ hj, hn⟩⟩
        exact Option.ne_none_iff_exists'.mp fun hn => h ⟨k, List.mem_cons_self, hn⟩
      · rintro ⟨⟨s, hs⟩, hrest⟩ ⟨j, hj, hn⟩
        rcases List.mem_cons.mp hj with rfl | hj
        · rw [hs] at hn
          cases hn
        · exact hrest ⟨j, hj, hn⟩
    rw [hsplit]
    cases rest with
    | nil =>
      constructor
      · rintro ⟨s, p, t, hs, -⟩
        exact ⟨⟨s, hs⟩, fun ⟨j, hj, _⟩ => (by cases hj)⟩
      · rintro ⟨⟨s, hs⟩, -⟩
        obtain ⟨hc, p, hp, hnext⟩ := hchain.1 s hs
        obtain ⟨s', hs', hlive⟩ := hlinked List.mem_cons_self hs
        cases hs.symm.trans hs'
        obtain ⟨t, ht⟩ := hlive p hp
        exact ⟨s, p, t, hs, hc, hp, ht, hnext t ht⟩
    | cons j rest =>
      refine and_congr ⟨fun ⟨s, hs, _⟩ => ⟨s, hs⟩, fun ⟨s, hs⟩ => ?_⟩ ih
      obtain ⟨hc, p, hp, hnext⟩ := hchain.1 s hs
      exact ⟨s, hs, hc, hnext ▸ hp⟩

/-- If an open block has gone, so has the innermost one. -/
theorem Arena.Orderly.broken_head {a : Arena} (hO : a.Orderly) (h : a.Broken) :
    ∃ k, a.openBlocks.head? = some k ∧ a.get? k = none := by
  have hlinked {k : ScopeId} (hk : k ∈ a.openBlocks) {s : Scope} (hs : a.get? k = some s) :
      a.Linked k := hO.tree.linked_openBlock hk hs
  have hchain := hO.opens
  obtain ⟨j, hj, hgone⟩ := h
  generalize a.openBlocks = ks at hlinked hchain hj
  induction ks with
  | nil => cases hj
  | cons k rest ih =>
    refine ⟨k, rfl, ?_⟩
    rcases List.mem_cons.mp hj with rfl | hj
    · exact hgone
    · obtain ⟨i, hi, hgone⟩ := ih (fun h => hlinked (List.mem_cons_of_mem _ h)) hchain.2.2 hj
      -- if `k` were there, the block around it would be there as well
      refine Option.eq_none_iff_forall_ne_some.mpr fun s hs => ?_
      obtain ⟨-, p, hp, hnext⟩ := hchain.1 s hs
      obtain ⟨s', hs', hlive⟩ := hlinked List.mem_cons_self hs
      cases hs.symm.trans hs'
      obtain ⟨t, ht⟩ := hlive p hp
      cases rest with
      | nil => cases hi
      | cons j' rest =>
        cases hi
        rw [hnext, hgone] at ht
        cases ht

/-! ## 2. Steps -/

/-- What a step does to the open blocks: **an open block that has gone is never closed, and a block
that goes while it is open stays on the list.** -/
theorem Arena.Follows.broken_iff {a b : Arena} (hT : a.Tree) (hf : Follows [] a b) :
    b.Broken ↔ a.Broken ∨ ∃ k ∈ a.openBlocks, (∃ s, a.get? k = some s) ∧ b.get? k = none := by
  have hstill {k : ScopeId} (hk : k ∈ a.openBlocks) (hgone : a.get? k = none) :
      b.get? k = none := by
    refine Option.eq_none_iff_forall_ne_some.mpr fun t ht => ?_
    obtain ⟨s, hs⟩ := hf.back (hT.openBlock_le hk).1 ht
    rw [hgone] at hs
    cases hs
  constructor
  · rintro ⟨k, hk, hgone⟩
    have hopen : k ∈ a.openBlocks := by
      rcases hf.opens with ho | ⟨j, t, ho, ht⟩ | ⟨j, s, t, ho, -, -⟩
      · exact ho ▸ hk
      · rw [ho] at hk
        rcases List.mem_cons.mp hk with rfl | hk
        · rw [hgone] at ht
          cases ht
        · exact hk
      · rw [ho]
        exact List.mem_cons_of_mem _ hk
    cases hs : a.get? k with
    | none => exact Or.inl ⟨k, hopen, hs⟩
    | some s => exact Or.inr ⟨k, hopen, ⟨s, hs⟩, hgone⟩
  · have hkeep {k : ScopeId} (hk : k ∈ a.openBlocks) (hgone : b.get? k = none) : b.Broken := by
      refine ⟨k, ?_, hgone⟩
      rcases hf.opens with ho | ⟨j, t, ho, -⟩ | ⟨j, s, t, ho, -, ht⟩
      · exact ho.symm ▸ hk
      · rw [ho]
        exact List.mem_cons_of_mem _ hk
      · rw [ho] at hk
        rcases List.mem_cons.mp hk with rfl | hk
        · rw [hgone] at ht
          cases ht
        · exact hk
    rintro (⟨k, hk, hgone⟩ | ⟨k, hk, -, hgone⟩)
    · exact hkeep hk (hstill hk hgone)
    · exact hkeep hk hgone

theorem Arena.Still.broken_iff {a b : Arena} (hS : a.Still b) : b.Broken ↔ a.Broken := by
  unfold Broken
  rw [hS.openBlocks]
  refine exists_congr fun k => and_congr_right fun _ => ⟨fun h => hS.of_get?_none h, fun h => ?_⟩
  refine Option.eq_none_iff_forall_ne_some.mpr fun t ht => ?_
  obtain ⟨s, hs, -⟩ := hS.get? ht
  rw [h] at hs
  cases hs

/-- **A block is open that is not there exactly if some step has taken an open block out.** -/
theorem Session.broken_iff {trace : List Event} {t : Thread} {m : Machine}
    (h : Session trace t m) (hspawn : SpawnFree trace) :
    m.arena.Broken ↔ ∃ e ∈ trace, e.ReclaimsOpen := by
  induction h with
  | start config files hash =>
    refine ⟨fun ⟨k, hk, _⟩ => ?_, fun ⟨e, he, _⟩ => (by cases he)⟩
    have hroot := Environment.get?_fresh_root config files
    rw [show Arena.openBlocks _ = [] from Arena.openBlocks_eq hroot] at hk
    cases hk
  | request _ _ _ ih => exact ih hspawn
  | @step trace t t' m m' h hstep ih =>
    have hm : InOrder False False t.agenda m := h.inOrder hspawn.of_cons False.elim False.elim
    have hf := (hm.step hstep False.elim hspawn.last).2
    simp only [List.mem_cons, exists_eq_or_imp]
    rw [hf.broken_iff hm.steady.tree, ih hspawn.of_cons, or_comm]
    refine or_congr_left (exists_congr fun k => and_congr_right fun _ => ?_)
    rw [Arena.contains_iff, Arena.contains_eq_false]
  | @push trace t m v h hdone ih =>
    simp only [List.mem_cons, exists_eq_or_imp]
    rw [(h.still_of_push hspawn.of_cons hdone v).broken_iff, ih hspawn.of_cons]
    exact (or_iff_right id).symm
  | pass clock files output _ ih => exact ih hspawn

/-! ## 3. Tokens -/

/-- Nothing is interned for a scope that has gone. -/
theorem Context.internPayload_gone {α : Type} [BEq α] [Interned α] {c : Context} {m : Machine}
    (hF : m.arena.Forest) (hgone : m.arena.get? c.scope = none)
    (hash : ContentHash → α → Handle) (v : α) :
    (internPayload hash c v).Ends m (fun _ _ => False) fun f _ => f = ⟨.scopeGone c.scope, none⟩ := by
  have hintern : m.arena.intern (hash m.hash) c.scope v = (.error (.scopeGone c.scope), m.arena) := by
    rw [Arena.intern, Arena.chain_of_none hF hgone]
    rfl
  unfold internPayload
  rw [ends_bind, ends_get, ends_changeArena, hintern]
  refine ⟨fun _ hv => (by cases hv), fun e he => ?_⟩
  cases he
  rfl

/-- Nothing is compiled into a scope that has gone. -/
theorem Context.compileAtom_gone {c : Context} {m : Machine} (hF : m.arena.Forest)
    (hgone : m.arena.get? c.scope = none) (a : Atom) :
    (c.compileAtom a).Ends m (fun _ m' => m' = m) fun f _ => f = ⟨.scopeGone c.scope, none⟩ := by
  have hintern {α : Type} [BEq α] [Interned α] {hash : ContentHash → α → Handle} {v : α}
      {g : Handle → Cell} : (internPayload hash c v >>= fun h => (pure (g h) : Action Cell)).Ends m
        (fun _ m' => m' = m) fun f _ => f = ⟨.scopeGone c.scope, none⟩ := by
    rw [ends_bind]
    exact (internPayload_gone hF hgone hash v).mono (fun _ _ h => h.elim) fun _ _ h => h
  cases a with
  | int | bool => rfl
  | number n => cases n <;> exact hintern
  | str | word => exact hintern

/-- Once the innermost open block has gone, no token gets anywhere. -/
theorem Context.compileToken_gone {c : Context} {m : Machine} (hT : m.arena.Tree)
    (hp : c.process = rootScope) {k : ScopeId} (hk : m.arena.openBlocks.head? = some k)
    (hgone : m.arena.get? k = none) (tok : Token) :
    (c.compileToken tok).Ends m (fun _ _ => False) fun f _ => f = ⟨.scopeGone k, none⟩ := by
  have htarget : m.arena.openBlocks.headD c.scope = k := by
    rw [List.headD_eq_head?_getD, hk, Option.getD_some]
  have hle : k ≤ m.arena.lastScope := (hT.openBlock_le (List.mem_of_head? hk)).1
  have hscope {β : Type} {f : Scope → Action β} :
      (getScope k >>= f).Ends m (fun _ _ => False) fun f _ => f = ⟨.scopeGone k, none⟩ := by
    rw [ends_bind, ends_getScope]
    refine ⟨fun s hs => ?_, fun _ => rfl⟩
    rw [hgone] at hs
    cases hs
  unfold compileToken
  cases Literal.ofToken tok with
  | blockOpen kind =>
    dsimp only
    unfold openBlock
    rw [bind_assoc, ends_bind, compileTarget_ends hp hT, htarget, bind_assoc, ends_bind,
      ends_changeArena, (Arena.createChild_added hle kind.shares).2, hgone]
    refine ⟨fun _ hv => (by cases hv), fun e he => ?_⟩
    cases he
    rfl
  | blockClose kind =>
    obtain ⟨s, hs, -⟩ := hT.root
    dsimp only
    unfold closeBlock finishBlock
    rw [Arena.openBlocks_eq hs] at hk
    rw [hp, bind_assoc, bind_assoc, ends_bind, ends_getScope_some hs, hk, bind_assoc, ends_bind,
      ends_ofOption]
    refine ⟨fun child hchild => ?_, fun hno => (by cases hno)⟩
    cases hchild
    rw [bind_assoc]
    exact hscope
  | atom a =>
    dsimp only
    rw [ends_bind, compileTarget_ends hp hT, htarget]
    have hatom : ((c.switchTo k).compileAtom a).Ends m (fun _ m' => m' = m)
        fun f _ => f = ⟨.scopeGone (c.switchTo k).scope, none⟩ :=
      compileAtom_gone hT.forest ((switchTo_scope c k).symm ▸ hgone) a
    rw [switchTo_scope] at hatom ⊢
    refine hatom.bind ?_
    rintro cell m' rfl
    exact hscope

theorem Job.token_gone {c : Context} {m : Machine} (hT : m.arena.Tree)
    (hp : c.process = rootScope) (hrun : c.isStopped m = false) {k : ScopeId}
    (hk : m.arena.openBlocks.head? = some k) (hgone : m.arena.get? k = none) (tok : Token) :
    ((Job.token c tok).start.outcome m).1 = .error ⟨.scopeGone k, some tok.location⟩ := by
  have hend : (Job.token c tok).start.Ends m (fun _ _ => False)
      fun f _ => f = ⟨.scopeGone k, some tok.location⟩ := by
    refine ends_checkRunning_bind (fun hs => ?_) fun _ => ?_
    · rw [hrun] at hs
      cases hs
    · rw [ends_bind, ends_locating]
      exact (Context.compileToken_gone hT hp hk hgone tok).mono (fun _ _ h => h.elim)
        fun _ _ h => h ▸ rfl
  unfold Ends at hend
  unfold Action.outcome
  cases hx : (Job.token c tok).start.run m with
  | ok v m' =>
    rw [hx] at hend
    exact hend.elim
  | error f m' =>
    rw [hx] at hend
    exact congrArg Except.error hend

/-- **Without processes the list of open blocks is as it should be exactly if no step so far has taken
an open block out. As long as none has, what a token is compiled into is there; once one has, every
token fails because what it would be compiled into has gone.** -/
theorem Session.openSound_iff {trace : List Event} {t : Thread} {m : Machine}
    (h : Session trace t m) (hspawn : SpawnFree trace) :
    (m.arena.OpenSound m.arena.openBlocks ↔ ∀ e ∈ trace, ¬ e.ReclaimsOpen) ∧
    ∀ c tok rest, t.agenda = .token c tok :: rest →
      ((∀ e ∈ trace, ¬ e.ReclaimsOpen) →
        ∃ id, c.compileTarget.run m = .ok id m ∧ m.arena.contains id = true) ∧
      ((∃ e ∈ trace, e.ReclaimsOpen) → c.isStopped m = false →
        ∃ k, m.arena.openBlocks.head? = some k ∧
          ((Job.token c tok).start.outcome m).1 = .error ⟨.scopeGone k, some tok.location⟩) := by
  have hm : InOrder False False t.agenda m := h.inOrder hspawn False.elim False.elim
  have hO := hm.steady.toOrderly
  have hbroken := h.broken_iff hspawn
  have hsound : ¬ m.arena.Broken ↔ ∀ e ∈ trace, ¬ e.ReclaimsOpen := by
    rw [hbroken]
    exact ⟨fun h e he hr => h ⟨e, he, hr⟩, fun h ⟨e, he, hr⟩ => h e he hr⟩
  refine ⟨hO.openSound_iff_not_broken.trans hsound, fun c tok rest hagenda => ?_⟩
  rw [hagenda] at hm
  have hc := (hm.tail rfl).seated (hm.fits.1.hosted rfl)
  refine ⟨fun hno => ?_, fun hyes hrun => ?_⟩
  · refine ⟨_, Context.run_compileTarget hc.process hO.tree, Arena.contains_iff.mpr ?_⟩
    cases ho : m.arena.openBlocks with
    | nil => exact hc.linked.get?
    | cons k rest =>
      exact Option.ne_none_iff_exists'.mp fun hn =>
        hsound.mpr hno ⟨k, ho ▸ List.mem_cons_self, hn⟩
  · obtain ⟨k, hk, hgone⟩ := hO.broken_head (hbroken.mpr hyes)
    exact ⟨k, hk, Job.token_gone hO.tree hc.process hrun hk hgone tok⟩

/-- A block is open, and the next token is compiled into it. -/
theorem Session.openSound_iff_open : ∃ trace t m, Session trace t m ∧ SpawnFree trace ∧
    m.arena.openBlocks = [2] ∧ m.arena.OpenSound m.arena.openBlocks ∧
    ∃ id, Context.top.compileTarget.run m = .ok id m ∧ m.arena.contains id = true := by
  obtain ⟨hsession, -⟩ := Environment.execution_session 20 "[ 1"
  have hfacts : SpawnFree (Environment.execution 20 "[ 1").1 ∧
      (∀ e ∈ (Environment.execution 20 "[ 1").1, ¬ e.ReclaimsOpen) ∧
      (Environment.execution 20 "[ 1").2.2.arena.openBlocks = [2] ∧
      (Environment.execution 20 "[ 1").2.1.isDone = true := by decide +kernel
  generalize Environment.execution 20 "[ 1" = run at hsession hfacts
  obtain ⟨hspawn, hkept, hopen, hdone⟩ := hfacts
  have hnext := hsession.request hdone (.token ⟨⟨"<eval>", 1, 5⟩, .word, "2"⟩)
  obtain ⟨hsound, htoken⟩ := hnext.openSound_iff hspawn
  exact ⟨_, _, _, hnext, hspawn, hopen, hsound.mpr hkept, (htoken _ _ _ rfl).1 hkept⟩

/-- A block that opens another one by running source is let go of, and the open block goes with it:
the list of open blocks names a scope that is not there, and the next token fails. -/
theorem Session.reclaimed_while_open : ∃ trace t m, Session trace t m ∧ SourceOnly trace ∧
    SpawnFree trace ∧ t.isDone = true ∧ ¬ m.arena.OpenSound m.arena.openBlocks ∧
    ∀ tok, ((Job.token .top tok).start.outcome m).1 =
      .error ⟨.scopeGone 3, some tok.location⟩ := by
  obtain ⟨hsession, hsource⟩ := Environment.execution_session 100 "[ \"[\" eval ] !"
  have hfacts : SpawnFree (Environment.execution 100 "[ \"[\" eval ] !").1 ∧
      (Environment.execution 100 "[ \"[\" eval ] !").2.2.arena.openBlocks = [3] ∧
      (Environment.execution 100 "[ \"[\" eval ] !").2.2.arena.contains 3 = false ∧
      Context.top.isStopped (Environment.execution 100 "[ \"[\" eval ] !").2.2 = false ∧
      (Environment.execution 100 "[ \"[\" eval ] !").2.1.isDone = true := by decide +kernel
  generalize Environment.execution 100 "[ \"[\" eval ] !" = run at hsession hsource hfacts
  obtain ⟨hspawn, hopen, hgone, hrun, hdone⟩ := hfacts
  rw [Arena.contains_eq_false] at hgone
  have hm : InOrder False False _ run.2.2 := hsession.inOrder hspawn False.elim False.elim
  have hhead : run.2.2.arena.openBlocks.head? = some 3 := by rw [hopen]; rfl
  refine ⟨run.1, run.2.1, run.2.2, hsession, hsource, hspawn, hdone, fun hsound => ?_, fun tok =>
    Job.token_gone hm.steady.tree rfl hrun hhead hgone tok⟩
  exact hm.steady.openSound_iff_not_broken.mp hsound ⟨3, hopen ▸ List.mem_cons_self, hgone⟩

end ScopeStack
