import ScopeStack.Proofs.Isolation
import ScopeStack.Proofs.Leftovers

/-!
# Calls that begin and end

Whoever calls a block lists the call with it, and takes it off the list when the call is over, however
it has ended. So the lists are those of the calls that the agendas will end, whichever threads there are
and in whatever order they take their steps.

* `Ensemble.calls`: the calls that the threads of an environment will end.
* `Thread.step_inProgress`: a step of a thread. `Ensemble.Turn`: what happens while the top level is
  busy; `Turn.inProgress`: **it lists the calls that begin, and takes those off that end.**
* `Ensemble.Reachable.inProgress`: **in every state the calls that are listed are these, no more and no
  less.**
* `Ensemble.CallRun`: a run of a block from its call on. `Ensemble.InCall`: how far it has got.
* `Ensemble.Reachable.call_balanced`: **when the call is over, every scope is called as before, and for as
  long as it lasts the block is there.**
-/

namespace ScopeStack

open ScopeStack.Action

variable {p : ScopeId} {c : Context} {m m' : Machine} {cs : List Call}

/-! ## 1. Steps -/

theorem Agenda.calls_cons (job : Job) (rest : List Job) :
    calls (job :: rest) = job.call?.toList ++ calls rest := by
  unfold calls
  cases h : job.call? with
  | none => exact List.filterMap_cons_none h
  | some call => exact List.filterMap_cons_some h

/-- The call that ends with a job is taken off. -/
theorem Arena.InProgress.delisted {a : Arena} {job : Job}
    (hC : a.InProgress (job.call?.toList ++ cs)) : (job.delisted a).InProgress cs := by
  unfold Job.delisted
  cases h : job.call? with
  | none =>
    rw [h] at hC
    exact hC
  | some call =>
    rw [h] at hC
    exact hC.leave call

/-- The calls that have begun are listed as well. -/
theorem Arena.InProgress.ran {a₀ : Arena} {talks : Prop} {spare : StackId → Prop} {jobs : List Job}
    (hC : a₀.InProgress cs) (hm : Ran talks spare p c a₀ jobs m) :
    m.arena.InProgress (Agenda.calls jobs ++ cs) := by
  refine inProgress_iff.mpr fun k => ?_
  rw [hm.calls k, callsOn_append]
  exact (hC.callsOf k).append_left _

/-- The end of a process ends no call. -/
theorem Arena.InProgress.finishProcess (hR : m.arena.Regular)
    (hC : m.arena.InProgress cs) {scope : ScopeId} {s : Scope} (hs : m.arena.get? scope = some s)
    (pid : Pid) : (m.finishProcess scope pid).2.arena.InProgress cs := by
  have hcleared : (m.arena.modify scope (·.cleared)).InProgress cs :=
    hC.modify scope (·.cleared) fun _ => rfl
  have hF := (hR.cleared scope).tree.forest
  obtain ⟨b, hfin, rfl | ⟨pools, hunref, hd⟩⟩ := Crew.finishProcess_eq pid hs
  · rw [hfin]
    exact hcleared
  · rw [hfin]
    exact hcleared.pruned (Arena.discard_pruned hF hd) (Arena.unreferenced_of_eq_false hF hunref)

/-- **A step of a process, other than its last**, lists a call that begins and takes one off that ends. -/
theorem Jobs.Placed.inProgress {t t' : Thread} {job : Job} {rest : List Job} (hR : m.arena.Regular)
    (hp : Head m.arena p) (hagenda : t.agenda = job :: rest) (h : Jobs.Placed m.arena p [job])
    (hstep : t.step m = some (t', m')) (hC : m.arena.InProgress (Agenda.calls t.agenda ++ cs)) :
    m'.arena.InProgress (Agenda.calls t'.agenda ++ cs) := by
  obtain ⟨c, -, jobs, heq, hm⟩ := h.ran hR hp hagenda hstep
  rw [hagenda, Agenda.calls_cons, List.append_assoc] at hC
  rw [heq, Agenda.calls_append, List.append_assoc]
  exact hC.delisted.ran hm

/-- **So does any step of a thread.** -/
theorem Thread.step_inProgress {t t' : Thread} (hR : m.arena.Regular) (ht : t.Sound m.arena)
    (hstep : t.step m = some (t', m')) (hC : m.arena.InProgress (Agenda.calls t.agenda ++ cs)) :
    m'.arena.InProgress (Agenda.calls t'.agenda ++ cs) := by
  obtain ⟨p, pid, s, hs, -, heq, rfl, pools, heq'⟩ | ⟨p, job, rest, hp, hagenda, hjob⟩ :=
    ht.step_cases hstep
  · have hclose : Agenda.calls (Job.closePools pools) = [] :=
      Agenda.calls_of_in (c := .top) fun job hj => (Job.allSimple_closePools pools job hj).in
    rw [heq', hclose]
    rw [heq] at hC
    exact hC.finishProcess hR hs pid
  · exact hjob.inProgress hR hp hagenda hstep hC

/-- What is called is the block that the handle stands for, and the call ends further down. -/
theorem Context.callBlock_jobs (hT : m.arena.Tree) (h : Handle) :
    (c.callBlock h).Ends m
      (fun jobs _ => ∃ callee call, jobs = [.body callee, .leave c callee call] ∧ call.block = h)
      fun _ _ => True := by
  have hprepare : (c.prepareCall h).Ends m (fun r _ => r.2.block = h) fun _ _ => True := by
    unfold prepareCall
    rw [ends_bind, ends_inArena]
    refine ⟨fun block hr => ?_, fun _ _ => trivial⟩
    obtain ⟨rfl, -⟩ := hT.of_resolveBlock hr
    rw [ends_bind, ends_getScope]
    refine ⟨fun s _ => ?_, fun _ => trivial⟩
    dsimp only
    split
    · trivial
    split
    · unfold sharedStacks
      split
      · rfl
      · rw [bind_assoc, ends_bind, ends_getScope]
        exact ⟨fun _ _ => rfl, fun _ => trivial⟩
    · rfl
  unfold callBlock beginCall
  rw [bind_assoc]
  refine hprepare.bind fun r n hr => ?_
  rw [bind_assoc, enterCall, bind_assoc, ends_bind, ends_getScope]
  exact ⟨fun _ _ => ⟨_, _, rfl, hr⟩, fun _ => trivial⟩

/-- After the end of a call there is to be done what was behind it. -/
theorem Thread.step_leave {t t' : Thread} {callee : Context} {call : Call} {rest : List Job}
    (hagenda : t.agenda = .leave c callee call :: rest) (hstep : t.step m = some (t', m')) :
    t'.agenda = rest := by
  have hjobs : (Job.leave c callee call).start.Ends m (fun jobs _ => jobs = []) fun _ _ => True :=
    (ends_trivial _ m).bind fun _ n _ => (ends_trivial _ n).bind fun _ n _ =>
      (ends_trivial _ n).bind fun _ _ _ => rfl
  obtain ⟨-, ⟨-, ⟨jobs, hrun, rfl⟩ | ⟨f, -, rfl⟩⟩ | ⟨f, -, -, rfl⟩⟩ := Thread.step_cases hagenda hstep
  · rw [hjobs.of_ok hrun]
    rfl
  · rfl
  · rfl

/-! ## 2. Environments -/

namespace Ensemble

/-- The calls of the spawned processes. -/
def spawnedCalls (w : Ensemble) : List Call := w.others.flatMap fun t => Agenda.calls t.agenda

/-- The calls that the threads will end. -/
def calls (w : Ensemble) : List Call := Agenda.calls w.main.agenda ++ w.spawnedCalls

/-- What happens in an environment while the top level is busy. -/
inductive Turn (w : Ensemble) : Ensemble → Prop where
  | step {t : Thread} {m : Machine} : w.main.step w.machine = some (t, m) →
      Turn w { w with main := t, machine := m }
  | begin {p : ScopeId} {s : Scope} (worker : Option WorkerRef) (halt : HaltToken) :
      w.machine.arena.get? p = some s → s.running = true → (∀ t ∈ w.others, ¬ t.Heads p) →
      Turn w { w with others := { worker, agenda := Task.agenda ⟨s.pid, p, halt⟩ } :: w.others }
  | other {front back : List Thread} {t t' : Thread} {m : Machine} :
      w.others = front ++ t :: back → t.step w.machine = some (t', m) →
      Turn w { w with others := front ++ t' :: back, machine := m }
  | retire {front back : List Thread} {t : Thread} : w.others = front ++ t :: back → t.isDone →
      Turn w { w with others := front ++ back }
  | pass (m : Machine) : m.arena = w.machine.arena → m.processes = w.machine.processes →
      m.hash = w.machine.hash → Turn w { w with machine := m }

variable {w w₀ w' : Ensemble}

theorem Turn.sound (h : w.Turn w') (hw : w.Sound) : w'.Sound := by
  cases h with
  | step hstep => exact hw.step hstep
  | begin worker halt hs hrun hnew => exact hw.begin worker halt hs hrun hnew
  | other hothers hstep => exact hw.other hothers hstep
  | retire hothers hdone => exact hw.retire hothers
  | pass m harena _ _ => exact hw.drifts (harena ▸ hw.regular) (harena ▸ .refl _)

/-- The calls of one of the threads in front of the others. -/
theorem calls_perm {front back : List Thread} {t : Thread} (hothers : w.others = front ++ t :: back) :
    w.calls.Perm (Agenda.calls t.agenda ++
      (Agenda.calls w.main.agenda ++ (front ++ back).flatMap fun t => Agenda.calls t.agenda)) := by
  rw [calls, spawnedCalls, hothers, List.flatMap_append, List.flatMap_append, List.flatMap_cons]
  exact ((List.perm_append_comm_assoc _ _ _).append_left _).trans (List.perm_append_comm_assoc _ _ _)

/-- **The calls that are listed stay those that the threads will end.** -/
theorem Turn.inProgress (h : w.Turn w') (hw : w.Sound) (hC : w.machine.arena.InProgress w.calls) :
    w'.machine.arena.InProgress w'.calls := by
  cases h with
  | step hstep => exact Thread.step_inProgress hw.regular (.serving hw.main) hstep hC
  | begin => exact hC
  | other hothers hstep =>
    rename_i front back t t' m
    have ht : t ∈ w.others := hothers ▸ List.mem_append_right _ List.mem_cons_self
    have hstepped := Thread.step_inProgress hw.regular (hw.others t ht) hstep
      (hC.perm (calls_perm hothers))
    exact hstepped.perm (calls_perm (w := { w with others := front ++ t' :: back }) rfl).symm
  | retire hothers hdone =>
    have hnone := hC.perm (calls_perm hothers)
    rw [List.isEmpty_iff.mp hdone] at hnone
    exact hnone
  | pass m harena _ _ => exact harena ▸ hC

/-- **In every state of an environment the calls that are listed are those that its threads will end.** -/
theorem Reachable.inProgress (h : w.Reachable) : w.machine.arena.InProgress w.calls := by
  induction h with
  | start config files hash => exact (Environment.fresh_inOrder config files False False hash).calls
  | command x hw _ hx ih =>
    rename_i w _
    have hS := hw.sound.starts_top
    refine Arena.inProgress_iff.mpr fun k => ?_
    rw [hS.callsOf (Command.outcome_edited hS hx) k]
    exact ih.callsOf k
  | request agenda _ hdone hjobs ih =>
    rename_i w _
    rw [calls, List.isEmpty_iff.mp hdone] at ih
    rw [calls, Agenda.calls_of_in hjobs]
    exact ih
  | step hw hstep ih => exact (Turn.step hstep).inProgress hw.sound ih
  | begin worker halt hw hs hrun hnew ih =>
    exact (Turn.begin worker halt hs hrun hnew).inProgress hw.sound ih
  | other hw hothers hstep ih => exact (Turn.other hothers hstep).inProgress hw.sound ih
  | retire hw hothers hdone ih => exact (Turn.retire hothers hdone).inProgress hw.sound ih
  | pass m hw harena hprocesses hhash ih =>
    exact (Turn.pass m harena hprocesses hhash).inProgress hw.sound ih

/-! ## 3. Runs of a block -/

/-- The environment, with the call of a block put in front of what the top level has to do. -/
def calling (w : Ensemble) (c : Context) (h : Handle) : Ensemble :=
  { w with main := { worker := w.main.worker, agenda := .value c (.block h) :: w.main.agenda } }

/-- A run of a block that is called from the context `c`, from the call on: the states it gets to. The
call is over when the top level has to do what it had to do before. -/
inductive CallRun (w₀ : Ensemble) (c : Context) (h : Handle) : Ensemble → Prop where
  | call {t : Thread} {m : Machine} : (w₀.calling c h).main.step w₀.machine = some (t, m) →
      CallRun w₀ c h { w₀ with main := t, machine := m }
  | turn {w w' : Ensemble} : CallRun w₀ c h w → w.main.agenda ≠ w₀.main.agenda → w.Turn w' →
      CallRun w₀ c h w'

/-- How far a call has got: it is to be ended, or it is over. -/
def InCall (w₀ : Ensemble) (h : Handle) (w : Ensemble) : Prop :=
  w.main.agenda = w₀.main.agenda ∨ ∃ front c callee call,
    w.main.agenda = front ++ .leave c callee call :: w₀.main.agenda ∧ call.block = h

/-- A step of the top level gets on with the call. -/
theorem InCall.step {h : Handle} {t : Thread} (hw : w₀.InCall h w)
    (hbusy : w.main.agenda ≠ w₀.main.agenda) (hstep : w.main.step w.machine = some (t, m)) :
    w₀.InCall h { w with main := t, machine := m } := by
  obtain ⟨front, c, callee, call, hagenda, hblock⟩ := hw.resolve_left hbusy
  cases front with
  | nil => exact Or.inl (Thread.step_leave hagenda hstep)
  | cons job front =>
    obtain ⟨jobs, heq⟩ := Thread.step_agenda hagenda hstep
    exact Or.inr ⟨jobs ++ front, c, callee, call, heq.trans (List.append_assoc ..).symm, hblock⟩

theorem Sound.calling (hw : w₀.Sound) (hc : Placed w₀.machine.arena rootScope c) (h : Handle) :
    (w₀.calling c h).Sound := by
  refine ⟨hw.regular, fun job hj => ?_, hw.others, hw.apart⟩
  rcases List.mem_cons.mp hj with rfl | hj
  · exact ⟨fun d hd => by cases hd; exact hc, fun _ _ he => by cases he⟩
  · exact hw.main job hj

/-- **A run of a block**: the environment is sound, the calls that are listed are those that the threads
will end, and among these there is the call of the block, until it is over. -/
theorem CallRun.inCall {h : Handle} (hw : w₀.Sound) (hC : w₀.machine.arena.InProgress w₀.calls)
    (hc : Placed w₀.machine.arena rootScope c) (hrun : CallRun w₀ c h w) :
    w.Sound ∧ w.machine.arena.InProgress w.calls ∧ w₀.InCall h w := by
  induction hrun with
  | call hstep =>
    rename_i t m
    have hturn : (w₀.calling c h).Turn { w₀ with main := t, machine := m } := .step hstep
    have hcalling := hw.calling hc h
    refine ⟨hturn.sound hcalling, hturn.inProgress hcalling hC, ?_⟩
    have hjobs := Context.callBlock_jobs (c := c) hw.regular.tree h
    obtain ⟨-, ⟨-, ⟨jobs, hok, rfl⟩ | ⟨f, -, rfl⟩⟩ | ⟨f, hstatus, -⟩⟩ := Thread.step_cases rfl hstep
    · obtain ⟨callee, call, rfl, hblock⟩ := hjobs.of_ok hok
      exact Or.inr ⟨[.body callee], c, callee, call, rfl, hblock⟩
    · exact Or.inl rfl
    · cases hstatus
  | turn _ hbusy hturn ih =>
    obtain ⟨hsound, hlisted, hin⟩ := ih
    refine ⟨hturn.sound hsound, hturn.inProgress hsound hlisted, ?_⟩
    cases hturn with
    | step hstep => exact hin.step hbusy hstep
    | begin | other | retire | pass => exact hin

/-- In any state of an environment without spawned processes, let a context call a block. For as long as
the call lasts, the block is there, and listed as called. When the call is over, however it has ended, a
scope that was there before lists the calls that it listed then, and one that has come lists none; apart
from the calls of processes that have been spawned in the meantime. -/
theorem Reachable.call_balanced {h : Handle} (hw : w₀.Reachable) (hnone : w₀.others = [])
    (hc : w₀.Hosts c) (hrun : CallRun w₀ c h w) :
    (w.main.agenda ≠ w₀.main.agenda → ∃ s, w.machine.arena.get? h = some s ∧ s.calls ≠ []) ∧
    (w.main.agenda = w₀.main.agenda → ∀ k t, w.machine.arena.get? k = some t →
      (∀ s, w₀.machine.arena.get? k = some s →
        t.calls.Perm (Arena.callsOn w.spawnedCalls k ++ s.calls)) ∧
      (w₀.machine.arena.get? k = none → t.calls.Perm (Arena.callsOn w.spawnedCalls k))) := by
  have hplaced : Placed w₀.machine.arena rootScope c := by
    rcases hc with rfl | ⟨t, ht, job, hj, hctx⟩
    · exact hw.sound.starts_top.placed
    · rw [hnone] at ht
      cases List.mem_singleton.mp ht
      exact (hw.sound.main job hj).1 c hctx
  have hbefore := hw.inProgress
  obtain ⟨-, hlisted, hin⟩ := hrun.inCall hw.sound hbefore hplaced
  refine ⟨fun hbusy => ?_, fun hover k t ht => ?_⟩
  · obtain ⟨front, d, callee, call, hagenda, rfl⟩ := hin.resolve_left hbusy
    have hleave : Job.leave d callee call ∈ w.main.agenda := by
      rw [hagenda]
      exact List.mem_append_right _ List.mem_cons_self
    have hcall : call ∈ w.calls := List.mem_append_left _ (Agenda.mem_calls hleave)
    obtain ⟨s, hs⟩ := hlisted.live hcall
    exact ⟨s, hs, List.ne_nil_of_mem (hlisted.mem_calls hcall hs)⟩
  · have hcalls : w.calls.Perm (w.spawnedCalls ++ w₀.calls) := by
      rw [calls, calls, hover, spawnedCalls, spawnedCalls, hnone, List.flatMap_nil, List.append_nil]
      exact List.perm_append_comm
    have hnow : t.calls.Perm (Arena.callsOn w.spawnedCalls k ++ Arena.callsOn w₀.calls k) := by
      rw [← Arena.callsOn_append]
      exact (hlisted.perm hcalls).calls ht
    refine ⟨fun s hs => hnow.trans ((hbefore.calls hs).symm.append_left _), fun hs => ?_⟩
    rw [hbefore.callsOn_of_none hs, List.append_nil] at hnow
    exact hnow

/-- As long as the top level has more to do than before the call, its steps in a row belong to the run. -/
theorem CallRun.steps {h : Handle} (hrun : CallRun w₀ c h w) {n : Nat}
    (habove : w.main.staysAbove w₀.main.agenda.length n w.machine = true) :
    CallRun w₀ c h
      ⟨(w.main.steps n w.machine).2.2, (w.main.steps n w.machine).2.1, w.others⟩ := by
  induction n generalizing w with
  | zero => exact hrun
  | succ n ih =>
    rw [Thread.staysAbove, Bool.and_eq_true] at habove
    rw [Thread.steps_succ]
    cases hstep : w.main.step w.machine with
    | none => exact hrun
    | some r =>
      rw [hstep] at habove
      have hbusy : w.main.agenda ≠ w₀.main.agenda := fun he =>
        Nat.lt_irrefl _ (he ▸ of_decide_eq_true habove.1)
      exact ih (hrun.turn hbusy (.step hstep)) habove.2

theorem InCall.over {h : Handle} (hw : w₀.InCall h w)
    (hlength : w.main.agenda.length = w₀.main.agenda.length) : w.main.agenda = w₀.main.agenda := by
  refine hw.resolve_right fun ⟨front, c, callee, call, hagenda, _⟩ => ?_
  rw [hagenda, List.length_append, List.length_cons] at hlength
  omega

/-- `1 2 3 [ drop f ] "f" ;`, and `f` is being called. The block is called once more, and calls itself until
its `drop` fails for want of a value. Each call is on the stack of the top level, so the list of the block
gets longer by the same stack each time; in the end it is what it was. -/
theorem Reachable.call_balanced_recursive : ∃ w₀ w : Ensemble, w₀.Reachable ∧ w₀.others = [] ∧
    CallRun w₀ .top 2 w ∧ w.main.agenda = w₀.main.agenda ∧
    w.main.failure?.map (·.fault) = some .emptyStack ∧
    ∃ s t, w₀.machine.arena.get? 2 = some s ∧ w.machine.arena.get? 2 = some t ∧ s.calls = [1] ∧
      t.calls.Perm [1] := by
  let run := Thread.steps 22
    { agenda := [.source .top (.ofText "" "1 2 3 [ drop f ] \"f\" ; f")] }
    (Environment.freshMachine {} fun _ => none).2
  let w₀ : Ensemble := ⟨run.2.2, run.2.1, []⟩
  have hw : w₀.Reachable := ((Reachable.start {} (fun _ => none) .standard).request
    [.source .top (.ofText "" "1 2 3 [ drop f ] \"f\" ; f")] rfl (fun job hj => by
      cases List.mem_singleton.mp hj
      exact fun d hd => (Option.some.inj hd).symm)).steps 22
  have hcalls : (w₀.machine.arena.get? 2).map (·.calls) = some [1] := by decide +kernel
  have hfirst : ((w₀.calling .top 2).main.step w₀.machine).any (fun r =>
      r.1.staysAbove w₀.main.agenda.length 13 r.2 &&
      decide ((r.1.steps 13 r.2).2.1.agenda.length = w₀.main.agenda.length) &&
      decide ((r.1.steps 13 r.2).2.1.failure?.map (·.fault) = some .emptyStack) &&
      (r.1.steps 13 r.2).2.2.arena.contains 2) = true := by decide +kernel
  obtain ⟨⟨t, m⟩, hstep, hend⟩ := (Option.any_eq_true _ _).mp hfirst
  simp only [Bool.and_eq_true, decide_eq_true_eq] at hend
  obtain ⟨⟨⟨habove, hlength⟩, hfault⟩, hthere⟩ := hend
  have hrun := (CallRun.call hstep).steps habove
  have hover := (hrun.inCall hw.sound hw.inProgress hw.sound.starts_top.placed).2.2.over hlength
  obtain ⟨s, hs, hscalls⟩ := Option.map_eq_some_iff.mp hcalls
  obtain ⟨u, hu⟩ := Arena.contains_iff.mp hthere
  have hbalanced := ((hw.call_balanced rfl (Or.inl rfl) hrun).2 hover 2 u hu).1 s hs
  rw [hscalls] at hbalanced
  exact ⟨w₀, _, hw, rfl, hrun, hover, hfault, s, u, hs, hu, hscalls, hbalanced⟩

end Ensemble

end ScopeStack
