import ScopeStack.Proofs.Issued

/-!
# Processes that take turns

A running environment: a machine, the thread of the top level, and the threads of the processes that
have been spawned, in any order of their steps. Between requests an embedder acts on the top level.

* `Command`: what an embedder may do; `Ensemble.Reachable`: the states an environment gets to.
* `Ensemble.Sound`: the arena is regular, every job has its place in a process that runs, and no two
  threads run the same process.
* `Ensemble.Reachable.sound`: **every reachable state is sound**, and wherever a job is to run, code
  may run (`Reachable.starts`).
-/

namespace ScopeStack

open ScopeStack.Action

/-! ## 1. What an embedder does -/

/-- Something an embedder does with the top level between two requests. -/
inductive Command where
  | intern (v : Value)
  | push (v : Value)
  | pop
  | setStack (vs : List Value)
  | drain
  | define (name : String) (v : Value) (strict : Bool)
  | forget (name : String)
  | addOperation (op : Operation)
  | spawn (h : Handle)
  | send (pid : Pid) (v : Value)
  | sendAll (pid : Pid)
  | take (pid : Pid)
  | takeAll (pid : Pid)
  | beginPush (pid : Pid)
  | endPush
  | stop

namespace Command

/-- Do it; what it gives is of no interest here. -/
def perform : Command → Action Unit
  | .intern v => do let _ ← Context.top.internValue v
  | .push v => Context.top.push v
  | .pop => do let _ ← Context.top.pop
  | .setStack vs => Context.top.setStackValues vs
  | .drain => do let _ ← Context.top.drainStack
  | .define name v strict => do
    let cell ← Context.top.internValue v
    Context.top.define name cell strict
  | .forget name => do let _ ← Context.top.forget name
  | .addOperation op => Context.top.addOperation op
  | .spawn h => do let _ ← Context.top.spawn h
  | .send pid v => Context.top.sendTo pid v
  | .sendAll pid => Context.top.sendAllTo pid
  | .take pid => do let _ ← Context.top.takeFrom pid
  | .takeAll pid => Context.top.takeAllFrom pid
  | .beginPush pid => Context.top.beginPush pid
  | .endPush => Context.top.endPush
  | .stop => do let _ ← Context.top.stop

/-- The top level is no block, and no variable is made to say that it is one. -/
def Proper : Command → Prop
  | .define _ v _ => v ≠ .block rootScope
  | _ => True

/-- **What an embedder does changes the arena as code of the top level does.** -/
theorem edited {a₀ : Arena} (hS : Starts a₀ rootScope .top) {x : Command} (hx : x.Proper) :
    Keeps (Edited True (fun _ => False) .top a₀) x.perform fun _ => True := by
  have hend {α : Type} {y : Action α} {good : α → Prop}
      (h : Keeps (Edited True (fun _ => False) .top a₀) y good) :
      Keeps (Edited True (fun _ => False) .top a₀) (y >>= fun _ => (pure () : Action Unit))
        fun _ => True :=
    h.bind fun _ _ => .pure trivial
  have H : Handles (Edited True (fun _ => False) .top a₀) (· ≠ .block rootScope) .top := hS.handles
  have C : Converses (Edited True (fun _ => False) .top a₀) (· ≠ .block rootScope) .top :=
    hS.converses trivial
  have hintern (v : Value) : Keeps (Edited True (fun _ => False) .top a₀) (Context.top.internValue v)
      fun cell => ∀ h, cell = .block h → v = .block h := fun m hm =>
    (Context.internValue_gains (hS.tree hm) .top v).mono (fun _ _ h => ⟨hm.gains h.1, h.2⟩)
      fun _ _ h => hm.gains h
  have hsend (pid : Pid) (v : Value) : Keeps (Edited True (fun _ => False) .top a₀)
      (Context.top.sendTo pid v) fun _ => True := fun m hm =>
    (hS.sendTo hm (Or.inl trivial) .top pid v).mono (fun _ _ h => ⟨h, trivial⟩) fun _ _ h => h
  cases x with
  | intern v => exact hend (hintern v)
  | push v => exact hS.push v
  | pop => exact hend hS.pop
  | setStack vs => exact hS.setStackValues vs
  | drain => exact hend H.drain
  | define name v strict =>
    exact (hintern v).bind fun cell hcell =>
      Starts.define (fun he => hx (hcell rootScope he)) name strict
  | forget name => exact hend (Context.forget_keeps hS.forgetful .top name)
  | addOperation op =>
    intro m hm
    exact ⟨hm.step (.refill (.modify _ rootScope
      (fun s => { s with operations := s.operations.insert op }) (fun _ => rfl)
      fun _ _ hb => Or.inr hb) (Arena.callsOf_modify _ rootScope fun _ => rfl)
      (.of_modify _ rootScope (fun _ => ⟨rfl, rfl⟩) fun hne => absurd rfl hne)) rfl, trivial⟩
  | spawn h => exact hend (hS.spawn trivial h)
  | send pid v => exact hsend pid v
  | sendAll pid => exact C.sendAllTo pid
  | take pid => exact hend (C.takeFrom pid)
  | takeAll pid => exact C.takeAllFrom pid
  | beginPush pid => exact C.beginPush pid
  | endPush => exact Starts.endPush
  | stop => exact hend Starts.stop

theorem outcome_edited {m : Machine} (hS : Starts m.arena rootScope .top) {x : Command}
    (hx : x.Proper) :
    Edited True (fun _ => False) .top m.arena (x.perform.outcome m).2 := by
  rcases (edited hS hx m .refl).outcome with ⟨v, m', ho, hm⟩ | ⟨f, m', ho, hm⟩
  · rw [ho]
    exact hm.1
  · rw [ho]
    exact hm

end Command

/-! ## 2. Running environments -/

/-- The thread has yet to end the process that the scope heads. -/
def Thread.Heads (t : Thread) (p : ScopeId) : Prop := ∃ pid, Job.finish p pid ∈ t.agenda

/-- A machine, the thread of the top level, and those of the spawned processes. -/
structure Ensemble where
  machine : Machine
  main : Thread := { agenda := [] }
  others : List Thread := []

namespace Ensemble

/-- The states that an environment gets to. -/
inductive Reachable : Ensemble → Prop where
  /-- A new environment, with any pair of hash functions. -/
  | start (config : Config) (files : FileSource) (hash : ContentHash) :
      Reachable { machine := { (Environment.freshMachine config files).2 with hash } }
  | command {w : Ensemble} (x : Command) : Reachable w → w.main.isDone → x.Proper →
      Reachable { w with machine := (x.perform.outcome w.machine).2 }
  /-- Something is to be done at the top level, after what was asked for before it has ended. -/
  | request {w : Ensemble} (agenda : List Job) : Reachable w → w.main.isDone →
      (∀ job ∈ agenda, job.In .top) → Reachable { w with main := { agenda } }
  | step {w : Ensemble} {t : Thread} {m : Machine} : Reachable w →
      w.main.step w.machine = some (t, m) → Reachable { w with main := t, machine := m }
  /-- A worker takes up a process. -/
  | begin {w : Ensemble} {p : ScopeId} {s : Scope} (worker : Option WorkerRef) (halt : HaltToken) :
      Reachable w → w.machine.arena.get? p = some s → s.running = true →
      (∀ t ∈ w.others, ¬ t.Heads p) →
      Reachable { w with others := { worker, agenda := Task.agenda ⟨s.pid, p, halt⟩ } :: w.others }
  | other {w : Ensemble} {front back : List Thread} {t t' : Thread} {m : Machine} : Reachable w →
      w.others = front ++ t :: back → t.step w.machine = some (t', m) →
      Reachable { w with others := front ++ t' :: back, machine := m }
  /-- A worker has nothing left to do. -/
  | retire {w : Ensemble} {front back : List Thread} {t : Thread} : Reachable w →
      w.others = front ++ t :: back → t.isDone → Reachable { w with others := front ++ back }
  /-- Time passes, files are looked at, the output is taken away, and workers come and go. -/
  | pass {w : Ensemble} (m : Machine) : Reachable w → m.arena = w.machine.arena →
      m.processes = w.machine.processes → m.hash = w.machine.hash → Reachable { w with machine := m }

end Ensemble

/-! ## 3. Jobs in their places -/

variable {a b : Arena} {p : ScopeId} {c : Context} {m m' : Machine}

/-- Jobs of the process `p`, none of which ends a process. -/
def Jobs.Placed (a : Arena) (p : ScopeId) (jobs : List Job) : Prop :=
  ∀ job ∈ jobs, (∀ c, job.context? = some c → ScopeStack.Placed a p c) ∧
    ∀ s pid, job ≠ .finish s pid

namespace Jobs.Placed

theorem drifts {jobs : List Job} (h : Jobs.Placed a p jobs) (hT : a.Tree) (hD : a.Drifts b)
    (hp : Head a p) : Jobs.Placed b p jobs := fun job hj =>
  ⟨fun c hc => ((h job hj).1 c hc).drifts hT hD hp, (h job hj).2⟩

theorem head {job : Job} {rest : List Job} (h : Jobs.Placed a p (job :: rest)) :
    Jobs.Placed a p [job] := fun x hx =>
  h x (List.mem_singleton.mp hx ▸ List.mem_cons_self)

theorem tail {job : Job} {rest : List Job} (h : Jobs.Placed a p (job :: rest)) :
    Jobs.Placed a p rest := fun x hx => h x (List.mem_cons_of_mem _ hx)

theorem append {jobs rest : List Job} (h : Jobs.Placed a p jobs) (hrest : Jobs.Placed a p rest) :
    Jobs.Placed a p (jobs ++ rest) := fun job hj =>
  (List.mem_append.mp hj).elim (h job) (hrest job)

end Jobs.Placed

/-- Where a process runs, code may run in its scope. -/
theorem Placed.ofProcess (hR : a.Regular) (hp : Head a p) (halt : HaltToken) :
    Placed a p (.ofProcess p halt) where
  process := rfl
  scope_le := by
    obtain ⟨s, hs, -⟩ := hp.get? hR.tree
    exact hR.tree.forest.le_last hs
  linked {s} hs := by
    rcases hp with rfl | ⟨t, ht, hrun⟩
    · exact hR.tree.linked_root
    · exact (hR.running ht hrun).1
  stack_le hσ := absurd hσ List.not_mem_nil
  nodup := .nil
  apart _ hσ := absurd hσ List.not_mem_nil
  bare _ := ⟨rfl, rfl⟩
  base := Or.inr ⟨rfl, fun _ _ => List.not_mem_nil⟩

/-- What a job leaves has its place, where it runs or in a call it has made. -/
theorem Job.Issued.placed {job : Job} {a₀ : Arena} (h : job.Issued a₀ a p c) (hc : Placed a p c) :
    (∀ d, job.context? = some d → Placed a p d) ∧ ∀ s pid, job ≠ .finish s pid := by
  cases h with
  | here h =>
    cases job with
    | leave | finish => exact h.elim
    | _ => exact ⟨fun d hd => h d hd ▸ hc, fun _ _ he => by cases he⟩
  | body _ hplaced => exact ⟨fun d hd => by cases hd; exact hplaced, fun _ _ he => by cases he⟩
  | leave _ _ => exact ⟨fun d hd => by cases hd; exact hc, fun _ _ he => by cases he⟩

/-- A step of a process, other than its last. -/
theorem Jobs.Placed.ran {t t' : Thread} {job : Job} {rest : List Job} (hR : m.arena.Regular)
    (hp : Head m.arena p) (hagenda : t.agenda = job :: rest) (h : Jobs.Placed m.arena p [job])
    (hstep : t.step m = some (t', m')) :
    ∃ c, Starts m.arena p c ∧
      ∃ jobs, t'.agenda = jobs ++ rest ∧
        Ran True job.frees p c (job.delisted m.arena) jobs m' := by
  obtain ⟨hctx, hfin⟩ := h job List.mem_cons_self
  have hc : ∃ c, Starts m.arena p c ∧ ∀ d, job.context? = some d → d = c := by
    cases hjob : job.context? with
    | none => exact ⟨_, ⟨hR, hp, .ofProcess hR hp 0⟩, fun d hd => by cases hd⟩
    | some c => exact ⟨c, ⟨hR, hp, hctx c hjob⟩, fun d hd => (Option.some.inj hd).symm⟩
  obtain ⟨c, hS, hjob⟩ := hc
  exact ⟨c, hS, Thread.step_ran hS hagenda hjob hfin (fun _ _ _ => trivial) hstep⟩

/-- **Such a step** keeps the arena regular and what other processes rely on, and the jobs that come
have their places. -/
theorem Jobs.Placed.step {t t' : Thread} {job : Job} {rest : List Job} (hR : m.arena.Regular)
    (hp : Head m.arena p) (hagenda : t.agenda = job :: rest) (h : Jobs.Placed m.arena p [job])
    (hstep : t.step m = some (t', m')) :
    m'.arena.Regular ∧ m.arena.Drifts m'.arena ∧
      ∃ jobs, t'.agenda = jobs ++ rest ∧ Jobs.Placed m'.arena p jobs := by
  obtain ⟨c, hS, jobs, heq, hm⟩ := h.ran hR hp hagenda hstep
  exact ⟨hS.regular_now hm.since, hS.drifts hm.since, jobs, heq, fun x hx =>
    (hm.issued x hx).placed (hS.placed_now hm.since)⟩

/-- A process ends: where other code runs does not change. -/
theorem Placed.cleared {q : ScopeId} (h : Placed a q c) (p : ScopeId) :
    Placed (a.modify p (·.cleared)) q c := by
  have hA := Crew.alike_cleared a p
  have hget {k : ScopeId} {t : Scope} (ht : (a.modify p (·.cleared)).get? k = some t) :
      ∃ s, a.get? k = some s ∧ t.stack = s.stack := by
    obtain ⟨s, hs, hst⟩ := Arena.get?_modify_cases ht
    refine ⟨s, hs, ?_⟩
    rcases hst with ⟨-, rfl⟩ | ⟨-, rfl⟩ <;> rfl
  refine ⟨h.process, h.scope_le, fun ht => ?_, h.stack_le, h.nodup, fun ht hσ => ?_, h.bare,
    h.base.imp_right fun ⟨hb, hown⟩ => ⟨hb, fun t ht => ?_⟩⟩
  · obtain ⟨s, hs, -⟩ := hget ht
    exact hA.linked_iff.mpr (h.linked hs)
  · obtain ⟨s, hs, hst⟩ := hget ht
    exact h.apart hs (hst ▸ hσ)
  · obtain ⟨s, hs, hst⟩ := hget ht
    rw [hst]
    exact hown s hs

theorem Jobs.Placed.cleared {q : ScopeId} {jobs : List Job} (h : Jobs.Placed a q jobs) (p : ScopeId) :
    Jobs.Placed (a.modify p (·.cleared)) q jobs := fun job hj =>
  ⟨fun c hc => ((h job hj).1 c hc).cleared p, (h job hj).2⟩

/-! ## 4. Threads -/

/-- The thread of a process that runs, up to its end, or one that works for the top level. -/
inductive Thread.Sound (a : Arena) (t : Thread) : Prop where
  | live {p : ScopeId} {pid : Pid} {s : Scope} {jobs : List Job} :
      t.agenda = jobs ++ [.finish p pid] → a.get? p = some s → s.running = true →
      Jobs.Placed a p jobs → Sound a t
  | serving : Jobs.Placed a rootScope t.agenda → Sound a t

namespace Thread

theorem Sound.drifts {t : Thread} (h : t.Sound a) (hT : a.Tree) (hD : a.Drifts b) : t.Sound b := by
  cases h with
  | live heq hs hrun hjobs =>
    obtain ⟨s', hs', hrun', -⟩ := hD.kept hs (Or.inr hrun)
    exact .live heq hs' (hrun'.trans hrun) (hjobs.drifts hT hD (Or.inr ⟨_, hs, hrun⟩))
  | serving h => exact .serving (h.drifts hT hD (Or.inl rfl))

/-- The end of another process. -/
theorem Sound.cleared {t : Thread} (h : t.Sound a) (hp : ¬ t.Heads p) :
    t.Sound (a.modify p (·.cleared)) := by
  cases h with
  | live heq hs hrun hjobs =>
    rename_i q pid s jobs
    have hne : q ≠ p := by
      rintro rfl
      exact hp ⟨pid, by rw [heq]; exact List.mem_append_right _ List.mem_cons_self⟩
    refine .live heq (s := s) ?_ hrun (hjobs.cleared p)
    rw [Arena.get?_modify, if_neg hne]
    exact hs
  | serving h => exact .serving (h.cleared p)

/-- Jobs in their places end no process. -/
theorem not_heads {t : Thread} (h : Jobs.Placed a p t.agenda) (q : ScopeId) : ¬ t.Heads q :=
  fun ⟨pid, hm⟩ => (h _ hm).2 q pid rfl

/-- **The last step of a process.** -/
theorem step_finish {t t' : Thread} {pid : Pid} {rest : List Job}
    (hagenda : t.agenda = .finish p pid :: rest) (hstep : t.step m = some (t', m')) :
    m' = (m.finishProcess p pid).2 ∧ ∃ pools, t'.agenda = Job.closePools pools ++ rest := by
  obtain ⟨-, ⟨-, ⟨jobs, hrun, rfl⟩ | ⟨f, hrun, rfl⟩⟩ | ⟨f, -, rfl, rfl⟩⟩ := step_cases hagenda hstep
  · cases hrun
    exact ⟨rfl, _, rfl⟩
  · cases hrun
  · exact ⟨rfl, _, rfl⟩

/-- **What the step of a thread can be**: the last step of its process, which then has only its pools to
shut down, or a step with a job that has its place. -/
theorem Sound.step_cases {t t' : Thread} (ht : t.Sound m.arena) (hstep : t.step m = some (t', m')) :
    (∃ p pid s, m.arena.get? p = some s ∧ s.running = true ∧ t.agenda = [.finish p pid] ∧
      m' = (m.finishProcess p pid).2 ∧ ∃ pools, t'.agenda = Job.closePools pools) ∨
    ∃ p job rest, Head m.arena p ∧ t.agenda = job :: rest ∧ Jobs.Placed m.arena p [job] := by
  cases ht with
  | live heq hs hrun hjobs =>
    rename_i p pid s jobs
    cases jobs with
    | nil =>
      obtain ⟨rfl, pools, heq'⟩ := step_finish heq hstep
      rw [List.append_nil] at heq'
      exact Or.inl ⟨p, pid, s, hs, hrun, heq, rfl, pools, heq'⟩
    | cons job jobs => exact Or.inr ⟨p, job, _, Or.inr ⟨s, hs, hrun⟩, heq, hjobs.head⟩
  | serving hjobs =>
    obtain ⟨job, rest, hagenda⟩ := agenda_of_step hstep
    rw [hagenda] at hjobs
    exact Or.inr ⟨rootScope, job, rest, Or.inl rfl, hagenda, hjobs.head⟩

end Thread

/-! ## 5. Soundness -/

namespace Ensemble

variable {w : Ensemble}

/-- The arena is regular, every job has its place, and no two threads run the same process. -/
structure Sound (w : Ensemble) : Prop where
  regular : w.machine.arena.Regular
  main : Jobs.Placed w.machine.arena rootScope w.main.agenda
  others : ∀ t ∈ w.others, t.Sound w.machine.arena
  apart : w.others.Pairwise fun t u => ∀ p, t.Heads p → ¬ u.Heads p

theorem Sound.starts_top (h : w.Sound) : Starts w.machine.arena rootScope .top :=
  ⟨h.regular, Or.inl rfl, .ofProcess h.regular (Or.inl rfl) 0⟩

/-- The arena has changed, but nobody is concerned. -/
theorem Sound.drifts (h : w.Sound) {m : Machine} (hR : m.arena.Regular)
    (hD : w.machine.arena.Drifts m.arena) : ({ w with machine := m } : Ensemble).Sound :=
  ⟨hR, h.main.drifts h.regular.tree hD (Or.inl rfl),
    fun t ht => (h.others t ht).drifts h.regular.tree hD, h.apart⟩

/-- One thread is replaced by another that runs the same process at most. -/
theorem pairwise_replace {front back : List Thread} {t t' : Thread}
    (h : (front ++ t :: back).Pairwise fun t u => ∀ p, t.Heads p → ¬ u.Heads p)
    (hheads : ∀ p, t'.Heads p → t.Heads p) :
    (front ++ t' :: back).Pairwise fun t u => ∀ p, t.Heads p → ¬ u.Heads p := by
  rw [List.pairwise_append, List.pairwise_cons] at h ⊢
  obtain ⟨hfront, ⟨ht, hback⟩, hcross⟩ := h
  refine ⟨hfront, ⟨fun u hu p hp => ht u hu p (hheads p hp), hback⟩, fun u hu v hv p hp hq => ?_⟩
  rcases List.mem_cons.mp hv with rfl | hv
  · exact hcross u hu t List.mem_cons_self p hp (hheads p hq)
  · exact hcross u hu v (List.mem_cons_of_mem _ hv) p hp hq

/-- The others run other processes. -/
theorem Sound.not_heads {front back : List Thread} {t u : Thread} (h : w.Sound)
    (hothers : w.others = front ++ t :: back) (hu : u ∈ front ++ back) (hp : t.Heads p) :
    ¬ u.Heads p := by
  have hapart := h.apart
  rw [hothers, List.pairwise_append, List.pairwise_cons] at hapart
  obtain ⟨-, ⟨ht, -⟩, hcross⟩ := hapart
  rcases List.mem_append.mp hu with hu | hu
  · exact fun hq => hcross u hu t List.mem_cons_self p hq hp
  · exact ht u hu p hp

/-- **A process ends.** -/
theorem Sound.finish {front back : List Thread} {t : Thread} {pid : Pid} {s : Scope} (h : w.Sound)
    (hothers : w.others = front ++ t :: back) (hp : t.Heads p)
    (hs : w.machine.arena.get? p = some s) (hrun : s.running = true) :
    ({ w with others := front ++ back, machine := (w.machine.finishProcess p pid).2 } :
      Ensemble).Sound := by
  have hcleared : ({ w with
      others := front ++ back,
      machine := { w.machine with arena := w.machine.arena.modify p (·.cleared) } } :
        Ensemble).Sound := by
    refine ⟨h.regular.cleared p, h.main.cleared p, fun u hu => ?_, ?_⟩
    · refine (h.others u ?_).cleared (h.not_heads hothers hu hp)
      rw [hothers]
      exact ((List.sublist_cons_self t back).append_left front).subset hu
    · have hapart := h.apart
      rw [hothers] at hapart
      exact hapart.sublist ((List.sublist_cons_self t back).append_left front)
  obtain ⟨b, hfin, hb⟩ := Crew.finishProcess_eq pid hs
  rw [hfin]
  rcases hb with rfl | ⟨pools, hunref, hd⟩
  · exact hcleared.drifts hcleared.regular (.refl _)
  · have hT := hcleared.regular.tree
    have hne : p ≠ rootScope := (h.regular.running hs hrun).2.2
    have hP := Arena.discard_pruned hT.forest hd
    refine hcleared.drifts (hcleared.regular.pruned hP hne) (Arena.Regular.drifts_pruned hT.forest hP
      (Arena.unreferenced_of_eq_false hT.forest hunref) fun hm => hne ?_)
    rw [hT.chain_root] at hm
    exact List.mem_singleton.mp hm

/-- A thread comes whose process no other one runs. -/
theorem Sound.add {front back : List Thread} {t main : Thread} {m : Machine}
    (h : Ensemble.Sound ⟨m, main, front ++ back⟩) (ht : t.Sound m.arena)
    (hheads : ∀ p, ¬ t.Heads p) : Ensemble.Sound ⟨m, main, front ++ t :: back⟩ := by
  refine ⟨h.regular, h.main, fun u hu => ?_, ?_⟩
  · rcases List.mem_append.mp hu with hu | hu
    · exact h.others u (List.mem_append_left _ hu)
    · rcases List.mem_cons.mp hu with rfl | hu
      · exact ht
      · exact h.others u (List.mem_append_right _ hu)
  · have hapart := List.pairwise_append.mp h.apart
    refine List.pairwise_append.mpr ⟨hapart.1, List.pairwise_cons.mpr ⟨fun u _ p hp => ?_, hapart.2.1⟩,
      fun u hu v hv p hp hq => ?_⟩
    · exact absurd hp (hheads p)
    · rcases List.mem_cons.mp hv with rfl | hv
      · exact hheads p hq
      · exact hapart.2.2 u hu v hv p hp hq

/-- **A step of a spawned process.** -/
theorem Sound.other {front back : List Thread} {t t' : Thread} {m : Machine} (h : w.Sound)
    (hothers : w.others = front ++ t :: back) (hstep : t.step w.machine = some (t', m)) :
    ({ w with others := front ++ t' :: back, machine := m } : Ensemble).Sound := by
  have hR := h.regular
  have hmem : t ∈ w.others := by
    rw [hothers]
    exact List.mem_append_right _ List.mem_cons_self
  -- a step other than the last one of a process
  have hgo {p : ScopeId} {job : Job} {rest : List Job} (hp : Head w.machine.arena p)
      (hagenda : t.agenda = job :: rest) (hjob : Jobs.Placed w.machine.arena p [job])
      (hnext : ∀ jobs, t'.agenda = jobs ++ rest → w.machine.arena.Drifts m.arena →
        Jobs.Placed m.arena p jobs → t'.Sound m.arena) :
      ({ w with others := front ++ t' :: back, machine := m } : Ensemble).Sound := by
    obtain ⟨hR', hD, jobs, heq, hjobs⟩ := hjob.step hR hp hagenda hstep
    have hall := h.drifts hR' hD
    refine ⟨hR', hall.main, fun u hu => ?_, pairwise_replace (hothers ▸ h.apart) fun q hq => ?_⟩
    · rcases List.mem_append.mp hu with hu | hu
      · exact hall.others u (by rw [hothers]; exact List.mem_append_left _ hu)
      · rcases List.mem_cons.mp hu with rfl | hu
        · exact hnext jobs heq hD hjobs
        · refine hall.others u ?_
          rw [hothers]
          exact List.mem_append_right _ (List.mem_cons_of_mem _ hu)
    · obtain ⟨pid, hm⟩ := hq
      rw [heq] at hm
      refine ⟨pid, ?_⟩
      rw [hagenda]
      refine List.mem_cons_of_mem _ ((List.mem_append.mp hm).resolve_left fun hm => ?_)
      exact (hjobs _ hm).2 q pid rfl
  cases h.others t hmem with
  | live heq hs hrun hjobs =>
    rename_i p pid s jobs
    cases jobs with
    | nil =>
      obtain ⟨rfl, pools, heq'⟩ := Thread.step_finish heq hstep
      have hheads : t.Heads p := ⟨pid, by rw [heq]; exact List.mem_cons_self⟩
      have hplaced (q : ScopeId) (a : Arena) : Jobs.Placed a q t'.agenda := by
        rw [heq', List.append_nil]
        intro job hj
        obtain ⟨id, -, rfl⟩ := List.mem_map.mp hj
        exact ⟨fun c hc => (by cases hc), fun _ _ he => by cases he⟩
      exact (h.finish hothers hheads hs hrun).add (.serving (hplaced _ _)) fun q =>
        Thread.not_heads (hplaced q w.machine.arena) q
    | cons job jobs =>
      have hhead : Head w.machine.arena p := Or.inr ⟨s, hs, hrun⟩
      refine hgo hhead heq hjobs.head fun new heq' hD hnew => ?_
      obtain ⟨s', hs', hrun', -⟩ := hD.kept hs (Or.inr hrun)
      exact .live (heq'.trans (List.append_assoc new jobs _).symm) hs' (hrun'.trans hrun)
        (hnew.append (hjobs.tail.drifts hR.tree hD hhead))
  | serving hjobs =>
    obtain ⟨job, rest, hagenda⟩ := Thread.agenda_of_step hstep
    rw [hagenda] at hjobs
    refine hgo (Or.inl rfl) hagenda hjobs.head fun new heq' hD hnew => .serving ?_
    rw [heq']
    exact hnew.append (hjobs.tail.drifts hR.tree hD (Or.inl rfl))

/-- **A step of the top level.** -/
theorem Sound.step {t : Thread} {m : Machine} (h : w.Sound)
    (hstep : w.main.step w.machine = some (t, m)) :
    ({ w with main := t, machine := m } : Ensemble).Sound := by
  obtain ⟨job, rest, hagenda⟩ := Thread.agenda_of_step hstep
  have hmain := h.main
  rw [hagenda] at hmain
  obtain ⟨hR', hD, jobs, heq, hjobs⟩ := hmain.head.step h.regular (Or.inl rfl) hagenda hstep
  have hall := h.drifts hR' hD
  refine ⟨hR', ?_, hall.others, hall.apart⟩
  show Jobs.Placed m.arena rootScope t.agenda
  rw [heq]
  exact hjobs.append (hmain.tail.drifts h.regular.tree hD (Or.inl rfl))

/-- A worker takes up a process. -/
theorem Sound.begin {p : ScopeId} {s : Scope} (h : w.Sound) (worker : Option WorkerRef)
    (halt : HaltToken) (hs : w.machine.arena.get? p = some s) (hrun : s.running = true)
    (hnew : ∀ t ∈ w.others, ¬ t.Heads p) :
    ({ w with others := { worker, agenda := Task.agenda ⟨s.pid, p, halt⟩ } :: w.others } :
      Ensemble).Sound := by
  have hp : Head w.machine.arena p := Or.inr ⟨s, hs, hrun⟩
  refine ⟨h.regular, h.main, fun t ht => ?_, List.pairwise_cons.mpr ⟨fun u hu q hq => ?_, h.apart⟩⟩
  · rcases List.mem_cons.mp ht with rfl | ht
    · have hagenda : Task.agenda ⟨s.pid, p, halt⟩ =
          [.body (.ofProcess p halt), .report s.pid] ++ [.finish p s.pid] := rfl
      refine .live hagenda hs hrun fun job hj => ?_
      rcases List.mem_cons.mp hj with rfl | hj
      · exact ⟨fun c hc => by cases hc; exact .ofProcess h.regular hp halt,
          fun _ _ he => by cases he⟩
      · cases List.mem_singleton.mp hj
        exact ⟨fun c hc => (by cases hc), fun _ _ he => by cases he⟩
    · exact h.others t ht
  · obtain ⟨pid, hm⟩ := hq
    have hfin : Job.finish q pid = .finish p s.pid := by
      rcases List.mem_cons.mp hm with he | hm
      · cases he
      · rcases List.mem_cons.mp hm with he | hm
        · cases he
        · exact List.mem_singleton.mp hm
    cases hfin
    exact hnew u hu

/-- A worker has nothing left to do. -/
theorem Sound.retire {front back : List Thread} {t : Thread} (h : w.Sound)
    (hothers : w.others = front ++ t :: back) :
    ({ w with others := front ++ back } : Ensemble).Sound := by
  have hsub : (front ++ back).Sublist w.others := by
    rw [hothers]
    exact (List.sublist_cons_self t back).append_left front
  exact ⟨h.regular, h.main, fun u hu => h.others u (hsub.subset hu), h.apart.sublist hsub⟩

/-- A new environment is regular. -/
theorem fresh_regular (config : Config) (files : FileSource) (hash : ContentHash) :
    ({ (Environment.freshMachine config files).2 with hash } : Machine).arena.Regular := by
  have h := Environment.fresh_steady config files False False
  have hof {k : ScopeId} {s : Scope}
      (hs : (Environment.freshMachine config files).2.arena.get? k = some s) :=
    Environment.of_get?_fresh hs
  refine ⟨h.tree, fun _ _ _ hs hm => h.bound hs hm, fun hs => ?_, fun hs ht _ => ?_,
    fun hs hrun => ?_, fun hs => ?_, fun hs _ hk => ?_, fun hs hk => ?_⟩
  · rw [(hof hs).2]
    exact Nat.le_refl 1
  · exact (hof hs).1.trans (hof ht).1.symm
  · rw [(hof hs).2] at hrun
    cases hrun
  · rw [(hof hs).2]
    exact .nil
  · rw [(hof hs).2] at hk
    cases hk
  · rw [(hof hs).2] at hk
    cases hk

/-- **However processes take turns, the environment is sound.** -/
theorem Reachable.sound (h : w.Reachable) : w.Sound := by
  induction h with
  | start config files hash =>
    exact ⟨fresh_regular config files hash, fun _ h => (by cases h), fun _ h => (by cases h), .nil⟩
  | command x _ _ hx ih =>
    rename_i w _ _
    have hm := Command.outcome_edited ih.starts_top hx
    exact ih.drifts (ih.starts_top.regular_now hm) (ih.starts_top.drifts hm)
  | request agenda _ _ hjobs ih =>
    rename_i w _ _
    have htop : Placed w.machine.arena rootScope .top := .ofProcess ih.regular (Or.inl rfl) 0
    refine ⟨ih.regular, fun job hj => ?_, ih.others, ih.apart⟩
    have hissued : job.Issued w.machine.arena w.machine.arena rootScope .top := .here (hjobs job hj)
    exact hissued.placed htop
  | step _ hstep ih => exact ih.step hstep
  | begin worker halt _ hs hrun hnew ih => exact ih.begin worker halt hs hrun hnew
  | other _ hothers hstep ih => exact ih.other hothers hstep
  | retire _ hothers _ ih => exact ih.retire hothers
  | pass m _ harena _ _ ih => exact ih.drifts (harena ▸ ih.regular) (harena ▸ .refl _)

/-- The context in which a job of some thread is to run, or that of the top level. -/
def Hosts (w : Ensemble) (c : Context) : Prop :=
  c = .top ∨ ∃ t ∈ w.main :: w.others, ∃ job ∈ t.agenda, job.context? = some c

/-- **Where a job is to run, code may run.** -/
theorem Reachable.starts (h : w.Reachable) (hc : w.Hosts c) :
    Starts w.machine.arena c.process c := by
  have hR := h.sound.regular
  have hplaced {p : ScopeId} (hp : Head w.machine.arena p) (hc : Placed w.machine.arena p c) :
      Starts w.machine.arena c.process c := by
    rw [hc.process]
    exact ⟨hR, hp, hc⟩
  rcases hc with rfl | ⟨t, ht, job, hj, hctx⟩
  · exact hplaced (Or.inl rfl) (.ofProcess hR (Or.inl rfl) 0)
  rcases List.mem_cons.mp ht with rfl | ht
  · exact hplaced (Or.inl rfl) ((h.sound.main job hj).1 c hctx)
  cases h.sound.others t ht with
  | live heq hs hrun hjobs =>
    rw [heq] at hj
    rcases List.mem_append.mp hj with hj | hj
    · exact hplaced (Or.inr ⟨_, hs, hrun⟩) ((hjobs job hj).1 c hctx)
    · cases List.mem_singleton.mp hj
      cases hctx
  | serving hjobs => exact hplaced (Or.inl rfl) ((hjobs job hj).1 c hctx)

end Ensemble

end ScopeStack
