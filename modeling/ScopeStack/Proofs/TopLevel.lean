import ScopeStack.Proofs.Homes

/-!
# What blocks leave to the top level

Code in a block may write the variables of the top level, but it gives the top level no new ones, and no
operations; nor does the code of other processes. And only processes that run have a pool, so letting go
of a block shuts none down.

* `Arena.Names`: the top level has no new names. `Agenda.Inner`: jobs that run in blocks.
  `Thread.step_inner`: **such a job gives the top level no new names**, and leaves such jobs.
* `Ensemble.Reachable.others_inner`: all jobs of other processes are such jobs. `Ensemble.CallRun.names`:
  **no run of a block gives the top level a new name.**
* `Arena.Equipped`: only what runs has a pool. `Ensemble.Reachable.equipped`: so it is in every state;
  `Ensemble.Reachable.discard_top`: **at the top level letting go of a block does not fail and shuts no
  pool down.**
-/

namespace ScopeStack

open ScopeStack.Action

variable {p : ScopeId} {c : Context} {m m' : Machine} {rest : List Job} {a b d : Arena}

/-! ## 1. Names -/

namespace Arena

/-- The top level has the operations it had, and no new variables. -/
def Names (a b : Arena) : Prop :=
  ∀ r, a.get? rootScope = some r → ∃ t, b.get? rootScope = some t ∧ t.operations = r.operations ∧
    ∀ name, t.binds name = true → r.binds name = true

namespace Names

theorem of_get? (h : b.get? rootScope = a.get? rootScope) : a.Names b := fun r hr =>
  ⟨r, h.trans hr, rfl, fun _ hb => hb⟩

theorem trans (hab : a.Names b) (hbd : b.Names d) : a.Names d := fun r hr => by
  obtain ⟨t, ht, hops, hbinds⟩ := hab r hr
  obtain ⟨u, hu, hops', hbinds'⟩ := hbd t ht
  exact ⟨u, hu, hops'.trans hops, fun name hb => hbinds name (hbinds' name hb)⟩

theorem of_discreet (hc : c.scope ≠ rootScope) (hT : b.Tree) (h : a.Discreet c b) : a.Names b :=
  fun r hr => by
    obtain ⟨t, ht, -⟩ := hT.root
    exact ⟨t, ht, h.names hc hr ht⟩

/-- Scopes change, but not their variables and operations. -/
theorem modify (a : Arena) (id : ScopeId) {f : Scope → Scope}
    (hf : ∀ s, (f s).operations = s.operations ∧ (f s).bindings = s.bindings) :
    a.Names (a.modify id f) := fun r hr => by
  rw [get?_modify]
  split
  · rename_i hid
    rw [← hid, hr]
    exact ⟨_, rfl, (hf r).1, fun name hb => by rwa [Scope.binds, (hf r).2] at hb⟩
  · exact ⟨r, hr, rfl, fun _ hb => hb⟩

theorem grows (hG : a.Grows b) : a.Names b := fun r hr => by
  obtain ⟨t, ht, hts, -⟩ := hG.get? hr
  rw [hts] at ht
  exact ⟨_, ht, rfl, fun _ hb => hb⟩

theorem pruned (hT : a.Tree) {top : ScopeId} (hne : top ≠ rootScope) (hP : a.Pruned top b) :
    a.Names b := fun r hr => by
  obtain ⟨cs, hcs, -⟩ := hP.kept hr fun hmem => hne (by
    rw [hT.chain_root] at hmem
    exact List.mem_singleton.mp hmem)
  exact ⟨_, hcs, rfl, fun _ hb => hb⟩

end Names

end Arena

/-- The top level has no new names since `a₀`. -/
def Naming (a₀ : Arena) (m : Machine) : Prop := m.arena.Tree ∧ a₀.Names m.arena

namespace Naming

variable {a₀ : Arena}

theorem start (hT : m.arena.Tree) : Naming m.arena m := ⟨hT, .of_get? rfl⟩

theorem gains (h : Naming a₀ m) (hg : Gains m m') : Naming a₀ m' :=
  ⟨hg.grows.still.tree h.1, h.2.trans (.grows hg.grows)⟩

/-- Stacks change. -/
theorem still (h : Naming a₀ m) (hS : m.arena.Still m'.arena)
    (hget : m'.arena.get? rootScope = m.arena.get? rootScope) : Naming a₀ m' :=
  ⟨hS.tree h.1, h.2.trans (.of_get? hget)⟩

theorem modifyStack (σ : StackId) (f : CellStack → CellStack) :
    Keeps (Naming a₀) (modifyArena (·.modifyStack σ f)) fun _ => True := fun _ hm =>
  ⟨hm.still (.modifyStack ..) rfl, trivial⟩

theorem setCalls (block : ScopeId) (g : List StackId → List StackId) :
    Keeps (Naming a₀) (modifyScope block fun s => { s with calls := g s.calls }) fun _ => True :=
  fun m hm => ⟨⟨(Arena.Refills.setCalls m.arena block g).alike.tree hm.1,
    hm.2.trans (.modify m.arena block fun _ => ⟨rfl, rfl⟩)⟩, trivial⟩

theorem pushLocal (c : Context) (v : Value) : Keeps (Naming a₀) (c.pushLocal v) fun _ => True := by
  have hintern : Keeps (Naming a₀) (c.internValue v) fun _ => True := fun m hm =>
    (Context.internValue_gains hm.1 c v).mono (fun _ _ h => ⟨hm.gains h.1, trivial⟩)
      fun _ _ h => hm.gains h
  exact hintern.bind fun _ _ => (ownStack_reads c).bind fun σ _ => modifyStack σ _

theorem push (c : Context) (v : Value) : Keeps (Naming a₀) (c.push v) fun _ => True := by
  refine (pushTarget_reads c).bind fun target _ => ?_
  cases target with
  | some pid => exact (ofPid_reads c pid).bind fun _ _ => pushLocal _ v
  | none => exact pushLocal c v

theorem dropCallStack (call : Call) : Keeps (Naming a₀) (dropCallStack call) fun _ => True := by
  unfold ScopeStack.dropCallStack
  split
  · exact .pure trivial
  · exact fun m hm => ⟨hm.still ⟨fun _ => rfl, rfl, rfl, Nat.le_refl _⟩ rfl, trivial⟩

/-- The beginning of a call. -/
theorem callBlock (c : Context) (h : Handle) : Keeps (Naming a₀) (c.callBlock h) fun _ => True := by
  have hshared : Keeps (Naming a₀) c.sharedStacks fun _ => True := by
    unfold Context.sharedStacks
    split
    · exact .pure trivial
    · exact (getScope_reads _).bind fun _ _ => .pure trivial
  have hprepare : Keeps (Naming a₀) (c.prepareCall h) fun _ => True := by
    refine (inArena_reads _).bind fun block _ => (getScope_reads block).bind fun s _ => ?_
    dsimp only
    split
    · exact .fail _
    split
    · exact hshared.bind fun _ _ => .pure trivial
    · exact fun m hm => ⟨hm.still (.newStack _) rfl, trivial⟩
  unfold Context.callBlock Context.beginCall
  rw [bind_assoc]
  refine hprepare.bind fun r _ => ?_
  unfold Context.enterCall
  rw [bind_assoc, bind_assoc]
  refine (getScope_reads _).bind fun _ _ => ?_
  exact (setCalls r.2.block fun calls => r.2.stack :: calls).bind fun _ _ => .pure trivial

/-- The end of a call. -/
theorem leave (c callee : Context) (call : Call) :
    Keeps (Naming a₀) (Job.leave c callee call).start fun _ => True := by
  have hback : Keeps (Naming a₀) (c.handBack callee call) fun _ => True := by
    unfold Context.handBack
    split
    · refine Keeps.get_bind fun m _ => ?_
      split
      · exact .pure trivial
      · exact (modifyStack call.stack _).bind fun _ _ =>
          (resolveCell_reads callee _).bind fun v _ => push c v
    · exact .pure trivial
  exact (setCalls call.block fun calls => calls.erase call.stack).bind fun _ _ =>
    hback.bind fun _ _ => (dropCallStack call).bind fun _ _ => .pure trivial

/-- So does the end of a call after a failure. -/
theorem settle_leave (hm : Naming a₀ m) (c callee : Context) (call : Call) (f : Failure) :
    Naming a₀ (((Job.leave c callee call).settle f).run m).2 := by
  have hend : Keeps (Naming a₀) (do Context.endCall call; ScopeStack.dropCallStack call : Action Unit)
      fun _ => True :=
    (setCalls call.block fun calls => calls.erase call.stack).bind fun _ _ => dropCallStack call
  refine ((hend m hm).mono (fun _ _ h => h.1) fun _ _ h => h).settled (R := fun _ => Naming a₀)
    (g := fun _ => (.error f, [])) (e := fun _ => (.error f, [])) (fun _ _ ho => ?_) fun _ _ ho => ?_
  all_goals exact congrArg (fun r => ((Except.error f, ([] : List Job)), r.2)) ho

/-- However a call ends, the top level gets no new names. -/
theorem step_leave {t t' : Thread} {callee : Context} {call : Call} (hT : m.arena.Tree)
    (hagenda : t.agenda = .leave c callee call :: rest) (hstep : t.step m = some (t', m')) :
    m.arena.Names m'.arena := by
  obtain ⟨-, ⟨-, ⟨jobs, hrun, -⟩ | ⟨f, hrun, -⟩⟩ | ⟨f, -, rfl, -⟩⟩ := Thread.step_cases hagenda hstep
  · exact ((leave c callee call m (start hT)).of_ok hrun).1.2
  · exact ((leave c callee call m (start hT)).of_error hrun).2
  · exact (settle_leave (start hT) c callee call f).2

end Naming

/-! ## 2. Jobs in blocks -/

/-- All these jobs that run in a scope run in a block. -/
def Agenda.Inner (jobs : List Job) : Prop :=
  ∀ job ∈ jobs, ∀ c, job.context? = some c → c.scope ≠ rootScope

theorem Agenda.Inner.append {jobs more : List Job} (h : Inner jobs) (hmore : Inner more) :
    Inner (jobs ++ more) := fun job hj =>
  (List.mem_append.mp hj).elim (h job) (hmore job)

theorem Agenda.Inner.of_none {jobs : List Job} (h : ∀ job ∈ jobs, job.context? = none) : Inner jobs :=
  fun job hj c hc => by
    rw [h job hj] at hc
    cases hc

theorem Agenda.inner_closePools (pools : List PoolId) : Inner (Job.closePools pools) :=
  .of_none fun job hj => by
    obtain ⟨id, -, rfl⟩ := List.mem_map.mp hj
    rfl

/-- What code in a block leaves to be done is to be done in blocks. -/
theorem Job.Nests.inner {jobs : List Job} (h : Job.Nests c jobs) (hc : c.scope ≠ rootScope) :
    Agenda.Inner jobs := by
  induction h with
  | nil => exact fun _ hj => absurd hj List.not_mem_nil
  | here hjob _ ih =>
    rename_i job jobs _
    refine List.forall_mem_cons.mpr ⟨fun d hd => ?_, ih⟩
    cases job with
    | leave | finish => exact hjob.elim
    | _ => exact hjob d hd ▸ hc
  | call _ hinner _ ih =>
    refine List.forall_mem_cons.mpr ⟨fun d hd => ?_, List.forall_mem_cons.mpr ⟨fun d hd => ?_, ih⟩⟩
    · cases hd
      exact hinner
    · cases hd
      exact hc

/-- A job that runs in no scope leaves the arena as it is, and leaves such jobs. -/
theorem Job.start_outside {job : Job} (hctx : job.context? = none) (hfin : ∀ s pid, job ≠ .finish s pid) :
    job.start.Ends m (fun jobs m' => m'.arena = m.arena ∧ ∀ x ∈ jobs, x.context? = none)
      fun _ m' => m'.arena = m.arena := by
  have hnone : ∀ x ∈ ([] : List Job), x.context? = none := fun _ hx => absurd hx List.not_mem_nil
  cases job with
  | stamp | awaitWorkers | report | awaitProcesses => exact ⟨rfl, hnone⟩
  | raise => exact rfl
  | closePool id =>
    refine ⟨Starts.arena_closePool m id, fun x hx => ?_⟩
    cases List.mem_singleton.mp hx
    rfl
  | finish s pid => exact absurd rfl (hfin s pid)
  | _ => cases hctx

theorem Job.settle_outside {job : Job} (hctx : job.context? = none)
    (hfin : ∀ s pid, job ≠ .finish s pid) (f : Failure) :
    ((job.settle f).run m).2.arena = m.arena ∧
      ∀ x ∈ ((job.settle f).run m).1.2, x.context? = none := by
  have hnone : ∀ x ∈ ([] : List Job), x.context? = none := fun _ hx => absurd hx List.not_mem_nil
  cases job with
  | stamp | awaitWorkers | awaitProcesses | raise => exact ⟨rfl, hnone⟩
  | report pid =>
    simp only [settle]
    split
    · exact ⟨rfl, hnone⟩
    · exact ⟨rfl, hnone⟩
  | closePool id =>
    refine ⟨Starts.arena_closePool m id, fun x hx => ?_⟩
    cases List.mem_singleton.mp hx
    rfl
  | finish s pid => exact absurd rfl (hfin s pid)
  | _ => cases hctx

/-- **A step with a job in a block** gives the top level no new names, and what it leaves to be done is to
be done in blocks. -/
theorem Thread.step_inner {t t' : Thread} {job : Job} (hR : m.arena.Regular) (hp : Head m.arena p)
    (hagenda : t.agenda = job :: rest) (hjob : Jobs.Placed m.arena p [job])
    (hinner : Agenda.Inner [job]) (hstep : t.step m = some (t', m')) :
    m.arena.Names m'.arena ∧ ∃ jobs, t'.agenda = jobs ++ rest ∧ Agenda.Inner jobs := by
  obtain ⟨hctx, hfin⟩ := hjob job List.mem_cons_self
  cases hc : job.context? with
  | none =>
    obtain ⟨-, ⟨-, ⟨jobs, hrun, rfl⟩ | ⟨f, hrun, rfl⟩⟩ | ⟨f, -, rfl, rfl⟩⟩ := step_cases hagenda hstep
    · obtain ⟨harena, hnone⟩ := (Job.start_outside (m := m) hc hfin).of_ok hrun
      exact ⟨.of_get? (by rw [harena]), jobs, rfl, .of_none hnone⟩
    · have harena := (Job.start_outside (m := m) hc hfin).of_error hrun
      exact ⟨.of_get? (by rw [harena]), [], rfl, .of_none fun _ hx => absurd hx List.not_mem_nil⟩
    · obtain ⟨harena, hnone⟩ := Job.settle_outside (m := m) hc hfin f
      exact ⟨.of_get? (by rw [harena]), _, rfl, .of_none hnone⟩
  | some c =>
    have hS : Starts m.arena p c := ⟨hR, hp, hctx c hc⟩
    have hscope := hinner job List.mem_cons_self c hc
    obtain ⟨jobs, heq, hran⟩ := step_ran hS hagenda
      (fun d hd => Option.some.inj (hd.symm.trans hc)) hfin (fun _ _ _ => trivial) hstep
    have hedits := hran.since
    exact ⟨.of_discreet hscope (hS.tree hedits) (hedits.discreet hR hp hS.placed), jobs, heq,
      hran.nests.inner hscope⟩

/-- The end of a process does not concern the names of the top level. -/
theorem Arena.Names.finishProcess (hR : m.arena.Regular) {scope : ScopeId} {s : Scope}
    (hs : m.arena.get? scope = some s) (hne : scope ≠ rootScope) (pid : Pid) :
    m.arena.Names (m.finishProcess scope pid).2.arena := by
  have hcleared : m.arena.Names (m.arena.modify scope (·.cleared)) :=
    .modify m.arena scope fun _ => ⟨rfl, rfl⟩
  have hT := (hR.cleared scope).tree
  obtain ⟨b, hfin, rfl | ⟨pools, -, hd⟩⟩ := Crew.finishProcess_eq pid hs
  · rw [hfin]
    exact hcleared
  · rw [hfin]
    exact hcleared.trans (.pruned hT hne (Arena.discard_pruned hT.forest hd))

/-- **A step of another process** gives the top level no new names, if its jobs are to be done in blocks;
and those that it leaves are as well. -/
theorem Thread.Sound.step_inner {t t' : Thread} (ht : t.Sound m.arena) (hR : m.arena.Regular)
    (hinner : Agenda.Inner t.agenda) (hstep : t.step m = some (t', m')) :
    m.arena.Names m'.arena ∧ Agenda.Inner t'.agenda := by
  obtain ⟨p, pid, s, hs, hrun, -, rfl, pools, heq'⟩ | ⟨p, job, rest, hp, hagenda, hjob⟩ :=
    ht.step_cases hstep
  · rw [heq']
    exact ⟨.finishProcess hR hs (hR.running hs hrun).2.2 pid, Agenda.inner_closePools pools⟩
  · rw [hagenda] at hinner
    obtain ⟨hfirst, hrest⟩ := List.forall_mem_cons.mp hinner
    obtain ⟨hnames, jobs, heq, hjobs⟩ :=
      Thread.step_inner hR hp hagenda hjob (List.forall_mem_singleton.mpr hfirst) hstep
    rw [heq]
    exact ⟨hnames, hjobs.append hrest⟩

/-! ## 3. Runs of a block -/

namespace Ensemble

variable {w w₀ w' : Ensemble}

/-- **The jobs of spawned processes run in blocks.** -/
theorem Reachable.others_inner (h : w.Reachable) : ∀ t ∈ w.others, Agenda.Inner t.agenda := by
  induction h with
  | start => exact fun _ ht => absurd ht List.not_mem_nil
  | command _ _ _ _ ih | request _ _ _ _ ih | step _ _ ih | pass _ _ _ _ _ ih => exact ih
  | begin worker halt hw hs hrun _ ih =>
    refine List.forall_mem_cons.mpr ⟨fun job hj c hc => ?_, ih⟩
    have hne := (hw.sound.regular.running hs hrun).2.2
    simp only [Task.agenda, List.mem_cons, List.not_mem_nil, or_false] at hj
    rcases hj with rfl | rfl | rfl
    · cases hc
      exact hne
    · cases hc
    · cases hc
  | other hw hothers hstep ih =>
    rename_i w front back t t' m
    have ht : t ∈ w.others := hothers ▸ List.mem_append_right _ List.mem_cons_self
    intro u hu
    rcases List.mem_append.mp hu with hu | hu
    · exact ih u (hothers ▸ List.mem_append_left _ hu)
    · rcases List.mem_cons.mp hu with rfl | hu
      · exact ((hw.sound.others t ht).step_inner hw.sound.regular (ih t ht) hstep).2
      · exact ih u (hothers ▸ List.mem_append_right _ (List.mem_cons_of_mem _ hu))
  | retire _ hothers _ ih =>
    exact fun u hu => ih u (hothers ▸ ((List.sublist_cons_self _ _).append_left _).subset hu)

theorem Turn.reachable (h : w.Turn w') (hw : w.Reachable) : w'.Reachable := by
  cases h with
  | step hstep => exact hw.step hstep
  | begin worker halt hs hrun hnew => exact hw.begin worker halt hs hrun hnew
  | other hothers hstep => exact hw.other hothers hstep
  | retire hothers hdone => exact hw.retire hothers hdone
  | pass m harena hprocesses hhash => exact hw.pass m harena hprocesses hhash

/-- A turn in which the top level does not get on, or gets on with a job in a block. -/
theorem Turn.names (h : w.Turn w') (hw : w.Reachable)
    (hmain : ∀ t m, w.main.step w.machine = some (t, m) → w.machine.arena.Names m.arena) :
    w.machine.arena.Names w'.machine.arena := by
  cases h with
  | step hstep => exact hmain _ _ hstep
  | begin | retire => exact .of_get? rfl
  | other hothers hstep =>
    rename_i front back t t' m
    have ht : t ∈ w.others := hothers ▸ List.mem_append_right _ List.mem_cons_self
    exact ((hw.sound.others t ht).step_inner hw.sound.regular (hw.others_inner t ht) hstep).1
  | pass m harena _ _ => exact .of_get? (by rw [harena])

/-- How far a run has got of a block that the top level calls: what is to be done before the call ends is
to be done in blocks. -/
def WithinCall (w₀ w : Ensemble) : Prop :=
  w.main.agenda = w₀.main.agenda ∨ ∃ front callee call,
    w.main.agenda = front ++ .leave .top callee call :: w₀.main.agenda ∧ Agenda.Inner front

theorem WithinCall.over {w₀ w : Ensemble} (h : WithinCall w₀ w)
    (hlength : w.main.agenda.length = w₀.main.agenda.length) : w.main.agenda = w₀.main.agenda := by
  refine h.resolve_right fun ⟨front, callee, call, hagenda, _⟩ => ?_
  rw [hagenda, List.length_append, List.length_cons] at hlength
  omega

/-- **A run of a block that the top level calls gives the top level no new names.** -/
theorem CallRun.names {h : Handle} (hw : (w₀.calling .top h).Reachable) (hrun : CallRun w₀ .top h w) :
    w.Reachable ∧ w₀.machine.arena.Names w.machine.arena ∧ WithinCall w₀ w := by
  induction hrun with
  | call hstep =>
    have hS : Starts w₀.machine.arena rootScope .top := hw.sound.starts_top
    have hnaming := Naming.callBlock .top h w₀.machine (.start hS.regular.tree)
    refine ⟨hw.step hstep, ?_⟩
    obtain ⟨-, ⟨-, ⟨jobs, hok, rfl⟩ | ⟨f, hfailed, rfl⟩⟩ | ⟨f, hstatus, -⟩⟩ := Thread.step_cases rfl hstep
    · have hedited : Edited True (fun _ => False) .top w₀.machine.arena w₀.machine := .refl
      obtain ⟨-, callee, call, rfl, hcallee, -⟩ := (hS.callBlock hedited h).of_ok hok
      refine ⟨(hnaming.of_ok hok).1.2, Or.inr ⟨[.body callee], callee, call, rfl, ?_⟩⟩
      refine List.forall_mem_singleton.mpr fun d hd => ?_
      cases hd
      exact hcallee.inner
    · exact ⟨(hnaming.of_error hfailed).2, Or.inl rfl⟩
    · cases hstatus
  | turn _ hbusy hturn ih =>
    obtain ⟨hreach, hnames, hin⟩ := ih
    rename_i w w' _
    obtain ⟨front, callee, call, hagenda, hinner⟩ := hin.resolve_left hbusy
    have hR := hreach.sound.regular
    have hstep (t : Thread) (m : Machine) (hstep : w.main.step w.machine = some (t, m)) :
        w.machine.arena.Names m.arena ∧ WithinCall w₀ { w with main := t, machine := m } := by
      cases front with
      | nil =>
        exact ⟨Naming.step_leave hR.tree hagenda hstep, Or.inl (Thread.step_leave hagenda hstep)⟩
      | cons job front =>
        obtain ⟨hfirst, hfront⟩ := List.forall_mem_cons.mp hinner
        have hplaced := hreach.sound.main
        rw [hagenda] at hplaced
        obtain ⟨hnames, jobs, heq, hjobs⟩ := Thread.step_inner hR (Or.inl rfl) hagenda
          (Jobs.Placed.head hplaced) (List.forall_mem_singleton.mpr hfirst) hstep
        exact ⟨hnames, Or.inr ⟨jobs ++ front, callee, call,
          heq.trans (List.append_assoc ..).symm, hjobs.append hfront⟩⟩
    refine ⟨hturn.reachable hreach, hnames.trans (hturn.names hreach fun t m h => (hstep t m h).1), ?_⟩
    cases hturn with
    | step h => exact (hstep _ _ h).2
    | begin | other | retire | pass => exact hin

end Ensemble

/-! ## 4. Pools -/

/-- Only what runs has a pool. -/
def Arena.Equipped (a : Arena) : Prop :=
  ∀ k s, a.get? k = some s → s.pool ≠ none → Head a k

namespace Arena.Equipped

variable {a₀ : Arena} {lists talks : Prop} {spare : StackId → Prop}

/-- Scopes lose their pools, or are as before in this. -/
theorem of_get? (hE : a.Equipped) (h : ∀ k t, b.get? k = some t →
    t.pool = none ∨ ∃ s, a.get? k = some s ∧ t.pool = s.pool ∧ t.running = s.running) : b.Equipped := by
  intro k t ht hpool
  obtain ⟨s, hs, hsame, hrun⟩ := (h k t ht).resolve_left hpool
  refine (hE k s hs (hsame ▸ hpool)).imp_right fun ⟨s', hs', hrun'⟩ => ⟨t, ht, ?_⟩
  cases hs.symm.trans hs'
  exact hrun.trans hrun'

/-- Code makes pools for its own process, which runs. -/
theorem edits (hE : a₀.Equipped) (h : Edits lists talks spare c a₀ a) (hS : Starts a₀ p c) :
    a.Equipped := by
  intro k t ht hpool
  rcases (h.discreet hS.regular hS.head hS.placed).pools ht hpool with rfl | ⟨s, hs, hpool', hrun⟩
  · rw [hS.placed.process]
    exact (h.regular_drifts hS.regular hS.head hS.placed).2.head hS.head
  · refine (hE k s hs hpool').imp_right fun ⟨s', hs', hrun'⟩ => ⟨t, ht, ?_⟩
    cases hs.symm.trans hs'
    exact hrun hrun'

theorem pruned (hE : a.Equipped) {top : ScopeId} (hP : a.Pruned top b) : b.Equipped :=
  hE.of_get? fun k t ht => by
    obtain ⟨-, s, hs, hts, -⟩ := hP.of_get? ht
    rw [hts]
    exact Or.inr ⟨s, hs, rfl, rfl⟩

/-- A process that ends has no pool any more. -/
theorem finishProcess (hE : m.arena.Equipped) (hR : m.arena.Regular) {scope : ScopeId} {s : Scope}
    (hs : m.arena.get? scope = some s) (pid : Pid) :
    (m.finishProcess scope pid).2.arena.Equipped := by
  have hcleared : (m.arena.modify scope (·.cleared)).Equipped := hE.of_get? fun k t ht => by
    obtain ⟨s, hs, ⟨-, rfl⟩ | ⟨-, rfl⟩⟩ := Arena.get?_modify_cases ht
    · exact Or.inr ⟨t, hs, rfl, rfl⟩
    · exact Or.inl rfl
  obtain ⟨b, hfin, rfl | ⟨pools, -, hd⟩⟩ := Crew.finishProcess_eq pid hs
  · rw [hfin]
    exact hcleared
  · rw [hfin]
    exact hcleared.pruned (Arena.discard_pruned (hR.cleared scope).tree.forest hd)

/-- A step of a thread. -/
theorem step {t t' : Thread} (hE : m.arena.Equipped) (hR : m.arena.Regular) (ht : t.Sound m.arena)
    (hstep : t.step m = some (t', m')) : m'.arena.Equipped := by
  obtain ⟨p, pid, s, hs, -, -, rfl, -⟩ | ⟨p, job, rest, hp, hagenda, hjob⟩ := ht.step_cases hstep
  · exact hE.finishProcess hR hs pid
  · obtain ⟨c, hS, jobs, -, hran⟩ := hjob.ran hR hp hagenda hstep
    exact hE.edits hran.since hS

end Arena.Equipped

/-- **In every state only processes that run have pools.** -/
theorem Ensemble.Reachable.equipped {w : Ensemble} (h : w.Reachable) : w.machine.arena.Equipped := by
  induction h with
  | start config files hash =>
    exact fun k s (hs : (Environment.freshMachine config files).2.arena.get? k = some s) _ =>
      Or.inl (Environment.of_get?_fresh hs).1
  | command x hw _ hx ih =>
    exact ih.edits (Command.outcome_edited hw.sound.starts_top hx) hw.sound.starts_top
  | request _ _ _ _ ih | begin _ _ _ _ _ _ ih | retire _ _ _ ih => exact ih
  | step hw hstep ih => exact ih.step hw.sound.regular (.serving hw.sound.main) hstep
  | other hw hothers hstep ih =>
    exact ih.step hw.sound.regular
      (hw.sound.others _ (hothers ▸ List.mem_append_right _ List.mem_cons_self)) hstep
  | pass m _ harena _ _ ih => exact harena ▸ ih

/-- **At the top level letting go of a block does not fail**, and what goes has no pools to be shut down. -/
theorem Ensemble.Reachable.discard_top {w : Ensemble} (h : w.Reachable) (k : ScopeId) :
    ∃ m', (Context.top.discardAll [.block k]).run w.machine = .ok [] m' ∧
      (m' = w.machine ∨ ∃ b, m' = { w.machine with arena := b } ∧ k ≠ rootScope ∧
        w.machine.arena.Unreferenced k ∧ w.machine.arena.Pruned k b) := by
  have hF := h.sound.regular.tree.forest
  rw [Context.discardAll_single]
  obtain ⟨pools, m', hrun, ⟨rfl, rfl, -⟩ | ⟨hunref, hne, b, hd, rfl⟩⟩ :=
    (Context.discardTransient_top h.sound.regular.tree k).run_eq_ok
  · exact ⟨_, hrun, Or.inl rfl⟩
  · have hU := Arena.unreferenced_of_eq_false hF hunref
    have hpools : pools = [] := hF.discard_pools hd fun j s hs hchain => by
      cases hpool : s.pool with
      | none => rfl
      | some id =>
        rcases h.equipped j s hs (hpool ▸ Option.some_ne_none id) with rfl | ⟨s', hs', hrunning⟩
        · rw [h.sound.regular.tree.chain_root] at hchain
          exact absurd (List.mem_singleton.mp hchain) hne
        · cases hs.symm.trans hs'
          rw [(hU.idle hs hchain).1] at hrunning
          cases hrunning
    rw [hpools] at hrun
    exact ⟨_, hrun, Or.inr ⟨b, rfl, hne, hU, Arena.discard_pruned hF hd⟩⟩

end ScopeStack
