import ScopeStack.Proofs.Lasting

/-!
# Steps that take scopes out

Only three steps take scopes out: one that forgets a variable, a control word of the top level that can do
without one of its operands, and the end of what a control word of the top level has run.

* `Job.Leaves`: what a job without an operation leaves in the arena, and to be run. `Job.start_leaves`,
  `Job.settle_leaves`: **nothing goes, unless the job lets go, and no more is to be run than before.**
* `Thread.letsGo`: the steps that may take scopes out. `Thread.step_lasts`: **no other one does.**
* `Thread.step_known`: after a step a block is known that was, or the step has let go of it.
* `Thread.Takes`: a control word pops a value. `Thread.step_due`: **what a thread has to run it had to run
  before, or it has just popped it.**
-/

namespace ScopeStack

open ScopeStack.Action

variable {honest kept : Prop} {a₀ : Arena} {c : Context} {m m' : Machine}

/-! ## 1. Jobs without an operation -/

section Calm

/-- Nothing has been taken out, and nothing is to be run for a control word. -/
def Calm (a₀ : Arena) (jobs : List Job) (m : Machine) : Prop :=
  a₀.Lasts m.arena ∧ Job.NothingDue jobs

theorem calm_of_lasting {x : Action Unit} (h : Keeps (Lasting m.arena) x fun _ => True) :
    (x >>= fun _ => (pure [] : Action (List Job))).Ends m (Calm m.arena)
      fun _ m' => m.arena.Lasts m'.arena := by
  rw [ends_bind]
  exact (h m (Arena.Lasts.refl _)).mono (fun _ _ h => ⟨h.1, Job.nothingDue_nil⟩) fun _ _ h => h

namespace Context

theorem callBlock_calm (h : Handle) : (c.callBlock h).Ends m (Calm m.arena)
    fun _ m' => m.arena.Lasts m'.arena :=
  callBlock_lasting h m (Arena.Lasts.refl _)

theorem runWord_calm {name : String} (hno : c.effectOfName? m name = none) :
    (c.runWord name).Ends m (Calm m.arena) fun _ m' => m.arena.Lasts m'.arena := by
  unfold effectOfName? at hno
  unfold runWord findVariable
  rw [bind_assoc, ends_bind, ends_get, pure_bind]
  cases hv : m.arena.findVariable c.scope name with
  | some cell =>
    cases cell with
    | block h => exact callBlock_calm h
    | bool | int | big | double | str | word => exact calm_of_lasting (pushCell_lasting _)
  | none =>
    rw [hv] at hno
    unfold findOperation
    dsimp only
    rw [bind_assoc, ends_bind, ends_get, pure_bind, Option.map_eq_none_iff.mp hno]
    exact .refl _

theorem runCell_calm {cell : Cell} (hno : c.effectOfCell? m cell = none) :
    (c.runCell cell).Ends m (Calm m.arena) fun _ m' => m.arena.Lasts m'.arena := by
  cases cell with
  | word h =>
    show (c.resolveText h >>= c.runWord).Ends m _ _
    rw [ends_bind, resolveText, ends_inArena]
    refine ⟨fun name hr => runWord_calm ?_, fun _ _ => .refl _⟩
    rw [effectOfCell?, hr] at hno
    exact hno
  | bool | int | big | double | str | block => exact calm_of_lasting (pushCell_lasting _)

theorem compileToken_calm {cs : List Call} {t : Token} (hm : Moved honest kept m.arena cs m)
    (hc : Seated m.arena c) (hno : c.effectOfToken? m t = none) :
    (c.compileToken t).Ends m (Calm m.arena) fun _ m' => m.arena.Lasts m'.arena := by
  have hT := hm.steady.tree
  unfold effectOfToken? at hno
  unfold compileToken
  cases hlit : Literal.ofToken t with
  | blockOpen kind =>
    dsimp only
    rw [ends_bind]
    exact (openBlock_lasts hm hc kind).mono (fun _ _ h => ⟨h, Job.nothingDue_nil⟩) fun _ _ h => h
  | blockClose kind => exact calm_of_lasting (closeBlock_lasting kind t.location)
  | atom a =>
    rw [hlit, run_compileTarget hc.process hT] at hno
    dsimp only at hno ⊢
    rw [ends_bind, compileTarget_ends hc.process hT]
    generalize m.arena.openBlocks.headD c.scope = id at hno ⊢
    have hatom := (compileAtom_lasting (c := c.switchTo id) a m (Arena.Lasts.refl m.arena)).attained
    refine Ends.bind hatom fun cell m₁ ⟨hrun, hL, _⟩ => ?_
    rw [hrun] at hno
    dsimp only at hno
    rw [ends_bind, ends_getScope]
    refine ⟨fun s hs => ?_, fun _ => hL⟩
    rw [hs, Option.any_some] at hno
    split at hno
    · rename_i hcomp
      rw [if_pos hcomp]
      have happend : Keeps (Lasting m.arena)
          (modifyScope (c.switchTo id).scope (·.append ⟨some t.location, cell⟩)) fun _ => True :=
        modifyScope_lasting _ fun _ => rfl
      rw [ends_bind]
      exact (happend m₁ hL).mono (fun _ _ h => ⟨h.1, Job.nothingDue_nil⟩) fun _ _ h => h
    · rename_i hidle
      rw [if_neg hidle]
      exact (runCell_calm hno).mono (fun _ _ h => ⟨Arena.Lasts.trans hL h.1, h.2⟩)
        fun _ _ h => Arena.Lasts.trans hL h

end Context

namespace Job

/-- May the job itself take scopes out? -/
def letsGo : Job → Bool
  | .discard c _ => c.scope == rootScope
  | _ => false

theorem nothingDue_append {jobs jobs' : List Job} (h : NothingDue jobs) (h' : NothingDue jobs') :
    NothingDue (jobs ++ jobs') := fun job hm => (List.mem_append.mp hm).elim (h job) (h' job)

theorem nothingDue_pair {job job' : Job} (h : job.due = []) (h' : job'.due = []) :
    NothingDue [job, job'] := nothingDue_append (nothingDue_single h) (nothingDue_single h')

theorem nothingDue_stamps (l : Option Location) : NothingDue (l.toList.map .stamp) := by
  intro job hm
  obtain ⟨l, -, rfl⟩ := List.mem_map.mp hm
  rfl

theorem nothingDue_located {jobs : List Job} (l : Option Location) (h : NothingDue jobs) :
    NothingDue (located l jobs) := by
  unfold located
  split
  · exact nothingDue_nil
  · exact nothingDue_append h (nothingDue_stamps l)

/-- What a job without an operation leaves behind: everything that was there, unless it lets go, and no
more to be run than was to be run before. -/
def Leaves (job : Job) (a₀ : Arena) (jobs : List Job) (m : Machine) : Prop :=
  (job.letsGo = false → a₀.Lasts m.arena) ∧ ∀ j ∈ jobs, j.due ⊆ job.due

theorem leaves_of_calm {job : Job} {jobs : List Job} (h : Calm a₀ jobs m) : job.Leaves a₀ jobs m :=
  ⟨fun _ => h.1, fun j hj => (h.2 j hj).symm ▸ List.nil_subset _⟩

theorem discard_leaves {vs : List Value} {rest : List Job}
    (h : InOrder honest kept (.discard c vs :: rest) m) :
    (c.discardAll vs).Ends m
      (fun pools => (Job.discard c vs).Leaves m.arena (closePools pools))
      fun _ => (Job.discard c vs).Leaves m.arena [] := by
  have hnone {jobs : List Job} (hj : NothingDue jobs) : ∀ j ∈ jobs, j.due ⊆ (Job.discard c vs).due :=
    fun j hm => (hj j hm).symm ▸ List.nil_subset _
  by_cases hroot : c.scope = rootScope
  · have hlets : (Job.discard c vs).letsGo = true := by simpa [letsGo] using hroot
    have hvoid : (Job.discard c vs).letsGo = false → False := fun hno => by
      rw [hlets] at hno
      cases hno
    exact (keeps_anything (c.discardAll vs) m trivial).mono
      (fun pools _ _ => ⟨fun hno => (hvoid hno).elim, hnone (nothingDue_closePools pools)⟩)
      fun _ _ _ => ⟨fun hno => (hvoid hno).elim, hnone nothingDue_nil⟩
  · have hc := (h.tail rfl).seated (h.fits.1.hosted rfl)
    have hall : Keeps (Stays honest kept m.arena) (c.discardAll vs) fun _ => True :=
      (Keeps.mapM fun v _ => Context.discardTransient_below h.steady.tree hc hroot v).bind fun _ _ =>
        .pure trivial
    exact (hall m h.moved.stays).mono
      (fun pools _ h => ⟨fun _ => h.1.lasting, hnone (nothingDue_closePools pools)⟩)
      fun _ _ h => ⟨fun _ => h.lasting, hnone nothingDue_nil⟩

theorem shutPool_calm {id : PoolId} :
    (shutPool id).Ends m (Calm m.arena) fun _ m' => m.arena.Lasts m'.arena := by
  unfold shutPool
  rw [ends_bind, ends_get]
  have hL : m.arena.Lasts (m.closePool id).2.arena :=
    (Starts.arena_closePool m id).symm ▸ Arena.Lasts.refl m.arena
  exact ⟨hL, nothingDue_single rfl⟩

theorem token_calm {t : Token} {rest : List Job} (h : InOrder honest kept (.token c t :: rest) m)
    (hno : (Job.token c t).effect? m = none) :
    (Job.token c t).start.Ends m (Calm m.arena) fun _ m' => m.arena.Lasts m'.arena := by
  refine ends_checkRunning_bind (fun _ => .refl _) fun hrun => ?_
  rw [effect?, hrun, if_neg (by decide)] at hno
  rw [ends_bind, ends_locating]
  have hrest := h.tail rfl
  have hc := hrest.seated (h.fits.1.hosted rfl)
  exact (Context.compileToken_calm hrest.moved hc hno).mono
    (fun _ _ h => ⟨h.1, nothingDue_located _ h.2⟩) fun _ _ h => h

theorem code_calm {is : List Instruction} (hno : (Job.code c is).effect? m = none) :
    (Job.code c is).start.Ends m (Calm m.arena) fun _ m' => m.arena.Lasts m'.arena := by
  cases is with
  | nil => exact ⟨.refl _, nothingDue_nil⟩
  | cons i is =>
    refine ends_checkRunning_bind (fun _ => .refl _) fun hrun => ?_
    rw [effect?, hrun, if_neg (by decide)] at hno
    rw [ends_bind, ends_locating]
    refine (Context.runCell_calm hno).mono (fun jobs _ h => ⟨h.1, ?_⟩) fun _ _ h => h
    rw [before_eq]
    refine nothingDue_append (nothingDue_located _ h.2) ?_
    split
    · exact nothingDue_nil
    · exact nothingDue_single rfl

theorem leave_calm (c callee : Context) (call : Call) :
    (Job.leave c callee call).start.Ends m (Calm m.arena) fun _ m' => m.arena.Lasts m'.arena := by
  have hend : Keeps (Lasting m.arena) (do
      Context.endCall call; c.handBack callee call; dropCallStack call) fun _ => True := by
    refine Keeps.bind (modifyScope_lasting _ fun _ => rfl) fun _ _ => ?_
    refine Keeps.bind (c.handBack_lasting callee call) fun _ _ => ?_
    exact dropCallStack_lasting call
  have hstart : (Job.leave c callee call).start =
      (do Context.endCall call; c.handBack callee call; dropCallStack call) >>= fun _ => pure [] := by
    simp only [bind_assoc]
    rfl
  rw [hstart]
  exact calm_of_lasting hend

/-- What a loop puts on the agenda runs what the loop runs. -/
theorem choose_due {P : Machine → Prop} (hbool : Keeps P c.popBool fun _ => True)
    (condition act : Value) : Keeps P (Job.choose c condition act).start fun jobs =>
      ∀ j ∈ jobs, j.due ⊆ [condition, act] := by
  refine Job.choose_keeps hbool (fun _ hj => absurd hj List.not_mem_nil)
    (List.forall_mem_cons.mpr ⟨fun v hv => ?_, List.forall_mem_singleton.mpr fun _ h => h⟩)
  rw [List.mem_singleton.mp hv]
  exact List.mem_cons_of_mem _ List.mem_cons_self

theorem count_due {P : Machine → Prop} {counter : Option Int64} {limit step : Int64}
    (hpush : ∀ w, Keeps P (c.push (.int w)) fun _ => True) (runnable : Value) :
    Keeps P (Job.count c runnable counter limit step).start fun jobs =>
      ∀ j ∈ jobs, j.due ⊆ [runnable] :=
  Job.count_keeps hpush (fun _ hj => absurd hj List.not_mem_nil) fun _ => List.forall_mem_cons.mpr
    ⟨fun _ h => h, List.forall_mem_singleton.mpr fun _ h => h⟩

/-- **A job without an operation takes nothing out, unless it lets go, and has no more to run.** -/
theorem start_leaves {job : Job} {rest : List Job} (h : InOrder honest kept (job :: rest) m)
    (hno : job.effect? m = none) :
    job.start.Ends m (job.Leaves m.arena) fun _ => job.Leaves m.arena [] := by
  have hT := h.steady.tree
  have hself (hcall : job.call? = none) : InOrder honest kept rest m := h.tail hcall
  have hhost {c : Context} (hc : job.context? = some c) : Hosted rest c := h.fits.1.hosted hc
  have hquiet {jobs : List Job} (hdue : ∀ j ∈ jobs, j.due ⊆ job.due) : job.Leaves m.arena jobs m :=
    ⟨fun _ => .refl _, hdue⟩
  have hidle : job.Leaves m.arena [] m := hquiet fun _ hj => absurd hj List.not_mem_nil
  have hcalm {x : Action (List Job)}
      (hx : x.Ends m (Calm m.arena) fun _ m' => m.arena.Lasts m'.arena) :
      x.Ends m (job.Leaves m.arena) fun _ => job.Leaves m.arena [] :=
    hx.mono (fun _ _ h => leaves_of_calm h) fun _ _ h => leaves_of_calm ⟨h, nothingDue_nil⟩
  have hstays {x : Action (List Job)} {good : List Job → Prop}
      (hx : Keeps (Stays honest kept m.arena) x good)
      (hdue : ∀ jobs, good jobs → ∀ j ∈ jobs, j.due ⊆ job.due) :
      x.Ends m (job.Leaves m.arena) fun _ => job.Leaves m.arena [] :=
    (hx m (h.moved.stays)).mono (fun jobs _ h => ⟨fun _ => h.1.lasting, hdue jobs h.2⟩)
      fun _ _ h => ⟨fun _ => h.lasting, fun _ hj => absurd hj List.not_mem_nil⟩
  have hnone {jobs : List Job} (hj : NothingDue jobs) : ∀ j ∈ jobs, j.due ⊆ job.due :=
    fun j hm => (hj j hm).symm ▸ List.nil_subset _
  cases job with
  | cell | finish => exact h.fits.1.shaped.elim
  | token c t => exact hcalm (token_calm h hno)
  | value c v =>
    refine hcalm ?_
    cases v with
    | block b => exact Context.callBlock_calm b
    | word name => exact Context.runWord_calm hno
    | str name => exact Context.runWord_calm hno
    | bool | int | big | double => exact .refl _
  | body c =>
    refine ends_checkRunning_bind (fun _ => hidle) fun _ => ?_
    rw [ends_bind, ends_getScope]
    exact ⟨fun s hs => hquiet (hnone (nothingDue_single rfl)), fun _ => hidle⟩
  | code c is => exact hcalm (code_calm hno)
  | leave c callee call => exact hcalm (leave_calm c callee call)
  | stamp | awaitWorkers | report | awaitProcesses | raise => exact hidle
  | test c condition act =>
    refine hquiet (List.forall_mem_cons.mpr ⟨fun v hv => ?_, ?_⟩)
    · rw [List.mem_singleton.mp hv]
      exact List.mem_cons_self
    · exact List.forall_mem_singleton.mpr fun _ h => h
  | resumeInput c after => exact hquiet (hnone (nothingDue_single rfl))
  | source c cursor =>
    exact source_ends (fun _ _ => hquiet (hnone (nothingDue_pair rfl rfl))) hidle fun _ => hidle
  | readInput c cursor =>
    exact readInput_ends (fun _ _ => hquiet (hnone (nothingDue_pair rfl rfl))) hidle fun _ => hidle
  | load c path =>
    exact load_ends (fun _ => hquiet (hnone (nothingDue_single rfl))) hidle fun _ => hidle
  | discard c vs =>
    unfold Job.start
    dsimp only
    rw [ends_bind]
    exact discard_leaves h
  | push c v =>
    have hpush : Keeps (Stays honest kept m.arena) (c.push v) fun _ => True :=
      Context.push_keeps hT ((hself rfl).seated (hhost rfl)) fun _ => .of_ne h.fits.1.shaped
    exact hstays (hpush.bind fun _ _ => .pure nothingDue_nil) fun _ => hnone
  | choose c condition act =>
    exact hstays (choose_due (h.handles rfl rfl).popBool condition act) fun _ h => h
  | count c runnable counter limit step =>
    exact hstays (count_due (h.handles rfl rfl).pushWord runnable) fun _ h => h
  | receive c size =>
    have H := h.handles rfl rfl
    refine hstays (H.size.bind fun n _ => (?_ : Keeps _ _ NothingDue)) fun _ => hnone
    split
    · exact (checkRunning_keeps c).bind fun _ _ => .pure nothingDue_nil
    · exact .pure nothingDue_nil
  | sleep c deadline =>
    exact hstays ((checkRunning_keeps c).bind fun _ _ => .pure nothingDue_nil) fun _ => hnone
  | closePool id => exact hcalm shutPool_calm

/-- **After a failure as well.** -/
theorem settle_leaves {job : Job} {rest : List Job} (h : InOrder honest kept (job :: rest) m)
    (f : Failure) : job.Leaves m.arena ((job.settle f).run m).1.2 ((job.settle f).run m).2 := by
  have hidle {jobs : List Job} {m' : Machine} (ha : m'.arena = m.arena) (hj : NothingDue jobs) :
      job.Leaves m.arena jobs m' := leaves_of_calm ⟨ha.symm ▸ .refl _, hj⟩
  cases job with
  | cell | finish => exact h.fits.1.shaped.elim
  | leave c callee call =>
    have hend : Keeps (Lasting m.arena) (do Context.endCall call; dropCallStack call : Action Unit)
        fun _ => True :=
      Keeps.bind (modifyScope_lasting _ fun _ => rfl) fun _ _ => dropCallStack_lasting call
    have hends : (do Context.endCall call; dropCallStack call : Action Unit).Ends m
        (fun _ => (Job.leave c callee call).Leaves m.arena [])
        fun _ => (Job.leave c callee call).Leaves m.arena [] :=
      (hend m (Arena.Lasts.refl _)).mono (fun _ _ h => leaves_of_calm ⟨h.1, nothingDue_nil⟩)
        fun _ _ h => leaves_of_calm ⟨h, nothingDue_nil⟩
    exact settle_leave (R := (Job.leave c callee call).Leaves m.arena) hends c callee f
  | discard c vs =>
    exact settle_discard (R := (Job.discard c vs).Leaves m.arena) (discard_leaves h) f
  | closePool id =>
    have hends : (shutPool id).Ends m ((Job.closePool id).Leaves m.arena)
        fun _ => (Job.closePool id).Leaves m.arena [] :=
      shutPool_calm.mono (fun _ _ h => leaves_of_calm h) fun _ _ h => leaves_of_calm ⟨h, nothingDue_nil⟩
    exact settle_closePool (R := (Job.closePool id).Leaves m.arena) hends f
  | report pid =>
    simp only [settle]
    split
    · exact hidle rfl nothingDue_nil
    · exact hidle rfl nothingDue_nil
  | resumeInput c after =>
    exact settle_resumeInput (R := (Job.resumeInput c after).Leaves m.arena) (hidle rfl nothingDue_nil) c
      after f (hidle rfl (nothingDue_single rfl))
  | _ => exact hidle rfl nothingDue_nil

end Job

end Calm

/-! ## 2. Steps -/

/-- May the step take scopes out? -/
def Thread.letsGo (t : Thread) (m : Machine) : Bool :=
  match t.agenda with
  | [] => false
  | job :: _ => job.letsGo || (t.effect? m).any fun e => job.context?.any e.letsGo

/-- The step carries out a control word that pops this value, which is known. -/
def Thread.Takes (t : Thread) (m : Machine) (v : Value) : Prop :=
  ∃ job c w m₁ p m₂, t.agenda.head? = some job ∧ job.context? = some c ∧
    t.effect? m = some (.control w) ∧ Gains m m₁ ∧ (w.plan c).run m₁ = .ok p m₂ ∧ v ∈ p.operands ∧
    Known m.arena v

/-- The blocks that are open are being compiled. -/
theorem Arena.Orderly.settled {a : Arena} (hO : a.Orderly) : a.Settled rootScope := by
  intro r k s hr hk hs
  rw [← openBlocks_eq hr] at hk
  exact hO.opens.compiling hk hs

theorem Job.of_effect? {job : Job} {e : Effect} (he : job.effect? m = some e) :
    (∃ c, job.context? = some c) ∧ job.call? = none ∧ job.letsGo = false := by
  cases job with
  | token c | cell c | code c | value c => exact ⟨⟨c, rfl⟩, rfl, rfl⟩
  | _ => cases he

/-- Where a job stands and the code behind it are not run for a control word. -/
theorem Job.mem_of_mem_around {job j : Job} {jobs : List Job} (hj : j ∈ job.around jobs)
    {v : Value} (hv : v ∈ j.due) : j ∈ jobs := by
  have hlocated {l : Option Location} (hj : j ∈ located l jobs) : j ∈ jobs := by
    unfold located at hj
    split at hj
    · cases hj
    · refine (List.mem_append.mp hj).resolve_right fun hstamp => ?_
      rw [nothingDue_stamps l j hstamp] at hv
      cases hv
  cases job with
  | token c t => exact hlocated hj
  | code c is =>
    cases is with
    | nil => exact hj
    | cons i is =>
      refine hlocated ((List.mem_append.mp hj).resolve_right fun hcode => ?_)
      split at hcode
      · cases hcode
      · rw [List.mem_singleton.mp hcode] at hv
        cases hv
  | _ => exact hj

section Step

variable {t t' : Thread} {job : Job} {rest : List Job}

theorem Thread.effect?_eq_some {e : Effect} (hagenda : t.agenda = job :: rest)
    (he : t.effect? m = some e) : job.effect? m = some e := by
  unfold effect? at he
  rw [hagenda] at he
  split at he
  · rename_i hcons
    cases hcons
    split at he
    · cases he
    · exact he
  · cases he

/-- A step without an operation. -/
theorem Thread.step_leaves (h : InOrder honest kept t.agenda m) (hagenda : t.agenda = job :: rest)
    (hno : t.effect? m = none) (hstep : t.step m = some (t', m')) :
    ∃ jobs, t'.agenda = jobs ++ rest ∧ job.Leaves m.arena jobs m' := by
  rw [hagenda] at h
  obtain ⟨hblocked, ⟨hstatus, hrun⟩ | ⟨f, hstatus, rfl, rfl⟩⟩ := Thread.step_cases hagenda hstep
  · rw [Thread.effect?, hstatus, hagenda] at hno
    dsimp only at hno
    rw [hblocked, if_neg (by decide)] at hno
    have hends := Job.start_leaves h hno
    rcases hrun with ⟨jobs, hrun, rfl⟩ | ⟨f, hrun, rfl⟩
    · exact ⟨jobs, rfl, hends.of_ok hrun⟩
    · exact ⟨[], rfl, hends.of_error hrun⟩
  · exact ⟨_, rfl, Job.settle_leaves h f⟩

/-- A step with an operation carries it out where code may run. -/
theorem Thread.step_operation {e : Effect} (h : InOrder honest kept t.agenda m)
    (hagenda : t.agenda = job :: rest) (he : t.effect? m = some e)
    (hstep : t.step m = some (t', m')) :
    ∃ c m₁, job.context? = some c ∧ Gains m m₁ ∧
      Moved honest kept m₁.arena (Agenda.calls rest) m₁ ∧ Seated m₁.arena c ∧
      ((∃ jobs, (e.perform c).run m₁ = .ok jobs m' ∧
          t' = { t with agenda := job.around jobs ++ rest }) ∨
        ∃ f, (e.perform c).run m₁ = .error f m' ∧
          t' = { t with status := .error (job.placing f), agenda := rest }) := by
  obtain ⟨⟨c, hc⟩, hcall, -⟩ := Job.of_effect? (effect?_eq_some hagenda he)
  have h' := h
  rw [hagenda] at h'
  have hrest := h'.tail hcall
  have hseat := hrest.seated (h'.fits.1.hosted hc)
  have hopen : m.arena.Settled c.process := hseat.process.symm ▸ h.steady.toOrderly.settled
  obtain ⟨m₁, hg, hrun⟩ := Thread.step_effect h.steady.tree hopen hagenda hc he hstep
  have hstays := hg.stays hrest.moved.stays
  exact ⟨c, m₁, hc, hg, .refl hstays.steady (hrest.calls.still hg.grows.still) hstays.processes,
    hseat.still hg.grows.still, hrun⟩

/-- The step at the end of what a control word has run, however it ended. -/
theorem Thread.step_discard {vs : List Value} (hagenda : t.agenda = .discard c vs :: rest)
    (hstep : t.step m = some (t', m')) :
    (∃ pools, (c.discardAll vs).run m = .ok pools m' ∧ t'.agenda = Job.closePools pools ++ rest) ∨
      ∃ f, (c.discardAll vs).run m = .error f m' ∧ t'.agenda = rest := by
  cases hall : (c.discardAll vs).run m with
  | ok pools m₁ =>
    rw [Thread.step_discarded hall hagenda] at hstep
    cases hstep
    exact Or.inl ⟨pools, rfl, rfl⟩
  | error e m₁ =>
    obtain ⟨-, ⟨-, hrun⟩ | ⟨f, -, hm', ht'⟩⟩ := Thread.step_cases hagenda hstep
    · have hstart : (Job.discard c vs).start.run m =
          (c.discardAll vs >>= fun pools => pure (Job.closePools pools)).run m := rfl
      rw [hstart, EStateM.run_bind, hall] at hrun
      rcases hrun with ⟨jobs, hrun, -⟩ | ⟨f, hrun, rfl⟩
      · cases hrun
      · cases hrun
        exact Or.inr ⟨e, rfl, rfl⟩
    · have houtcome : (c.discardAll vs).outcome m = (.error e, m₁) := by rw [Action.outcome, hall]
      have hsettle : ((Job.discard c vs).settle f).run m = ((.error e, []), m₁) := by
        simp only [Job.settle, StateT.run, bind, StateT.bind, houtcome]
        rfl
      rw [hsettle] at hm' ht'
      subst hm' ht'
      exact Or.inr ⟨e, rfl, rfl⟩

/-- **A step that does not let go takes nothing out.** -/
theorem Thread.step_lasts (h : InOrder honest kept t.agenda m) (hstep : t.step m = some (t', m'))
    (hlast : m'.processes.last = m.processes.last) (hno : t.letsGo m = false) :
    m.arena.Lasts m'.arena := by
  obtain ⟨job, rest, hagenda⟩ := agenda_of_step hstep
  rw [letsGo, hagenda, Bool.or_eq_false_iff] at hno
  cases he : t.effect? m with
  | none =>
    obtain ⟨jobs, -, hleaves⟩ := step_leaves h hagenda he hstep
    exact hleaves.1 hno.1
  | some e =>
    obtain ⟨c, m₁, hc, hg, hm₁, hseat, hrun⟩ := step_operation h hagenda he hstep
    have hkeep : e.letsGo c = false := by simpa [he, hc] using hno.2
    have hends := Effect.lasts hm₁ hseat hkeep
    have hlasts : m₁.arena.Lasts m'.arena ∨ LastIs 1 m' := by
      rcases hrun with ⟨jobs, hrun, -⟩ | ⟨f, hrun, -⟩
      · exact hends.of_ok hrun
      · exact hends.of_error hrun
    exact (Arena.Lasts.still hg.grows.still).trans (hlasts.resolve_right (h.not_lastIs_one hlast))

/-- **After a step a block that was known is known, or the step has let go of it.** -/
theorem Thread.step_known {p : Option ScopeId} {k : ScopeId} (h : InOrder False False t.agenda m)
    (hstep : t.step m = some (t', m')) (hlast : m'.processes.last = m.processes.last)
    (hk : m.arena.KnownUnder p k) :
    m'.arena.KnownUnder p k ∨ (t.letsGo m = true ∧ m'.arena.get? k = none) := by
  cases hlets : t.letsGo m with
  | false => exact Or.inl ((step_lasts h hstep hlast hlets).knownUnder hk)
  | true =>
    suffices hacc : m'.arena.Accounts p k from hacc.imp_right fun hgone => ⟨rfl, hgone⟩
    obtain ⟨job, rest, hagenda⟩ := agenda_of_step hstep
    cases he : t.effect? m with
    | some e =>
      obtain ⟨c, m₁, hc, hg, hm₁, hseat, hrun⟩ := step_operation h hagenda he hstep
      have hends := Effect.accounts hm₁ hseat e ((Arena.Lasts.still hg.grows.still).knownUnder hk)
      have hacc : m'.arena.Accounts p k ∨ LastIs 1 m' := by
        rcases hrun with ⟨jobs, hrun, -⟩ | ⟨f, hrun, -⟩
        · exact hends.of_ok hrun
        · exact hends.of_error hrun
      exact hacc.resolve_right (h.not_lastIs_one hlast)
    | none =>
      rw [letsGo, hagenda, he] at hlets
      dsimp only at hlets
      rw [Option.any_none, Bool.or_false] at hlets
      cases job with
      | discard c vs =>
        have hP : Prunable (Accounting m.arena (Agenda.calls t.agenda) p k) :=
          (Accounting.forgetful h.steady.tree).toPrunable
        have hends := Context.discardAll_keeps hP c vs m ⟨h.moved, Or.inl hk⟩
        rcases step_discard hagenda hstep with ⟨pools, hrun, -⟩ | ⟨f, hrun, -⟩
        · exact (hends.of_ok hrun).1.2
        · exact (hends.of_error hrun).2
      | _ => cases hlets

/-- **What a thread has to run for control words it had to run before, or the step has popped it.** -/
theorem Thread.step_due (h : InOrder False False t.agenda m) (hstep : t.step m = some (t', m'))
    {j : Job} (hj : j ∈ t'.agenda) {v : Value} (hv : v ∈ j.due) :
    (∃ i ∈ t.agenda, v ∈ i.due) ∨ t.Takes m v := by
  obtain ⟨job, rest, hagenda⟩ := agenda_of_step hstep
  rw [hagenda]
  have hrest (hj : j ∈ rest) : ∃ i ∈ job :: rest, v ∈ i.due := ⟨j, List.mem_cons_of_mem _ hj, hv⟩
  cases he : t.effect? m with
  | none =>
    obtain ⟨jobs, hagenda', -, hdue⟩ := step_leaves h hagenda he hstep
    rw [hagenda'] at hj
    rcases List.mem_append.mp hj with hj | hj
    · exact Or.inl ⟨job, List.mem_cons_self, hdue j hj hv⟩
    · exact Or.inl (hrest hj)
  | some e =>
    obtain ⟨c, m₁, hc, hg, hm₁, hseat, ⟨jobs, hrun, rfl⟩ | ⟨f, -, rfl⟩⟩ :=
      step_operation h hagenda he hstep
    · rcases List.mem_append.mp hj with hj | hj
      · have hj : j ∈ jobs := Job.mem_of_mem_around hj hv
        cases e with
        | control w =>
          obtain ⟨p, m₂, pools, hplan, -, rfl⟩ := (w.perform_cases m₁).of_ok hrun
          have hoperand : v ∈ p.operands := by
            rcases List.mem_append.mp hj with hj | hj
            · rw [Job.nothingDue_closePools pools j hj] at hv
              cases hv
            · exact Plan.due_jobs hj hv
          have hpop : Keeps (Stays False False m₁.arena) c.pop (Known m₁.arena) :=
            Context.pop_keeps c
          have hknown := ((w.plan_keeps hpop m₁ hm₁.stays).of_ok hplan).2.1 v hoperand
          exact Or.inr ⟨job, c, w, m₁, p, m₂, by rw [hagenda]; rfl, hc, he, hg, hplan, hoperand,
            hg.grows.still.known_iff.mp hknown⟩
        | _ =>
          have hnone := (Effect.leaves_nothing_due (fun w h => by cases h) m₁ trivial).of_ok hrun
          rw [hnone.2 j hj] at hv
          cases hv
      · exact Or.inl (hrest hj)
    · exact Or.inl (hrest hj)

end Step

end ScopeStack
