import ScopeStack.Proofs.Running

/-!
# Jobs and steps

A thread of the top level takes its jobs one by one. Each of them leaves a machine that is in order
with what is left to do then, whether it ends well or fails, and whether all was well before it.

* `Job.effect?`, `Thread.effect?`: the operation that the next step carries out.
* `After`: the machine is in order with the new agenda, and what has happened since is one step; or a
  process was spawned. `Result.after`: what running something leaves is such an agenda.
* `Job.start_ends`, `Job.settle_after`, and for a step `Thread.step_after`: **a step keeps the
  machine in order.**
-/

namespace ScopeStack

open ScopeStack.Action

/-! ## 1. The operation of a step -/

/-- The operation that a job carries out when all is well. -/
def Job.effect? (m : Machine) : Job → Option Effect
  | .token c t => if c.isStopped m then none else c.effectOfToken? m t
  | .cell c x => c.effectOfCell? m x
  | .code c (i :: _) => if c.isStopped m then none else c.effectOfCell? m i.cell
  | .value c (.word name) | .value c (.str name) => c.effectOfName? m name
  | _ => none

/-- The operation that the next step of a thread carries out. -/
def Thread.effect? (t : Thread) (m : Machine) : Option Effect :=
  match t.status, t.agenda with
  | .ok (), job :: _ => if t.isBlocked m then none else job.effect? m
  | _, _ => none

/-! ## 2. Agendas that follow one another -/

variable {honest kept : Prop} {rest agenda : List Job} {c : Context} {m m' : Machine}

/-- In order with another agenda, one step later. -/
def After (honest kept : Prop) (agenda : List Job) (m m' : Machine) : Prop :=
  (InOrder honest kept agenda m' ∧ Arena.Follows [] m.arena m'.arena) ∨ LastIs 1 m'

theorem Arena.Runs.mono {cs cs' : List Call} {id : ScopeId} (h : Runs cs id) (hsub : cs ⊆ cs') :
    Runs cs' id :=
  h.imp_right fun ⟨call, hm, he⟩ => ⟨call, hsub hm, he⟩

theorem Arena.Follows.mono {cs cs' : List Call} {a b : Arena} (h : Follows cs' a b)
    (hsub : cs ⊆ cs') : Follows cs a b :=
  ⟨fun hs hr => h.carries hs (hr.mono hsub), h.lastScope, h.back, h.opens⟩

theorem Agenda.Fits.of_mem {job : Job} (h : Fits agenda) (hm : job ∈ agenda) :
    ∃ back, back ⊆ agenda ∧ job.Fits back := by
  induction agenda with
  | nil => cases hm
  | cons x rest ih =>
    rcases List.mem_cons.mp hm with rfl | hm
    · exact ⟨rest, List.subset_cons_self _ _, h.1⟩
    · obtain ⟨back, hsub, hfit⟩ := ih h.2 hm
      exact ⟨back, fun x hx => List.mem_cons_of_mem _ (hsub hx), hfit⟩

namespace InOrder

/-- A job that ends no call is taken off the agenda. -/
theorem tail {job : Job} (h : InOrder honest kept (job :: rest) m) (hcall : job.call? = none) :
    InOrder honest kept rest m := by
  have hcalls : Agenda.calls (job :: rest) = Agenda.calls rest := List.filterMap_cons_none hcall
  exact ⟨h.steady, hcalls ▸ h.calls, h.processes, h.fits.2,
    fun hm => h.code (List.mem_cons_of_mem _ hm)⟩

/-- A job that ends no call and runs no code by itself is put in front. -/
theorem cons {job : Job} (h : InOrder honest kept rest m) (hfits : job.Fits rest)
    (hcall : job.call? = none) (hcode : ∀ d is, job ≠ .code d is) :
    InOrder honest kept (job :: rest) m := by
  have hcalls : Agenda.calls (job :: rest) = Agenda.calls rest := List.filterMap_cons_none hcall
  refine ⟨h.steady, hcalls ▸ h.calls, h.processes, ⟨hfits, h.fits⟩, fun {d is} hm => ?_⟩
  rcases List.mem_cons.mp hm with he | hm
  · exact absurd he.symm (hcode d is)
  · exact h.code hm

/-- Code of the scope is to be run. -/
theorem consCode (h : InOrder honest kept rest m) (hc : Hosted rest c) {is : List Instruction}
    {s : Scope} (hs : m.arena.get? c.scope = some s) (his : ∀ i ∈ is, i.cell ∈ s.code.cells) :
    InOrder honest kept (.code c is :: rest) m := by
  refine ⟨h.steady, h.calls, h.processes, ⟨⟨fun he => ?_, trivial⟩, h.fits⟩, fun {d js} hm => ?_⟩
  · cases he
    exact hc
  · rcases List.mem_cons.mp hm with he | hm
    · cases he
      exact ⟨s, hs, his⟩
    · exact h.code hm

/-- Code that is to be run is code of its scope also one step later. -/
theorem carries (h : InOrder honest kept rest m) {cs : List Call} {b : Arena}
    (hsub : Agenda.calls rest ⊆ cs) (hf : Arena.Follows cs m.arena b) {is : List Instruction}
    (hmem : Job.code c is ∈ rest) :
    ∃ s, b.get? c.scope = some s ∧ ∀ i ∈ is, i.cell ∈ s.code.cells := by
  obtain ⟨s, hs, his⟩ := h.code hmem
  obtain ⟨back, hback, hfit⟩ := h.fits.of_mem hmem
  have hruns := h.fits.runs ((hfit.hosted rfl).mono hback)
  obtain ⟨t, ht, hst⟩ := hf.carries hs (hruns.mono hsub)
  exact ⟨t, ht, fun i hi => hst (his i hi)⟩

/-- The machine goes on by a step that leaves the calls alone. -/
theorem stepped (h : InOrder honest kept rest m)
    (hm : Stepped honest kept m.arena (Agenda.calls rest) m') : InOrder honest kept rest m' :=
  ⟨hm.steady, hm.calls, hm.processes, h.fits, h.carries (fun _ h => h) hm.follows⟩

theorem anchored (h : InOrder honest kept rest m) (hc : Hosted rest c) :
    Anchored (Agenda.calls rest) c :=
  h.fits.anchored hc

theorem seated (h : InOrder honest kept rest m) (hc : Hosted rest c) : Seated m.arena c :=
  (h.anchored hc).seated h.steady.toOrderly h.calls

/-- Simple jobs are put in front. -/
theorem append {jobs : List Job} (h : InOrder honest kept rest m) (hc : Hosted rest c)
    (hjobs : Job.AllSimple c jobs) : InOrder honest kept (jobs ++ rest) m := by
  induction jobs with
  | nil => exact h
  | cons job jobs ih =>
    have htail := ih fun x hx => hjobs x (List.mem_cons_of_mem _ hx)
    have hjob := hjobs job List.mem_cons_self
    have hhost : Hosted (jobs ++ rest) c := hc.mono (List.subset_append_right _ _)
    refine htail.cons ⟨fun {d} hd => ?_, ?_⟩ ?_ fun d is he => ?_
    · have hdc : d = c := by
        cases job with
        | push => cases hd; exact hjob.1
        | leave | cell | finish | code | body => exact hjob.elim
        | _ => exact hjob d hd
      exact hdc ▸ hhost
    · cases job with
      | push => exact hjob.2
      | leave | cell | finish | code | body => exact hjob.elim
      | _ => trivial
    · cases job with
      | leave => exact hjob.elim
      | _ => rfl
    · subst he
      exact hjob

end InOrder

/-- A step that leaves simple jobs. -/
theorem After.simple {jobs : List Job} (h : InOrder honest kept rest m) (hc : Hosted rest c)
    (hm : Stepped honest kept m.arena (Agenda.calls rest) m') (hjobs : Job.AllSimple c jobs) :
    After honest kept (jobs ++ rest) m m' :=
  Or.inl ⟨(h.stepped hm).append hc hjobs, hm.follows.mono (List.nil_subset _)⟩

/-- A step that leaves no jobs. -/
theorem After.nothing (h : InOrder honest kept rest m)
    (hm : Stepped honest kept m.arena (Agenda.calls rest) m') : After honest kept rest m m' :=
  Or.inl ⟨h.stepped hm, hm.follows.mono (List.nil_subset _)⟩

theorem After.refl (h : InOrder honest kept rest m) : After honest kept rest m m :=
  .nothing h h.moved.toStepped

/-- Nothing happens to scopes and processes. -/
theorem After.aside (h : InOrder honest kept rest m) (ha : m'.arena = m.arena)
    (hp : m'.processes = m.processes) : After honest kept rest m m' :=
  .nothing h (h.moved.congr ha hp).toStepped

/-- A step in two parts, of which the first opens and closes nothing. -/
theorem After.trans {m₁ : Machine} (hT : m.arena.Tree) (hf : Arena.Follows [] m.arena m₁.arena)
    (ho : m₁.arena.openBlocks = m.arena.openBlocks) (h : After honest kept agenda m₁ m') :
    After honest kept agenda m m' :=
  h.imp_left fun ⟨h, hf'⟩ => ⟨h, hf.trans hT hf' (Or.inl ho)⟩

/-- **What running something leaves to be done is in order.** -/
theorem Result.after {jobs : List Job} (h : InOrder honest kept rest m) (hc : Hosted rest c)
    (hr : Result honest kept m.arena (Agenda.calls rest) c jobs m') :
    After honest kept (jobs ++ rest) m m' := by
  cases hr with
  | simple hm hjobs => exact .simple h hc hm hjobs
  | spawned hm => exact Or.inr hm
  | called callee call hj hruns hm =>
    subst hj
    refine Or.inl ⟨?_, hm.follows.mono (List.nil_subset _)⟩
    have hleave : Job.Fits rest (.leave c callee call) :=
      ⟨fun he => by cases he; exact hc, hruns⟩
    have hbody : Job.Fits (.leave c callee call :: rest) (.body callee) :=
      ⟨fun he => by cases he; exact Or.inr ⟨c, call, List.mem_cons_self⟩, trivial⟩
    refine ⟨hm.steady, hm.calls, hm.processes, ⟨hbody, hleave, h.fits⟩, fun {d is} hmem => ?_⟩
    -- no code of the callee has been taken up yet, so it is code of the rest
    have hmem : Job.code d is ∈ rest := by
      rcases List.mem_cons.mp hmem with he | hmem
      · cases he
      · rcases List.mem_cons.mp hmem with he | hmem
        · cases he
        · exact hmem
    exact h.carries (List.subset_cons_self _ _) hm.follows hmem

/-- The same where the jobs are said to belong to a place. -/
theorem Result.after_located {jobs : List Job} (l : Option Location)
    (h : InOrder honest kept rest m) (hc : Hosted rest c)
    (hr : Result honest kept m.arena (Agenda.calls rest) c jobs m') :
    After honest kept (Job.located l jobs ++ rest) m m' := by
  unfold Job.located
  split
  · rename_i hnil
    rw [List.isEmpty_iff.mp hnil] at hr
    exact hr.after h hc
  · cases l with
    | none => exact (List.append_nil jobs).symm ▸ hr.after h hc
    | some l =>
      have hstamp : InOrder honest kept (.stamp l :: rest) m :=
        h.cons ⟨fun he => (by cases he), trivial⟩ rfl fun _ _ he => (by cases he)
      rw [List.append_assoc]
      exact Result.after hstamp (hc.mono (List.subset_cons_self _ _)) hr

theorem Fails.after (h : InOrder honest kept rest m)
    (hf : Fails honest kept m.arena (Agenda.calls rest) m') : After honest kept rest m m' := by
  rcases hf with hm | hm
  · exact .nothing h hm
  · exact Or.inr hm

/-! ## 3. Starting a job -/

section Start

/-- What leaves the scopes where they are and gives simple jobs. -/
theorem Action.Keeps.after {x : Action (List Job)} (h : InOrder honest kept rest m)
    (hc : Hosted rest c) (hx : Keeps (Stays honest kept m.arena) x (Job.AllSimple c)) :
    x.Ends m (fun jobs m' => After honest kept (jobs ++ rest) m m')
      fun _ m' => After honest kept rest m m' := by
  have hT := h.steady.tree
  have hstep {m' : Machine} (hm : Stays honest kept m.arena m') :
      Stepped honest kept m.arena (Agenda.calls rest) m' := (hm.moved hT h.moved).toStepped
  exact (hx m h.moved.stays).mono (fun _ _ hm => .simple h hc (hstep hm.1) hm.2)
    fun _ _ hm => .nothing h (hstep hm)

theorem checkRunning_keeps {P : Machine → Prop} (c : Context) :
    Keeps P c.checkRunning fun _ => True := by
  refine Keeps.get_bind fun m _ => ?_
  split
  · exact .fail _
  · exact .pure trivial

/-- A running context goes on. -/
theorem ends_checkRunning_bind {α : Type} {x : Action α} {Q : α → Machine → Prop}
    {E : Failure → Machine → Prop} (hstop : c.isStopped m = true → E ⟨.stopped, none⟩ m)
    (hx : c.isStopped m = false → x.Ends m Q E) : (c.checkRunning >>= fun _ => x).Ends m Q E := by
  unfold Context.checkRunning
  rw [bind_assoc, ends_bind, ends_get]
  cases hs : c.isStopped m with
  | true => exact hstop hs
  | false => exact hx hs

theorem shutPool_keeps (id : PoolId) {a₀ : Arena} :
    Keeps (Stays honest kept a₀) (shutPool id) (Job.AllSimple .top) := by
  intro m hm
  unfold shutPool
  rw [ends_bind, ends_get]
  have harena : (m.closePool id).2.arena = m.arena ∧
      (m.closePool id).2.processes = m.processes := by
    unfold Machine.closePool
    split
    · exact ⟨rfl, rfl⟩
    · exact ⟨rfl, rfl⟩
  show Stays honest kept a₀ (m.closePool id).2 ∧ _
  refine ⟨⟨?_, ?_, harena.2.trans hm.processes⟩, .cons (fun d h => (by cases h)) .nil⟩
  · rw [harena.1]
    exact hm.steady
  · rw [harena.1]
    exact hm.still

/-! ### A call is over -/

/-- The call is no longer listed, and all is in order without it. -/
theorem endCall_after {callee : Context} {call : Call}
    (h : InOrder honest kept (.leave c callee call :: rest) m) {x : Action Unit}
    (hx : ∀ a₀ : Arena, a₀.Tree → Seated a₀ c → Keeps (Stays honest kept a₀) x fun _ => True) :
    (Context.endCall call >>= fun _ => x).Ends m (fun _ m' => After honest kept rest m m')
      fun _ m' => After honest kept rest m m' := by
  have hcalls : m.arena.InProgress (call :: Agenda.calls rest) := h.calls
  have hsteady : (m.arena.modify call.block fun s =>
      { s with calls := s.calls.erase call.stack }).Steady honest kept :=
    h.steady.setCalls call.block (·.erase call.stack) fun s _ σ hσ =>
      Or.inl (List.mem_of_mem_erase hσ)
  have hfollow (cs : List Call) : Arena.Follows cs m.arena (m.arena.modify call.block fun s =>
      { s with calls := s.calls.erase call.stack }) :=
    .modify _ _ (fun _ => ⟨rfl, rfl, fun h => h, rfl⟩) fun _ _ h => h
  unfold Context.endCall
  rw [ends_bind, ends_modifyScope]
  have ho : (m.arena.modify call.block fun s =>
      { s with calls := s.calls.erase call.stack }).openBlocks = m.arena.openBlocks :=
    Arena.openBlocks_modify call.block (fun s => { s with calls := s.calls.erase call.stack })
      fun _ => rfl
  have hleft := hcalls.leave
  generalize (m.arena.modify call.block fun s =>
    { s with calls := s.calls.erase call.stack }) = b at hsteady hfollow ho hleft ⊢
  have h₁ : InOrder honest kept rest { m with arena := b } :=
    ⟨hsteady, hleft, h.processes, h.fits.2, fun hmem =>
      h.carries (fun _ h => h) (hfollow _) (List.mem_cons_of_mem _ hmem)⟩
  have hc : Hosted rest c := h.fits.1.hosted rfl
  have hstep {m' : Machine} (hm : Stays honest kept b m') : After honest kept rest m m' :=
    .trans h.steady.tree (hfollow []) ho
      (.nothing h₁ (hm.moved hsteady.tree h₁.moved).toStepped)
  exact (hx b hsteady.tree (h₁.seated hc) _ h₁.moved.stays).mono (fun _ _ hm => hstep hm.1)
    fun _ _ hm => hstep hm

theorem dropCallStack_keeps {a₀ : Arena} (call : Call) :
    Keeps (Stays honest kept a₀) (dropCallStack call) fun _ => True := by
  intro m hm
  unfold dropCallStack
  split
  · exact ⟨hm, trivial⟩
  · refine ⟨⟨?_, hm.still.trans (.dropStack _ _), hm.processes⟩, trivial⟩
    refine hm.steady.changeStacks rfl rfl rfl (Nat.le_refl _) fun σ cell hcell => Or.inl ?_
    rw [Arena.stackCells, Arena.stack] at hcell ⊢
    simp only [Arena.dropStack, Std.TreeMap.getD_erase] at hcell
    split at hcell
    · cases hcell
    · exact hcell

theorem handBack_keeps {a₀ : Arena} (hT : a₀.Tree) (hc : Seated a₀ c) (callee : Context)
    (call : Call) : Keeps (Stays honest kept a₀) (c.handBack callee call) fun _ => True := by
  unfold Context.handBack
  split
  · refine Keeps.get_bind fun m _ => ?_
    split
    · exact .pure trivial
    · exact (Context.dropTop_keeps call.stack).bind fun _ _ =>
        (Context.resolveCell_keeps _).bind fun v hv => Context.push_keeps hT hc fun _ => hv
  · exact .pure trivial

namespace Job

/-- Executing a token. -/
theorem token_ends {t : Token} (h : InOrder honest kept rest m) (hc : Hosted rest c)
    (hf : kept → (Job.token c t).effect? m ≠ some (.scope .forget)) :
    (Job.token c t).start.Ends m (fun jobs m' => After honest kept (jobs ++ rest) m m')
      fun _ m' => After honest kept rest m m' := by
  refine ends_checkRunning_bind (fun _ => .refl h) fun hrun => ?_
  rw [effect?, hrun] at hf
  rw [ends_bind, ends_locating]
  exact (Context.compileToken_ends h.moved (h.anchored hc) t hf).mono
    (fun _ _ hr => hr.after_located t.location h hc) fun _ _ hm => hm.after h

/-- Running a block or a word. -/
theorem value_ends {v : Value} (h : InOrder honest kept rest m) (hc : Hosted rest c)
    (hf : kept → (Job.value c v).effect? m ≠ some (.scope .forget)) :
    (Job.value c v).start.Ends m (fun jobs m' => After honest kept (jobs ++ rest) m m')
      fun _ m' => After honest kept rest m m' := by
  refine (Context.runValue_ends h.moved (h.seated hc) v fun hk name hv => ?_).mono
    (fun _ _ hr => hr.after h hc) fun _ _ hm => hm.after h
  rcases hv with rfl | rfl
  · exact hf hk
  · exact hf hk

/-- Running the code of a scope. -/
theorem body_ends (h : InOrder honest kept rest m) (hc : Hosted rest c) :
    (Job.body c).start.Ends m (fun jobs m' => After honest kept (jobs ++ rest) m m')
      fun _ m' => After honest kept rest m m' := by
  refine ends_checkRunning_bind (fun _ => .refl h) fun _ => ?_
  rw [ends_bind, ends_getScope]
  refine ⟨fun s hs => Or.inl ⟨h.consCode hc hs fun i hi => ?_, .refl [] _⟩, fun _ => .refl h⟩
  exact List.mem_map.mpr ⟨i, hi, rfl⟩

/-- One instruction. -/
theorem code_ends {is : List Instruction} (h : InOrder honest kept (.code c is :: rest) m)
    (hf : kept → (Job.code c is).effect? m ≠ some (.scope .forget)) :
    (Job.code c is).start.Ends m (fun jobs m' => After honest kept (jobs ++ rest) m m')
      fun _ m' => After honest kept rest m m' := by
  have hrest : InOrder honest kept rest m := h.tail rfl
  have hc : Hosted rest c := h.fits.1.hosted rfl
  cases is with
  | nil => exact .refl hrest
  | cons i is =>
    refine ends_checkRunning_bind (fun _ => .refl hrest) fun hrun => ?_
    rw [effect?, hrun] at hf
    obtain ⟨s, hs, his⟩ := h.code List.mem_cons_self
    have hb := h.steady.backed ⟨s, hs, Or.inl (his i List.mem_cons_self)⟩
    -- what is left of the code, if anything is, stays in front of the rest
    have htail : ∃ back, (if is.isEmpty then [] else [.code c is]) ++ rest = back ∧
        InOrder honest kept back m ∧ Hosted back c ∧ Agenda.calls back = Agenda.calls rest := by
      split
      · exact ⟨rest, rfl, hrest, hc, rfl⟩
      · exact ⟨_, rfl, hrest.consCode hc hs fun j hj => his j (List.mem_cons_of_mem _ hj),
          hc.mono (List.subset_cons_self _ _), rfl⟩
    obtain ⟨back, heq, hback, hcback, hcalls⟩ := htail
    rw [ends_bind, ends_locating]
    refine (Context.runCell_ends hrest.moved (hrest.seated hc) hb hf).mono (fun jobs m' hr => ?_)
      fun _ _ hm => hm.after hrest
    rw [← hcalls] at hr
    rw [ends_pure, before_eq, List.append_assoc, heq]
    exact hr.after_located i.location hback hcback

/-- The end of a call. -/
theorem leave_ends {callee : Context} {call : Call}
    (h : InOrder honest kept (.leave c callee call :: rest) m) :
    (Job.leave c callee call).start.Ends m (fun jobs m' => After honest kept (jobs ++ rest) m m')
      fun _ m' => After honest kept rest m m' := by
  have hend : (do Context.endCall call; c.handBack callee call; dropCallStack call).Ends m
      (fun _ m' => After honest kept rest m m') fun _ m' => After honest kept rest m m' :=
    endCall_after h fun a₀ hT hc =>
      (handBack_keeps hT hc callee call).bind fun _ _ => dropCallStack_keeps call
  have hstart : (Job.leave c callee call).start =
      (do Context.endCall call; c.handBack callee call; dropCallStack call) >>= fun _ => pure [] :=
    by rw [bind_assoc]; simp only [bind_assoc]; rfl
  rw [hstart, ends_bind]
  exact hend

end Job

end Start

/-- Where a job runs, words reach values. -/
theorem InOrder.handles {job : Job} (h : InOrder honest kept (job :: rest) m)
    (hcall : job.call? = none) (hc : job.context? = some c) :
    Handles (Stays honest kept m.arena) (Known m.arena) c :=
  ((h.tail hcall).seated (h.fits.1.hosted hc)).handles h.steady.tree

/-- **A job that is started leaves a machine that is in order with what is left to do then.** -/
theorem Job.start_ends {job : Job} (h : InOrder honest kept (job :: rest) m)
    (hf : kept → job.effect? m ≠ some (.scope .forget)) :
    job.start.Ends m (fun jobs m' => After honest kept (jobs ++ rest) m m')
      fun _ m' => After honest kept rest m m' := by
  have hT := h.steady.tree
  have htop : Hosted rest .top := Or.inl rfl
  have hself (hcall : job.call? = none) : InOrder honest kept rest m := h.tail hcall
  have hhost {c : Context} (hc : job.context? = some c) : Hosted rest c := h.fits.1.hosted hc
  have hquiet (hcall : job.call? = none) {jobs : List Job} {c : Context} (hc : Hosted rest c)
      (hjobs : AllSimple c jobs) : After honest kept (jobs ++ rest) m m :=
    .simple (hself hcall) hc (hself hcall).moved.toStepped hjobs
  cases job with
  | cell | finish => exact h.fits.1.shaped.elim
  | token c t => exact token_ends (hself rfl) (hhost rfl) hf
  | value c v => exact value_ends (hself rfl) (hhost rfl) hf
  | body c => exact body_ends (hself rfl) (hhost rfl)
  | code c is => exact code_ends h hf
  | leave c callee call => exact leave_ends h
  | stamp | awaitWorkers | report | awaitProcesses => exact hquiet rfl htop .nil
  | raise f => exact .refl (hself rfl)
  | test c condition act =>
    exact hquiet rfl (hhost rfl) (.cons (simple_value _) (.cons simple_here .nil))
  | resumeInput c after => exact hquiet rfl (hhost rfl) (.cons simple_here .nil)
  | source c cursor =>
    refine source_ends (fun t after => ?_) (hquiet rfl htop .nil) fun _ => .refl (hself rfl)
    exact hquiet rfl (hhost rfl) (.cons simple_here (.cons simple_here .nil))
  | readInput c cursor =>
    refine readInput_ends (fun t after => ?_) (hquiet rfl htop .nil) fun _ => .refl (hself rfl)
    exact hquiet rfl (hhost rfl) (.cons simple_here (.cons simple_here .nil))
  | load c path =>
    refine load_ends (fun cursor => ?_) (hquiet rfl htop .nil) fun _ => .refl (hself rfl)
    exact hquiet rfl (hhost rfl) (.cons simple_here .nil)
  | discard c vs =>
    have hrest := hself rfl
    unfold Job.start
    dsimp only
    rw [ends_bind]
    exact (Context.discardAll_keeps (Moved.prunable hT) c vs m hrest.moved).mono
      (fun pools _ hm => .simple hrest htop hm.1.toStepped (allSimple_closePools pools))
      fun _ _ hm => .nothing hrest hm.toStepped
  | push c v =>
    have hpush : Keeps (Stays honest kept m.arena) (c.push v) fun _ => True :=
      Context.push_keeps hT ((hself rfl).seated (hhost rfl)) fun _ => .of_ne h.fits.1.shaped
    exact Keeps.after (hself rfl) htop (hpush.bind fun _ _ => .pure .nil)
  | choose c condition act =>
    have H := h.handles rfl rfl
    exact Keeps.after (hself rfl) (hhost rfl) (Job.choose_keeps H.popBool .nil
      (.cons (simple_value _) (.cons simple_here .nil)))
  | count c runnable counter limit step =>
    have H := h.handles rfl rfl
    exact Keeps.after (hself rfl) (hhost rfl) (Job.count_keeps H.pushWord .nil fun _ =>
      .cons (simple_value _) (.cons simple_here .nil))
  | receive c size =>
    have H := h.handles rfl rfl
    refine Keeps.after (hself rfl) htop (H.size.bind fun n _ => ?_)
    split
    · exact (checkRunning_keeps c).bind fun _ _ => .pure .nil
    · exact .pure .nil
  | sleep c deadline =>
    exact Keeps.after (hself rfl) htop ((checkRunning_keeps c).bind fun _ _ => .pure .nil)
  | closePool id => exact Keeps.after (hself rfl) htop (shutPool_keeps id)

/-! ## 4. After a failure -/

/-- What follows an action that is carried out after a failure depends on how the action ends. -/
theorem Action.Ends.settled {α : Type} {x : Action α} {y : StateM Machine (Status × List Job)}
    {g : α → Status × List Job} {e : Failure → Status × List Job} {R : List Job → Machine → Prop}
    (hx : x.Ends m (fun v m' => R (g v).2 m') fun f m' => R (e f).2 m')
    (hok : ∀ v m', x.outcome m = (.ok v, m') → y.run m = (g v, m'))
    (herror : ∀ f m', x.outcome m = (.error f, m') → y.run m = (e f, m')) :
    R (y.run m).1.2 (y.run m).2 := by
  rcases hx.outcome with ⟨v, m', ho, h⟩ | ⟨f, m', ho, h⟩
  · rw [hok v m' ho]
    exact h
  · rw [herror f m' ho]
    exact h

namespace Job

variable {R : List Job → Machine → Prop} {call : Call} {vs : List Value} {id : PoolId}

/-- After a failure a call still ends. -/
theorem settle_leave (h : (do Context.endCall call; dropCallStack call : Action Unit).Ends m
    (fun _ => R []) fun _ => R []) (c callee : Context) (f : Failure) :
    R ((settle f (.leave c callee call)).run m).1.2 ((settle f (.leave c callee call)).run m).2 := by
  refine h.settled (R := R) (g := fun _ => (.error f, [])) (e := fun _ => (.error f, []))
    (fun _ _ ho => ?_) fun _ _ ho => ?_
  all_goals exact congrArg (fun r => ((Except.error f, ([] : List Job)), r.2)) ho

/-- What a control word has popped is let go of. -/
theorem settle_discard (h : (c.discardAll vs).Ends m (fun pools => R (closePools pools)) fun _ => R [])
    (f : Failure) :
    R ((settle f (.discard c vs)).run m).1.2 ((settle f (.discard c vs)).run m).2 := by
  refine h.settled (R := R) (g := fun pools => (.error f, closePools pools)) (e := fun e => (.error e, []))
    (fun _ _ ho => ?_) fun _ _ ho => ?_
  all_goals
    simp only [settle, StateT.run, bind, StateT.bind]
    rw [ho]
    rfl

/-- Pools are shut down. -/
theorem settle_closePool (h : (shutPool id).Ends m R fun _ => R []) (f : Failure) :
    R ((settle f (.closePool id)).run m).1.2 ((settle f (.closePool id)).run m).2 := by
  refine h.settled (R := R) (g := fun jobs => (.error f, jobs)) (e := fun _ => (.error f, []))
    (fun _ _ ho => ?_) fun _ _ ho => ?_
  all_goals
    simp only [settle, StateT.run, bind, StateT.bind]
    rw [ho]
    rfl

/-- The failure of a token is reported, and the input goes on, unless the process has been stopped. -/
theorem settle_resumeInput (hstopped : R [] m) (c : Context) (after : Cursor) (f : Failure)
    (hon : R [.readInput c after] { m with output := m.output ++ f.text ++ "\n" }) :
    R ((settle f (.resumeInput c after)).run m).1.2 ((settle f (.resumeInput c after)).run m).2 := by
  by_cases hs : (f.kind == .stopped || c.isStopped m) = true
  · have hrun : (settle f (.resumeInput c after)).run m = ((.ok (), []), m) := by
      show StateT.run (if (f.kind == .stopped || c.isStopped m) = true then _ else _) m = _
      rw [if_pos hs]
      rfl
    rw [hrun]
    exact hstopped
  · have hrun : (settle f (.resumeInput c after)).run m =
        ((.ok (), [.readInput c after]), { m with output := m.output ++ f.text ++ "\n" }) := by
      show StateT.run (if (f.kind == .stopped || c.isStopped m) = true then _ else _) m = _
      rw [if_neg hs]
      rfl
    rw [hrun]
    exact hon

end Job

/-- **What a job does after a failure keeps the machine in order as well.** -/
theorem Job.settle_after {job : Job} (h : InOrder honest kept (job :: rest) m) (f : Failure) :
    After honest kept (((job.settle f).run m).1.2 ++ rest) m ((job.settle f).run m).2 := by
  have hT := h.steady.tree
  have htop : Hosted rest .top := Or.inl rfl
  have hself (hcall : job.call? = none) : InOrder honest kept rest m := h.tail hcall
  cases job with
  | cell | finish => exact h.fits.1.shaped.elim
  | leave c callee call =>
    have hend : (do Context.endCall call; dropCallStack call : Action Unit).Ends m
        (fun _ m' => After honest kept rest m m') fun _ m' => After honest kept rest m m' :=
      endCall_after h fun a₀ _ _ => dropCallStack_keeps call
    exact settle_leave (R := fun jobs => After honest kept (jobs ++ rest) m) hend c callee f
  | discard c vs =>
    have hrest := hself rfl
    have hend := (Context.discardAll_keeps (Moved.prunable hT) c vs m hrest.moved).mono
      (fun pools _ hm => After.simple hrest htop hm.1.toStepped (allSimple_closePools pools))
      fun _ _ hm => After.nothing hrest hm.toStepped
    exact settle_discard (R := fun jobs => After honest kept (jobs ++ rest) m) hend f
  | closePool id =>
    exact settle_closePool (R := fun jobs => After honest kept (jobs ++ rest) m)
      (Keeps.after (hself rfl) htop (shutPool_keeps id)) f
  | report pid =>
    simp only [settle]
    split
    · exact .aside (hself rfl) rfl rfl
    · exact .refl (hself rfl)
  | resumeInput c after =>
    have hrest := hself rfl
    have hc : Hosted rest c := h.fits.1.hosted rfl
    have hread : InOrder honest kept (.readInput c after :: rest) m :=
      hrest.cons ⟨fun he => (by cases he; exact hc), trivial⟩ rfl fun _ _ he => (by cases he)
    exact settle_resumeInput (R := fun jobs => After honest kept (jobs ++ rest) m) (.refl hrest) c after f
      (.trans hT (.refl [] _) rfl (.aside hread rfl rfl))
  | _ => exact .refl (hself rfl)

/-! ## 5. A step -/

/-- A thread that takes a step has something to do. -/
theorem Thread.agenda_of_step {t t' : Thread} (hstep : t.step m = some (t', m')) :
    ∃ job rest, t.agenda = job :: rest := by
  unfold Thread.step at hstep
  split at hstep
  · cases hstep
  · rename_i job rest hagenda
    exact ⟨job, rest, hagenda⟩

/-- **A step of a thread of the top level leaves the machine in order with what is left to do.** -/
theorem Thread.step_after {t t' : Thread} (h : InOrder honest kept t.agenda m)
    (hstep : t.step m = some (t', m')) (hf : kept → t.effect? m ≠ some (.scope .forget)) :
    After honest kept t'.agenda m m' := by
  unfold Thread.step at hstep
  unfold Thread.effect? at hf
  cases hagenda : t.agenda with
  | nil =>
    rw [hagenda] at hstep
    cases hstep
  | cons job rest =>
    rw [hagenda] at h hstep hf
    dsimp only at hstep
    split at hstep
    · cases hstep
    · rename_i hblocked
      have hperform : t.perform job rest m = (t', m') := Option.some.inj hstep
      unfold Thread.perform at hperform
      cases hstatus : t.status with
      | ok u =>
        rw [hstatus] at hf hperform
        dsimp only at hf hperform
        rw [if_neg hblocked] at hf
        have hend := Job.start_ends h hf
        unfold Ends at hend
        cases hrun : job.start.run m with
        | ok jobs m₁ =>
          rw [hrun] at hperform hend
          cases hperform
          show After honest kept (Job.before jobs rest) m m'
          rw [Job.before_eq]
          exact hend
        | error f m₁ =>
          rw [hrun] at hperform hend
          cases hperform
          exact hend
      | error f =>
        rw [hstatus] at hperform
        cases hperform
        have hsettle := Job.settle_after h f
        show After honest kept (Job.before ((job.settle f).run m).1.2 rest) m _
        rw [Job.before_eq]
        exact hsettle

/-- In order, no process has been spawned. -/
theorem InOrder.not_lastIs_one (h : InOrder honest kept agenda m)
    (hlast : m'.processes.last = m.processes.last) : ¬ LastIs 1 m' := by
  intro hspawned
  rw [LastIs, hlast, h.processes] at hspawned
  cases hspawned

/-- The same where no process id has been handed out. -/
theorem InOrder.step {t t' : Thread} (h : InOrder honest kept t.agenda m)
    (hstep : t.step m = some (t', m')) (hf : kept → t.effect? m ≠ some (.scope .forget))
    (hlast : m'.processes.last = m.processes.last) :
    InOrder honest kept t'.agenda m' ∧ Arena.Follows [] m.arena m'.arena :=
  (t.step_after h hstep hf).resolve_right (h.not_lastIs_one hlast)

/-- An embedder pushes a value. Unless it is known, the machine is not honest. -/
theorem InOrder.push (h : InOrder honest kept [] m) {v : Value} (hv : honest → Known m.arena v) :
    InOrder honest kept [] ((Context.top.push v).outcome m).2 ∧
      m.arena.Still ((Context.top.push v).outcome m).2.arena := by
  have hT := h.steady.tree
  have hend := Context.push_keeps hT (Context.seated_top hT) hv m h.moved.stays
  have hstays : Stays honest kept m.arena ((Context.top.push v).outcome m).2 := by
    unfold Ends at hend
    unfold Action.outcome
    cases hrun : (Context.top.push v).run m with
    | ok u m' =>
      rw [hrun] at hend
      exact hend.1
    | error f m' =>
      rw [hrun] at hend
      exact hend
  exact ⟨h.stepped (hstays.moved hT h.moved).toStepped, hstays.still⟩

end ScopeStack
