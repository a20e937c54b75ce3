import ScopeStack.Proofs.Footprint

/-!
# The changes that a step makes

What a job does, it does to the arena in the ways listed, and the jobs it leaves run where it runs,
or in a call it has made.

* `Callee`: where the code of a call runs; `Job.Issued`: the jobs that a job may leave; `Ran`: what
  running something comes to. **A call that is listed is one that a job left will end.**
* `Starts.runWord`, `Starts.runCell`, `Starts.compileToken`: **names, cells and tokens.**
* `Job.start_runs`, `Job.settle_ran`, and for a step of a thread `Thread.step_ran`: **so do all
  jobs**, also after a failure.
-/

namespace ScopeStack

open ScopeStack.Action

variable {a₀ : Arena} {p : ScopeId} {c d : Context} {talks : Prop} {spare : StackId → Prop}
  {m m' : Machine}

/-! ## 1. Calls -/

/-- Where the code of a call runs that was made in the context `c` by a job that started with `a₀`: on
a new stack in front of those of the caller, or on the stacks of the caller. -/
structure Callee (a₀ : Arena) (c callee : Context) (call : Call) : Prop where
  process : callee.process = c.process
  block : callee.scope = call.block
  scope : callee.scope ≠ c.process
  inner : callee.scope ≠ rootScope
  isolated : call.shares = false → callee.callStacks = call.stack :: c.callStacks ∧
    callee.base = c.base ∧ a₀.lastStack < call.stack
  shared : call.shares = true → c.callStacks ≠ [] →
    callee.callStacks = c.callStacks ∧ callee.base = c.base

namespace Starts

variable (hS : Starts a₀ p c)
include hS

/-- The scope of the process is never called, nor is the top level. -/
theorem ne_process (hm : Edited talks spare c a₀ m) {h k : ScopeId} {s : Scope}
    (hr : m.arena.resolveBlock c.scope h = .ok k) (hs : m.arena.get? k = some s)
    (hrun : s.running = false) : k ≠ c.process ∧ k ≠ rootScope := by
  obtain ⟨rfl, -, -, hne, -⟩ := (hS.tree hm).of_resolveBlock hr
  refine ⟨?_, hne⟩
  rw [hS.placed.process]
  rintro rfl
  rcases hS.head_now hm with hroot | ⟨t, ht, hrun'⟩
  · exact hne hroot
  · cases hs.symm.trans ht
    rw [hrun] at hrun'
    cases hrun'

/-- The stacks of a caller that has none but its own: this one, and nothing behind it. -/
theorem shared_of_bare (hm : Edited talks spare c a₀ m) (hbare : c.callStacks = []) {s : Scope}
    (hs : m.arena.get? c.scope = some s) :
    (if s.spawned then none else s.parent) = none ∧ c.scope = p := by
  obtain ⟨hscope, -⟩ := hS.placed.bare hbare
  refine ⟨?_, hscope⟩
  rcases hS.head_now hm with hroot | ⟨t, ht, hrun⟩
  · obtain ⟨r, hr, hparent, -⟩ := (hS.tree hm).root
    rw [hscope, hroot] at hs
    cases hs.symm.trans hr
    rw [hparent, ite_self]
  · rw [hscope] at hs
    cases hs.symm.trans ht
    rw [if_pos ((hS.regular_now hm).running ht hrun).2.1]

/-- **Looking for a block to call.** -/
theorem prepareCall (hm : Edited talks spare c a₀ m) (h : Handle) :
    (c.prepareCall h).Ends m
      (fun r m' => Edited talks spare c a₀ m' ∧ Callee a₀ c r.1 r.2 ∧ Placed m'.arena p r.1)
      fun _ m' => Edited talks spare c a₀ m' := by
  have hR := hS.regular_now hm
  have hT := hR.tree
  have hc := hS.placed_now hm
  unfold Context.prepareCall
  rw [ends_bind, ends_inArena]
  refine ⟨fun block hr => ?_, fun _ _ => hm⟩
  rw [ends_bind, ends_getScope]
  refine ⟨fun s hs => ?_, fun _ => hm⟩
  dsimp only
  split
  · exact hm
  rename_i hrun
  have hrun : s.running = false := Bool.not_eq_true _ ▸ hrun
  obtain ⟨hne, hinner⟩ := hS.ne_process hm hr hs hrun
  obtain ⟨rfl, -, hl, -, -⟩ := hT.of_resolveBlock hr
  split
  · unfold Context.sharedStacks
    split
    · rename_i σ rest heq
      exact ⟨hm, ⟨rfl, rfl, hne, hinner, fun h => (by cases h), fun _ _ => ⟨heq.symm, rfl⟩⟩, hc.process,
        hT.forest.le_last hs, fun _ => hl, fun hσ => hc.stack_le (heq ▸ hσ), heq ▸ hc.nodup,
        fun hs hσ => hc.apart hs (heq ▸ hσ), fun h => (by cases h), heq ▸ hc.base⟩
    · rename_i hbare
      rw [bind_assoc, ends_bind, ends_getScope]
      refine ⟨fun t ht => ?_, fun _ => hm⟩
      obtain ⟨hbase, hscope⟩ := hS.shared_of_bare hm hbare ht
      rw [pure_bind, ends_pure, hbase]
      refine ⟨hm, ⟨rfl, rfl, hne, hinner, fun h => (by cases h), fun _ h => absurd hbare h⟩, hc.process,
        hT.forest.le_last hs, fun _ => hl, fun hσ => ?_, List.nodup_cons.mpr ⟨List.not_mem_nil, .nil⟩,
        fun {k u} hu hσ => ?_, fun h => (by cases h), Or.inl rfl⟩
      · cases List.mem_singleton.mp hσ
        exact hR.stack_le ht
      · exact (hR.stack_inj hu ht (List.mem_singleton.mp hσ)).trans hscope
  · rw [ends_bind, ends_get, ends_bind, ends_modifyArena, ends_pure]
    have hfresh {k : ScopeId} {u : Scope} (hu : m.arena.get? k = some u) :
        u.stack ≠ m.arena.lastStack + 1 := Nat.ne_of_lt (Nat.lt_succ_of_le (hR.stack_le hu))
    have hnew : m.arena.lastStack + 1 ∉ c.callStacks := fun hσ =>
      Nat.not_succ_le_self _ (hc.stack_le hσ)
    refine ⟨hm.step .newStack rfl, ⟨rfl, rfl, hne, hinner, fun _ => ⟨rfl, rfl, ?_⟩, fun h => (by cases h)⟩,
      hc.process, hT.forest.le_last hs, fun _ => (Arena.Still.newStack _).linked hl, fun hσ => ?_,
      List.nodup_cons.mpr ⟨hnew, hc.nodup⟩, fun {k u} hu hσ => ?_, fun h => (by cases h), ?_⟩
    · exact Nat.lt_succ_of_le (hS.drifts hm).lastStack
    · rcases List.mem_cons.mp hσ with rfl | hσ
      · exact Nat.le_refl _
      · exact Nat.le_succ_of_le (hc.stack_le hσ)
    · exact hc.apart hu ((List.mem_cons.mp hσ).resolve_left (hfresh hu))
    · refine hc.base.imp_right fun ⟨hb, hown⟩ => ⟨hb, fun u hu hσ => ?_⟩
      exact hown u hu ((List.mem_cons.mp hσ).resolve_left (hfresh hu))

/-- **A call begins.** It is listed with its block. -/
theorem callBlock (hm : Edited talks spare c a₀ m) (h : Handle) :
    (c.callBlock h).Ends m
      (fun jobs m' => Edits True talks spare c a₀ m'.arena ∧ ∃ callee call,
        jobs = [.body callee, .leave c callee call] ∧ Callee a₀ c callee call ∧
        Placed m'.arena p callee ∧
        ∀ k, m'.arena.callsOf k = Arena.callsOn [call] k ++ a₀.callsOf k)
      fun _ m' => Edited talks spare c a₀ m' := by
  unfold Context.callBlock Context.beginCall
  rw [bind_assoc]
  refine (hS.prepareCall hm h).bind ?_
  rintro ⟨callee, call⟩ m₁ ⟨hm₁, hcallee, hplaced⟩
  rw [bind_assoc, Context.enterCall, bind_assoc, ends_bind, ends_getScope]
  refine ⟨fun s hs => ?_, fun _ => hm₁⟩
  rw [ends_bind, ends_modifyScope, pure_bind, ends_pure]
  have hrefill := Arena.Refills.setCalls m₁.arena call.block fun calls => call.stack :: calls
  refine ⟨.relist trivial hm₁.listing hrefill (.modify _ _ fun _ => rfl), callee, call, rfl, hcallee,
    hplaced.drifts (hS.tree hm₁) (.refills hrefill) (hS.head_now hm₁), fun k => ?_⟩
  rw [Arena.callsOf_setCalls hs fun calls => call.stack :: calls, hS.callsOf hm₁, Arena.callsOn_cons]
  by_cases hk : k = call.block
  · rw [if_pos hk, if_pos hk.symm]
    rfl
  · rw [if_neg hk, if_neg (Ne.symm hk)]
    rfl

end Starts

/-- The job runs in this context, if in any, and ends neither a call nor a process. -/
def Job.In (c : Context) : Job → Prop
  | .leave _ _ _ | .finish _ _ => False
  | job => ∀ d, job.context? = some d → d = c

/-- A job that code in the context `c` may leave, since a job started with `a₀`: one that runs here,
or one of the two that make up a call. -/
inductive Job.Issued (a₀ a : Arena) (p : ScopeId) (c : Context) : Job → Prop where
  | here {job : Job} : job.In c → Issued a₀ a p c job
  | body {callee : Context} {call : Call} : Callee a₀ c callee call → Placed a p callee →
      Issued a₀ a p c (.body callee)
  | leave {callee : Context} {call : Call} : Callee a₀ c callee call → Placed a p callee →
      Issued a₀ a p c (.leave c callee call)

/-- All these jobs run in the context `c`, but for the bodies of calls that end right behind them. These
run in blocks. -/
inductive Job.Nests (c : Context) : List Job → Prop where
  | nil : Nests c []
  | here {job : Job} {jobs : List Job} : job.In c → Nests c jobs → Nests c (job :: jobs)
  | call {callee : Context} {call : Call} {jobs : List Job} : callee.scope = call.block →
      callee.scope ≠ rootScope → Nests c jobs → Nests c (.body callee :: .leave c callee call :: jobs)

/-- Changes have been made, and these jobs are left. The calls that have begun are those that the jobs
will end. -/
structure Ran (talks : Prop) (spare : StackId → Prop) (p : ScopeId) (c : Context) (a₀ : Arena)
    (jobs : List Job) (m : Machine) : Prop where
  edits : Edits True talks spare c a₀ m.arena
  issued : ∀ job ∈ jobs, job.Issued a₀ m.arena p c
  nests : Job.Nests c jobs
  calls (k : ScopeId) : m.arena.callsOf k = Arena.callsOn (Agenda.calls jobs) k ++ a₀.callsOf k

namespace Job.Nests

/-- Jobs that all run here. -/
theorem of_in {jobs : List Job} (h : ∀ job ∈ jobs, job.In c) : Nests c jobs := by
  induction jobs with
  | nil => exact .nil
  | cons job jobs ih =>
    exact .here (h job List.mem_cons_self) (ih fun x hx => h x (List.mem_cons_of_mem _ hx))

theorem append {jobs more : List Job} (h : Nests c jobs) (hmore : Nests c more) :
    Nests c (jobs ++ more) := by
  induction h with
  | nil => exact hmore
  | here hjob _ ih => exact .here hjob ih
  | call hblock hinner _ ih => exact .call hblock hinner ih

end Job.Nests

theorem Job.Simple.in {job : Job} (h : job.Simple c) : job.In c := by
  cases job with
  | push d v =>
    intro e he
    cases he
    exact h.1
  | leave | cell | finish | code | body => exact h.elim
  | _ => exact h

/-- Jobs that all run here end no call. -/
theorem Agenda.calls_of_in {jobs : List Job} (h : ∀ job ∈ jobs, job.In c) : calls jobs = [] := by
  refine List.filterMap_eq_nil_iff.mpr fun job hj => ?_
  cases job with
  | leave => exact (h _ hj).elim
  | _ => rfl

namespace Ran

/-- Jobs that all run here. -/
theorem here (hS : Starts a₀ p c) (hm : Edited talks spare c a₀ m) {jobs : List Job}
    (h : ∀ job ∈ jobs, job.In c) : Ran talks spare p c a₀ jobs m where
  edits := hm.listing
  issued job hj := .here (h job hj)
  nests := .of_in h
  calls k := by
    rw [Agenda.calls_of_in h, hS.callsOf hm]
    rfl

theorem simple (hS : Starts a₀ p c) (hm : Edited talks spare c a₀ m) {jobs : List Job}
    (hjobs : Job.AllSimple c jobs) : Ran talks spare p c a₀ jobs m :=
  here hS hm fun job hj => (hjobs job hj).in

/-- Nothing has happened in the arena. -/
theorem outside (hS : Starts m.arena p c) (h : m'.arena = m.arena) {jobs : List Job}
    (hjobs : Job.AllSimple c jobs) : Ran talks spare p c m.arena jobs m' :=
  simple hS (Edited.congr (m := m) .refl h) hjobs

/-- More jobs that run here. -/
theorem append {jobs more : List Job} (h : Ran talks spare p c a₀ jobs m)
    (hmore : ∀ job ∈ more, job.In c) : Ran talks spare p c a₀ (jobs ++ more) m where
  edits := h.edits
  issued job hj := (List.mem_append.mp hj).elim (h.issued job) fun hj => .here (hmore job hj)
  nests := h.nests.append (.of_in hmore)
  calls k := by
    rw [Agenda.calls_append, Agenda.calls_of_in hmore, List.append_nil]
    exact h.calls k

/-- Stamps. -/
theorem located {jobs : List Job} {l : Option Location} (h : Ran talks spare p c a₀ jobs m) :
    Ran talks spare p c a₀ (Job.located l jobs) m := by
  unfold Job.located
  split
  · rename_i hnil
    rw [List.isEmpty_iff.mp hnil] at h
    exact h
  · refine h.append fun job hj => ?_
    obtain ⟨l', -, rfl⟩ := List.mem_map.mp hj
    exact fun d hd => by cases hd

end Ran

namespace Starts

variable (hS : Starts a₀ p c)
include hS

theorem runBlock (hm : Edited talks spare c a₀ m) (h : Handle) :
    (c.callBlock h).Ends m (Ran talks spare p c a₀) fun _ => Edited talks spare c a₀ := by
  refine (hS.callBlock hm h).mono ?_ fun _ _ h => h
  rintro jobs m₁ ⟨hm₁, callee, call, rfl, hcallee, hplaced, hcalls⟩
  refine ⟨hm₁, fun job hj => ?_, .call hcallee.block hcallee.inner .nil, hcalls⟩
  rcases List.mem_cons.mp hj with rfl | hj
  · exact .body hcallee hplaced
  · cases List.mem_singleton.mp hj
    exact .leave hcallee hplaced

theorem runPush (hm : Edited talks spare c a₀ m) (cell : Cell) :
    (c.pushCell cell >>= fun _ => (pure [] : Action (List Job))).Ends m (Ran talks spare p c a₀)
      fun _ => Edited talks spare c a₀ := by
  rw [ends_bind]
  exact (hS.pushCell cell m hm).mono (fun _ _ h => .simple hS h.1 .nil) fun _ _ h => h

/-- **Running a name.** -/
theorem runWord (hm : Edited talks spare c a₀ m) (name : String)
    (ht : ∀ e, c.effectOfName? m name = some e → e.talks = true → talks) :
    (c.runWord name).Ends m (Ran talks spare p c a₀) fun _ => Edited talks spare c a₀ := by
  unfold Context.runWord Context.findVariable
  rw [bind_assoc, ends_bind, ends_get, pure_bind]
  unfold Context.effectOfName? at ht
  cases hv : m.arena.findVariable c.scope name with
  | some cell =>
    cases cell with
    | block h => exact hS.runBlock hm h
    | _ => exact hS.runPush hm _
  | none =>
    rw [hv] at ht
    dsimp only at ht ⊢
    unfold Context.findOperation
    rw [bind_assoc, ends_bind, ends_get, pure_bind, ends_bind, ends_ofOption]
    refine ⟨fun op hop => ?_, fun _ => hm⟩
    refine (op.effect.edits hS (ht op.effect (by rw [hop]; rfl)) m hm).mono ?_ fun _ _ h => h
    rintro jobs m₁ ⟨hm₁, hjobs⟩
    exact .simple hS hm₁ hjobs

theorem runValue (hm : Edited talks spare c a₀ m) (v : Value)
    (ht : ∀ name e, v = .word name ∨ v = .str name → c.effectOfName? m name = some e →
      e.talks = true → talks) :
    (c.runValue v).Ends m (Ran talks spare p c a₀) fun _ => Edited talks spare c a₀ := by
  cases v with
  | block h => exact hS.runBlock hm h
  | word name => exact hS.runWord hm name fun e => ht name e (Or.inl rfl)
  | str name => exact hS.runWord hm name fun e => ht name e (Or.inr rfl)
  | bool | int | big | double => exact hm

/-- Executing a cell. -/
theorem runCell (hm : Edited talks spare c a₀ m) (cell : Cell)
    (ht : ∀ e, c.effectOfCell? m cell = some e → e.talks = true → talks) :
    (c.runCell cell).Ends m (Ran talks spare p c a₀) fun _ => Edited talks spare c a₀ := by
  cases cell with
  | word h =>
    show (c.resolveText h >>= c.runWord).Ends m _ _
    rw [ends_bind, Context.resolveText, ends_inArena]
    refine ⟨fun name hr => hS.runWord hm name fun e he => ht e ?_, fun _ _ => hm⟩
    rw [Context.effectOfCell?, hr]
    exact he
  | bool | int | big | double | str | block => exact hS.runPush hm _

/-! ## 2. Compiling -/

/-- The scope that code is compiled into is there, or was. -/
theorem target (hm : Edited talks spare c a₀ m) {r : Scope}
    (hr : m.arena.get? c.process = some r) :
    r.compileStack.headD c.scope ≤ m.arena.lastScope := by
  cases ho : r.compileStack with
  | nil => exact (hS.placed_now hm).scope_le
  | cons k rest =>
    have hk : k ∈ r.compileStack := by
      rw [ho]
      exact List.mem_cons_self
    exact ((hS.tree hm).open_le hr hk).1

theorem openBlock (kind : BlockKind) :
    Keeps (Edited talks spare c a₀) (c.openBlock kind) fun _ => True := by
  intro m hm
  unfold Context.openBlock Context.compileTarget
  rw [bind_assoc, ends_bind, ends_getScope]
  refine ⟨fun r hr => ?_, fun _ => hm⟩
  rw [pure_bind, ends_bind, ends_changeArena]
  have hle := hS.target hm hr
  obtain ⟨hA, hres⟩ := Arena.createChild_added hle kind.shares
  rw [hres]
  generalize (m.arena.createChild (r.compileStack.headD c.scope) kind.shares).2 = b at hA ⊢
  cases hs : m.arena.get? (r.compileStack.headD c.scope) with
  | none =>
    have hb : Edited talks spare c a₀ { m with arena := b } := hm.step (.stray hs hle hA) rfl
    exact ⟨fun child hchild => (by cases hchild), fun _ _ => hb⟩
  | some s =>
    refine ⟨fun child hchild => ?_, fun e he => (by cases he)⟩
    cases hchild
    rw [ends_bind, ends_getScope_some (hA.get?_of (hS.tree hm).forest hr), ends_modifyScope,
      ← hA.lastScope]
    exact ⟨hm.step (.opened hr hs hA) rfl, trivial⟩

/-- **A block is finished.** It has become an instruction, or goes to a scope that is there. -/
theorem finishBlock (hm : Edited talks spare c a₀ m) (kind : BlockKind) (location : Location) :
    (c.finishBlock kind location).Ends m
      (fun result m' => (result.2 = none ∧ Edited talks spare c a₀ m') ∨
        ∃ block parent r s t, result = (block, some parent) ∧ m.arena.get? c.process = some r ∧
          r.compileStack.head? = some block ∧ m.arena.get? block = some s ∧
          s.parent = some parent ∧ m.arena.get? parent = some t ∧
          m' = { m with arena := m.arena.finish c.process block parent })
      fun _ m' => Edited talks spare c a₀ m' := by
  have hT := hS.tree hm
  unfold Context.finishBlock
  rw [ends_bind, ends_getScope]
  refine ⟨fun r hr => ?_, fun _ => hm⟩
  rw [ends_bind, ends_ofOption]
  refine ⟨fun block hopen => ?_, fun _ => hm⟩
  rw [ends_bind, ends_getScope]
  refine ⟨fun s hs => ?_, fun _ => hm⟩
  have hne : block ≠ rootScope := (hT.open_le hr (List.mem_of_head? hopen)).2
  obtain ⟨parent, hp⟩ := hT.root_ne_parent hs hne
  split
  · exact hm
  rw [ends_bind, ends_modifyScope, ends_bind, ends_modifyScope, ends_bind, ends_getScope]
  have hget := Arena.get?_finish m.arena c.process block parent
  have hblock : (m.arena.finish c.process block parent).get? block = some { s with
      compileStack := if block = c.process then s.compileStack.tail else s.compileStack,
      compiling := false } := by
    rw [hget, hs, Option.map_some, if_pos rfl]
  have hfinish : m.arena.finish c.process block parent =
      ((m.arena.modify c.process fun s => { s with compileStack := s.compileStack.tail }).modify block
        fun s => { s with compiling := false }).makeKnown block
          (((m.arena.modify c.process fun s => { s with compileStack := s.compileStack.tail }).modify
            block fun s => { s with compiling := false }).chain parent) := rfl
  dsimp only
  generalize ((m.arena.modify c.process fun s => { s with compileStack := s.compileStack.tail }).modify
    block fun s => { s with compiling := false }) = b at hfinish ⊢
  have hb (k : ScopeId) : b.get? k = (m.arena.finish c.process block parent).get? k := by
    rw [hfinish]
    rfl
  have hm₁ : Edited talks spare c a₀ { m with arena := m.arena.finish c.process block parent } :=
    hm.step (.finished hr hopen hs hp) rfl
  have hstray : b.get? block ≠ none := by
    rw [hb, hblock]
    exact fun h => by cases h
  refine ⟨fun s₁ hs₁ => ?_, fun hnone => absurd hnone hstray⟩
  have hp₁ : s₁.parent = some parent := by
    rw [hb, hblock] at hs₁
    cases hs₁
    exact hp
  rw [hp₁, Option.getD_some, ends_bind, ends_registerBlock hs₁ hp₁]
  dsimp only
  rw [← hfinish, ends_bind, ends_getScope]
  refine ⟨fun u hu => ?_, fun _ => hm₁⟩
  split
  · rw [ends_bind, ends_modifyScope]
    exact Or.inl ⟨rfl, hm₁.step (.refill (.modify _ parent (·.append ⟨some location, .block block⟩)
      (fun _ => rfl) fun _ _ hb => Or.inr hb) (Arena.callsOf_modify _ parent fun _ => rfl)
      (.modify _ parent fun _ => rfl)) rfl⟩
  · rw [hget] at hu
    obtain ⟨t, ht, -⟩ := Option.map_eq_some_iff.mp hu
    exact Or.inr ⟨block, parent, r, s, t, rfl, hr, hopen, hs, hp, ht, rfl⟩

theorem closeBlock (kind : BlockKind) (location : Location) :
    Keeps (Edited talks spare c a₀) (c.closeBlock kind location) fun _ => True := by
  intro m hm
  unfold Context.closeBlock
  refine (hS.finishBlock hm kind location).bind ?_
  rintro ⟨block, result⟩ m₁ (⟨rfl, hm₁⟩ | ⟨block', parent, r, s, t, he, hr, hopen, hs, hp, ht, rfl⟩)
  · exact ⟨hm₁, trivial⟩
  cases he
  dsimp only
  have hm₁ : Edited talks spare c a₀ { m with arena := m.arena.finish c.process block parent } :=
    hm.step (.finished hr hopen hs hp) rfl
  by_cases hself : parent = c.scope
  · rw [Context.switchTo, if_pos hself]
    exact hS.pushCell (.block block) _ hm₁
  · -- the block belongs to a scope that does not run here, and goes to that scope's own stack
    rw [Context.switchTo, if_neg hself, Context.pushCell]
    refine Ends.bind (((c.onScope parent).pushTarget_ends _).mono (fun _ _ h => h)
      fun _ _ h => h ▸ hm₁) ?_
    rintro target m₁ ⟨rfl, htarget⟩
    cases target with
    | some pid =>
      refine Ends.bind ((Context.resolveCell_ends (hS.tree hm₁) (c.onScope parent) _).mono
        (fun _ _ h => h) fun _ _ h => h ▸ hm₁) ?_
      rintro v m₁ ⟨rfl, -⟩
      exact (hS.sendTo hm₁ (Or.inr (htarget fun h => by cases h)) _ pid v).mono
        (fun _ _ h => ⟨h, trivial⟩) fun _ _ h => h
    | none =>
      dsimp only
      unfold Context.ownStack
      show ((getScope parent >>= fun s => pure s.stack) >>= _).Ends _ _ _
      rw [bind_assoc, ends_bind, ends_getScope]
      refine ⟨fun u hu => ?_, fun _ => hm₁⟩
      have hstack : u.stack = t.stack := by
        rw [Arena.get?_finish, ht] at hu
        cases hu
        rfl
      rw [pure_bind, ends_modifyArena, hstack]
      exact ⟨hm.step (.delivered _ hr hopen hs hp ht) rfl, trivial⟩

/-- **Executing a token**: a delimiter, an atom that is compiled, or a cell that is run. -/
theorem compileToken (hm : Edited talks spare c a₀ m) (t : Token)
    (ht : ∀ e, c.effectOfToken? m t = some e → e.talks = true → talks) :
    (c.compileToken t).Ends m (Ran talks spare p c a₀) fun _ => Edited talks spare c a₀ := by
  have hR := hS.regular_now hm
  unfold Context.compileToken
  unfold Context.effectOfToken? at ht
  cases hlit : Literal.ofToken t with
  | blockOpen kind =>
    dsimp only
    rw [ends_bind]
    exact (hS.openBlock kind m hm).mono (fun _ _ h => .simple hS h.1 .nil) fun _ _ h => h
  | blockClose kind =>
    dsimp only
    rw [ends_bind]
    exact (hS.closeBlock kind t.location m hm).mono (fun _ _ h => .simple hS h.1 .nil) fun _ _ h => h
  | atom a =>
    rw [hlit] at ht
    dsimp only at ht ⊢
    have htarget := c.compileTarget_ends_of m
    refine Ends.bind (htarget.attained.mono (fun _ _ h => h) fun _ _ h => h ▸ hm) ?_
    rintro _ m₁ ⟨hrun, rfl, r, hr, rfl⟩
    rw [hrun] at ht
    dsimp only at ht
    have hatom : ((c.switchTo (r.compileStack.headD c.scope)).compileAtom a).Ends m₁
        (fun _ m' => Gains m₁ m') fun _ m' => Gains m₁ m' := Context.compileAtom_gains hR.tree a
    refine Ends.bind (hatom.attained.mono (fun _ _ h => h) fun _ _ h => hm.gains h) ?_
    rintro cell m₂ ⟨hrun₂, hg⟩
    rw [hrun₂] at ht
    dsimp only at ht
    have hm₂ := hm.gains hg
    rw [ends_bind, ends_getScope]
    refine ⟨fun s hs => ?_, fun _ => hm₂⟩
    by_cases hopen : s.compiling = true
    · rw [if_pos hopen, ends_bind, ends_modifyScope, ends_pure]
      exact .simple hS (hm₂.step (.refill (.modify _ _ (·.append ⟨some t.location, cell⟩)
        (fun _ => rfl) fun _ _ hb => Or.inr hb) (Arena.callsOf_modify _ _ fun _ => rfl)
        (.modify _ _ fun _ => rfl)) rfl) .nil
    · have hself : c.switchTo (r.compileStack.headD c.scope) = c := by
        rw [Context.switchTo_scope] at hs
        exact Context.switchTo_of_not_compiling (fun k t hk ht => hR.compiling hr hk ht) hg hs hopen
      rw [hself] at ht hs ⊢
      have hclosed : s.compiling = false := Bool.not_eq_true _ ▸ hopen
      rw [hs, Option.any_some, hclosed, if_neg (by decide)] at ht
      rw [hclosed, if_neg (by decide)]
      exact hS.runCell hm₂ cell ht

end Starts

/-! ## 3. Jobs -/

namespace Job

/-- The stack that goes when the job, the end of a call, is done. -/
def frees : Job → StackId → Prop
  | .leave _ _ call, σ => call.shares = false ∧ σ = call.stack
  | _, _ => False

/-- The arena once the call that ends with the job is off the list of its block. -/
def delisted (job : Job) (a : Arena) : Arena :=
  match job.call? with
  | some call => a.modify call.block fun s => { s with calls := s.calls.erase call.stack }
  | none => a

theorem delisted_of_none {job : Job} (h : job.call? = none) (a : Arena) : job.delisted a = a := by
  rw [delisted, h]

theorem delisted_refills (job : Job) (a : Arena) : a.Refills (job.delisted a) := by
  unfold delisted
  split
  · exact .setCalls a _ fun calls => calls.erase _
  · exact .refl a

theorem delisted_discreet (job : Job) (a : Arena) : a.Discreet c (job.delisted a) := by
  unfold delisted
  split
  · exact .modify a _ fun _ => rfl
  · exact .of_scopes fun _ => rfl

end Job

theorem Starts.delisted (hS : Starts a₀ p c) (job : Job) : Starts (job.delisted a₀) p c :=
  have hD := Arena.Drifts.refills (job.delisted_refills a₀)
  ⟨hS.regular.refills (job.delisted_refills a₀), hD.head hS.head,
    hS.placed.drifts hS.regular.tree hD hS.head⟩

/-- All that has changed since before the job. -/
theorem Ran.since {job : Job} {jobs : List Job} (h : Ran talks spare p c (job.delisted a₀) jobs m) :
    Edits True talks spare c a₀ m.arena :=
  h.edits.after_relist trivial (job.delisted_refills a₀) (job.delisted_discreet a₀)

/-- What a job comes to that is started here. -/
def Job.Runs (talks : Prop) (p : ScopeId) (c : Context) (job : Job) (m : Machine) : Prop :=
  job.start.Ends m (Ran talks job.frees p c (job.delisted m.arena)) fun _ =>
    Edited talks job.frees c (job.delisted m.arena)

namespace Job

section Start

variable (hS : Starts m.arena p c)
include hS

theorem token_runs {t : Token}
    (ht : ∀ e, (Job.token c t).effect? m = some e → e.talks = true → talks) :
    (Job.token c t).Runs talks p c m := by
  show (c.checkRunning >>= fun _ => locating t.location (c.compileToken t) >>= fun jobs =>
    pure (Job.located t.location jobs)).Ends m _ _
  rw [Job.effect?] at ht
  refine ends_checkRunning_bind (fun _ => .refl) fun hrun => ?_
  rw [hrun, if_neg (by decide)] at ht
  rw [ends_bind, ends_locating]
  have htoken : (c.compileToken t).Ends m (Ran talks (Job.token c t).frees p c m.arena)
      fun _ => Edited talks (Job.token c t).frees c m.arena := hS.compileToken .refl t ht
  exact htoken.mono (fun _ _ h => h.located) fun _ _ h => h

theorem code_runs {is : List Instruction}
    (ht : ∀ e, (Job.code c is).effect? m = some e → e.talks = true → talks) :
    (Job.code c is).Runs talks p c m := by
  cases is with
  | nil => exact Ran.outside hS rfl .nil
  | cons i rest =>
    show (c.checkRunning >>= fun _ => locating i.location (c.runCell i.cell) >>= fun jobs =>
      pure (before (Job.located i.location jobs) (if rest.isEmpty then [] else [.code c rest]))).Ends
        m _ _
    rw [Job.effect?] at ht
    refine ends_checkRunning_bind (fun _ => .refl) fun hrun => ?_
    rw [hrun, if_neg (by decide)] at ht
    rw [ends_bind, ends_locating]
    have hcell : (c.runCell i.cell).Ends m (Ran talks (Job.code c (i :: rest)).frees p c m.arena)
        fun _ => Edited talks (Job.code c (i :: rest)).frees c m.arena :=
      hS.runCell .refl i.cell ht
    refine hcell.mono (fun jobs m₁ h => ?_) fun _ _ h => h
    rw [ends_pure, before_eq]
    refine h.located.append fun job hj => ?_
    split at hj
    · cases hj
    · cases List.mem_singleton.mp hj
      exact simple_here

/-- The end of a call: it is taken off the list, its top value goes to the caller, and its stack goes. -/
theorem leave_runs (callee : Context) (call : Call) : (Job.leave c callee call).Runs talks p c m := by
  have hS' : Starts ((Job.leave c callee call).delisted m.arena) p c := hS.delisted _
  unfold Runs
  show (Context.endCall call >>= fun _ => c.handBack callee call >>= fun _ =>
    dropCallStack call >>= fun _ => pure []).Ends m _ _
  rw [ends_bind, Context.endCall, ends_modifyScope]
  change Ends _ { m with arena := (Job.leave c callee call).delisted m.arena } _ _
  generalize (Job.leave c callee call).delisted m.arena = a at hS' ⊢
  have hdrop (m₁ : Machine) (hm₁ : Edited talks (Job.leave c callee call).frees c a m₁) :
      (dropCallStack call >>= fun _ => (pure [] : Action (List Job))).Ends m₁
        (Ran talks (Job.leave c callee call).frees p c a)
        fun _ => Edited talks (Job.leave c callee call).frees c a := by
    unfold dropCallStack
    cases hshares : call.shares with
    | true => exact .simple hS' hm₁ .nil
    | false => exact .simple hS' (hm₁.step (.drop ⟨hshares, rfl⟩) rfl) .nil
  unfold Context.handBack
  cases hshares : call.shares with
  | true =>
    rw [if_neg (by decide), pure_bind]
    exact hdrop _ .refl
  | false =>
    rw [if_pos (by decide), ends_bind, ends_bind, ends_get]
    split
    · exact hdrop _ .refl
    · rename_i cell cells _
      rw [ends_bind, ends_modifyArena]
      have hspent : Edited talks (Job.leave c callee call).frees c a
          { m with arena := a.popCell call.stack } :=
        Edited.step (m := { m with arena := a }) .refl (.spend _ ⟨hshares, rfl⟩) rfl
      have hpush : Keeps (Edited talks (Job.leave c callee call).frees c a)
          (callee.resolveCell cell >>= c.push) fun _ => True :=
        (hS'.resolveCell callee cell).bind fun v _ => hS'.push v
      refine (hpush _ hspent).mono ?_ fun _ _ h => h
      rintro _ m₁ ⟨hm₁, -⟩
      exact hdrop m₁ hm₁

/-- An action that leaves simple jobs. -/
theorem runs_of_keeps {job : Job} (hcall : job.call? = none)
    (h : Keeps (Edited talks job.frees c m.arena) job.start (AllSimple c)) :
    job.Runs talks p c m := by
  rw [Runs, delisted_of_none hcall]
  exact (h m .refl).mono (fun _ _ h => .simple hS h.1 h.2) fun _ _ h => h

omit hS in
theorem shutPool_edited {spare : StackId → Prop} (id : PoolId) :
    Keeps (Edited talks spare c a₀) (shutPool id) (AllSimple c) := by
  intro m hm
  unfold shutPool
  rw [ends_bind, ends_get]
  show Edited talks spare c a₀ (m.closePool id).2 ∧ _
  exact ⟨hm.congr (Starts.arena_closePool m id), .cons (fun d h => by cases h) .nil⟩

theorem discard_edited {spare : StackId → Prop} (vs : List Value) :
    Keeps (Edited talks spare c m.arena) (c.discardAll vs >>= fun pools =>
      (pure (closePools pools) : Action (List Job))) (AllSimple c) :=
  (Context.discardAll_keeps hS.forgetful.toPrunable c vs).bind fun pools _ =>
    .pure (allSimple_closePools pools)

/-- **A job that is started makes such changes, and leaves jobs that run here or in a call.** -/
theorem start_runs {job : Job} (hjob : ∀ d, job.context? = some d → d = c)
    (hfin : ∀ s pid, job ≠ .finish s pid)
    (ht : ∀ e, job.effect? m = some e → e.talks = true → talks) : job.Runs talks p c m := by
  have H {spare : StackId → Prop} : Handles (Edited talks spare c m.arena) (· ≠ .block rootScope) c :=
    hS.handles
  cases hctx : job.context? with
  | none =>
    cases job with
    | stamp | awaitWorkers | report | awaitProcesses => exact runs_of_keeps hS rfl (.pure .nil)
    | raise f => exact runs_of_keeps hS rfl (.fail f)
    | closePool id => exact runs_of_keeps hS rfl (shutPool_edited id)
    | finish s pid => exact absurd rfl (hfin s pid)
    | _ => cases hctx
  | some d =>
    cases hjob d hctx
    cases job with
    | stamp | awaitWorkers | report | awaitProcesses | raise | closePool | finish => cases hctx
    | token d t =>
      cases hctx
      exact token_runs hS ht
    | source d cursor =>
      cases hctx
      exact runs_of_keeps hS rfl fun m hm => source_ends
        (fun _ _ => ⟨hm, .cons simple_here (.cons simple_here .nil)⟩) ⟨hm, .nil⟩ fun _ => hm
    | load d path =>
      cases hctx
      exact runs_of_keeps hS rfl fun m hm => load_ends
        (fun _ => ⟨hm, .cons simple_here .nil⟩) ⟨hm, .nil⟩ fun _ => hm
    | cell d x =>
      cases hctx
      exact hS.runCell .refl x ht
    | body d =>
      cases hctx
      show (c.checkRunning >>= fun _ => getScope c.scope >>= fun s =>
        pure [Job.code c s.code.toList]).Ends m _ _
      refine ends_checkRunning_bind (fun _ => .refl) fun _ => ?_
      rw [ends_bind, ends_getScope]
      refine ⟨fun s _ => .here hS .refl fun job hj => ?_, fun _ => .refl⟩
      cases List.mem_singleton.mp hj
      exact simple_here
    | code d is =>
      cases hctx
      exact code_runs hS ht
    | value d v =>
      cases hctx
      refine hS.runValue .refl v fun name e hv he => ?_
      rcases hv with rfl | rfl
      · exact ht e he
      · exact ht e he
    | leave d callee call =>
      cases hctx
      exact leave_runs hS callee call
    | discard d vs =>
      cases hctx
      exact runs_of_keeps hS rfl (discard_edited hS vs)
    | push d v =>
      cases hctx
      exact runs_of_keeps hS rfl ((hS.push v).bind fun _ _ => .pure .nil)
    | test d condition act =>
      cases hctx
      exact runs_of_keeps hS rfl (.pure (.cons simple_here (.cons simple_here .nil)))
    | choose d condition act =>
      cases hctx
      exact runs_of_keeps hS rfl (Job.choose_keeps H.popBool .nil
        (.cons simple_here (.cons simple_here .nil)))
    | count d runnable counter limit step =>
      cases hctx
      exact runs_of_keeps hS rfl (Job.count_keeps H.pushWord .nil fun _ =>
        .cons simple_here (.cons simple_here .nil))
    | receive d size =>
      cases hctx
      refine runs_of_keeps hS rfl (H.size.bind fun n _ => ?_)
      split
      · exact (checkRunning_keeps c).bind fun _ _ => .pure .nil
      · exact .pure .nil
    | sleep d deadline =>
      cases hctx
      exact runs_of_keeps hS rfl ((checkRunning_keeps c).bind fun _ _ => .pure .nil)
    | readInput d cursor =>
      cases hctx
      exact runs_of_keeps hS rfl fun m hm => readInput_ends
        (fun _ _ => ⟨hm, .cons simple_here (.cons simple_here .nil)⟩) ⟨hm, .nil⟩ fun _ => hm
    | resumeInput d after =>
      cases hctx
      exact runs_of_keeps hS rfl (.pure (.cons simple_here .nil))

/-- **So does a job that is passed over after a failure.** -/
theorem settle_ran {job : Job} (hjob : ∀ d, job.context? = some d → d = c)
    (hfin : ∀ s pid, job ≠ .finish s pid) (f : Failure) :
    Ran talks job.frees p c (job.delisted m.arena) ((job.settle f).run m).1.2
      ((job.settle f).run m).2 := by
  have hnone : Ran talks job.frees p c m.arena [] m := .outside hS rfl .nil
  cases job with
  | finish s pid => exact absurd rfl (hfin s pid)
  | leave d callee call =>
    have hS' : Starts ((Job.leave d callee call).delisted m.arena) p c := hS.delisted _
    have hdrop : (do Context.endCall call; dropCallStack call : Action Unit).Ends m
        (fun _ => Ran talks (Job.leave d callee call).frees p c
          ((Job.leave d callee call).delisted m.arena) [])
        fun _ => Ran talks (Job.leave d callee call).frees p c
          ((Job.leave d callee call).delisted m.arena) [] := by
      rw [ends_bind, Context.endCall, ends_modifyScope]
      change Ends _ { m with arena := (Job.leave d callee call).delisted m.arena } _ _
      generalize (Job.leave d callee call).delisted m.arena = a at hS' ⊢
      unfold dropCallStack
      cases hshares : call.shares with
      | true => exact .outside (m := { m with arena := a }) hS' rfl .nil
      | false =>
        have hdropped : Edited talks (Job.leave d callee call).frees c a
            { m with arena := a.dropStack call.stack } :=
          Edited.step (m := { m with arena := a }) .refl (.drop ⟨hshares, rfl⟩) rfl
        exact .simple hS' hdropped .nil
    exact settle_leave (R := Ran talks (Job.leave d callee call).frees p c
      ((Job.leave d callee call).delisted m.arena)) hdrop d callee f
  | discard d vs =>
    cases hjob d rfl
    have hdiscard : (c.discardAll vs).Ends m
        (fun _ m' => Edited talks (Job.discard c vs).frees c m.arena m' ∧ True)
        fun _ => Edited talks (Job.discard c vs).frees c m.arena :=
      Context.discardAll_keeps hS.forgetful.toPrunable c vs m .refl
    have hend : (c.discardAll vs).Ends m
        (fun pools => Ran talks (Job.discard c vs).frees p c m.arena (closePools pools))
        fun _ => Ran talks (Job.discard c vs).frees p c m.arena [] :=
      hdiscard.mono (fun pools _ hm => .simple hS hm.1 (allSimple_closePools pools))
        fun _ _ hm => .simple hS hm .nil
    exact settle_discard (R := Ran talks (Job.discard c vs).frees p c m.arena) hend f
  | closePool id =>
    have hend : (shutPool id).Ends m (Ran talks (Job.closePool id).frees p c m.arena)
        fun _ => Ran talks (Job.closePool id).frees p c m.arena [] :=
      (shutPool_edited id m .refl).mono (fun jobs _ hm => .simple hS hm.1 hm.2) fun _ _ hm =>
        .simple hS hm .nil
    exact settle_closePool (R := Ran talks (Job.closePool id).frees p c m.arena) hend f
  | report pid =>
    simp only [settle]
    split
    · exact .outside hS (by rfl) .nil
    · exact hnone
  | resumeInput d after =>
    cases hjob d rfl
    exact settle_resumeInput (R := Ran talks (Job.resumeInput c after).frees p c m.arena) hnone c after f
      (.outside hS (by rfl) (.cons simple_here .nil))
  | _ => exact hnone

end Start

end Job

/-! ## 4. Steps -/

/-- **The ways in which a thread takes a step.** -/
theorem Thread.step_cases {t t' : Thread} {job : Job} {rest : List Job}
    (hagenda : t.agenda = job :: rest) (hstep : t.step m = some (t', m')) :
    t.isBlocked m = false ∧
      ((t.status = .ok () ∧
        ((∃ jobs, job.start.run m = .ok jobs m' ∧ t' = { t with agenda := jobs ++ rest }) ∨
          ∃ f, job.start.run m = .error f m' ∧ t' = { t with status := .error f, agenda := rest })) ∨
      ∃ f, t.status = .error f ∧ m' = ((job.settle f).run m).2 ∧
        t' = { t with
          status := ((job.settle f).run m).1.1, agenda := ((job.settle f).run m).1.2 ++ rest }) := by
  unfold Thread.step at hstep
  rw [hagenda] at hstep
  dsimp only at hstep
  split at hstep
  · cases hstep
  rename_i hblocked
  refine ⟨Bool.not_eq_true _ ▸ hblocked, ?_⟩
  have hperform : t.perform job rest m = (t', m') := Option.some.inj hstep
  unfold Thread.perform at hperform
  cases hstatus : t.status with
  | ok u =>
    rw [hstatus] at hperform
    dsimp only at hperform
    refine Or.inl ⟨rfl, ?_⟩
    cases hrun : job.start.run m with
    | ok jobs m₁ =>
      rw [hrun] at hperform
      cases hperform
      exact Or.inl ⟨jobs, rfl, by rw [Job.before_eq]⟩
    | error f m₁ =>
      rw [hrun] at hperform
      cases hperform
      exact Or.inr ⟨f, rfl, rfl⟩
  | error f =>
    rw [hstatus] at hperform
    dsimp only at hperform
    refine Or.inr ⟨f, rfl, ?_⟩
    generalize (job.settle f).run m = r at hperform ⊢
    obtain ⟨⟨status, jobs⟩, m₁⟩ := r
    cases hperform
    exact ⟨rfl, by rw [Job.before_eq]⟩

/-- A step takes the first job and may put others in its place. -/
theorem Thread.step_agenda {t t' : Thread} {job : Job} {rest : List Job}
    (hagenda : t.agenda = job :: rest) (hstep : t.step m = some (t', m')) :
    ∃ jobs, t'.agenda = jobs ++ rest := by
  obtain ⟨-, ⟨-, ⟨jobs, -, rfl⟩ | ⟨f, -, rfl⟩⟩ | ⟨f, -, -, rfl⟩⟩ := Thread.step_cases hagenda hstep
  · exact ⟨jobs, rfl⟩
  · exact ⟨[], rfl⟩
  · exact ⟨_, rfl⟩

/-- Letting go of values, however running them has ended. -/
theorem Thread.step_discarded {t : Thread} {vs : List Value} {pools : List PoolId} {rest : List Job}
    (hrun : (c.discardAll vs).run m = .ok pools m') (hagenda : t.agenda = .discard c vs :: rest) :
    t.step m = some ({ t with agenda := Job.closePools pools ++ rest }, m') := by
  have hready : (t.step m).isSome := by
    rw [Thread.isSome_step, Thread.isReady, Thread.isDone, Thread.isBlocked, hagenda]
    cases t.status.isOk <;> rfl
  obtain ⟨⟨t', n⟩, hstep⟩ := Option.isSome_iff_exists.mp hready
  have hstart : (Job.discard c vs).start.run m = .ok (Job.closePools pools) m' := by
    show (c.discardAll vs >>= fun ids => pure (Job.closePools ids)).run m = _
    rw [EStateM.run_bind, hrun]
    rfl
  rw [hstep]
  obtain ⟨-, ⟨-, ⟨jobs, hok, rfl⟩ | ⟨f, hfailed, -⟩⟩ | ⟨f, hstatus, rfl, rfl⟩⟩ :=
    Thread.step_cases hagenda hstep
  · rw [hstart] at hok
    cases hok
    rfl
  · rw [hstart] at hfailed
    cases hfailed
  · have houtcome : (c.discardAll vs).outcome m = (.ok pools, m') := by
      rw [Action.outcome, hrun]
    have hsettle : ((Job.discard c vs).settle f).run m = ((.error f, Job.closePools pools), m') := by
      simp only [Job.settle, StateT.run, bind, StateT.bind, houtcome]
      rfl
    rw [hsettle, ← hstatus]

/-- **A step of a thread**: the changes it makes, and the jobs it puts in front of the others. -/
theorem Thread.step_ran {t t' : Thread} {job : Job} {rest : List Job} (hS : Starts m.arena p c)
    (hagenda : t.agenda = job :: rest) (hjob : ∀ d, job.context? = some d → d = c)
    (hfin : ∀ s pid, job ≠ .finish s pid)
    (ht : ∀ e, t.effect? m = some e → e.talks = true → talks)
    (hstep : t.step m = some (t', m')) :
    ∃ jobs, t'.agenda = jobs ++ rest ∧ Ran talks job.frees p c (job.delisted m.arena) jobs m' := by
  obtain ⟨hblocked, ⟨hstatus, hrun⟩ | ⟨f, hstatus, rfl, rfl⟩⟩ := Thread.step_cases hagenda hstep
  · rw [Thread.effect?, hstatus, hagenda, hblocked] at ht
    have hend := Job.start_runs hS hjob hfin ht
    unfold Job.Runs Ends at hend
    rcases hrun with ⟨jobs, hrun, rfl⟩ | ⟨f, hrun, rfl⟩
    · rw [hrun] at hend
      exact ⟨jobs, rfl, hend⟩
    · rw [hrun] at hend
      exact ⟨[], rfl, .simple (hS.delisted job) hend .nil⟩
  · exact ⟨_, rfl, Job.settle_ran hS hjob hfin f⟩

end ScopeStack
