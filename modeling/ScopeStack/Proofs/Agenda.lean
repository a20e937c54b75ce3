import ScopeStack.Proofs.Moves
import ScopeStack.Thread

/-!
# Agendas of the top level

Every job runs in the context of the top level or of a call that ends further down the agenda. So
what is left to do tells which calls are in progress, and a call is in progress for as long as there
is work to do in it.

* `Hosted`, `Job.Fits`, `Agenda.Fits`: each job has its place.
* `Agenda.calls`: the calls that end further down.
* `InOrder`: **the machine is steady, and its calls in progress are those of the agenda.**
  `Agenda.Fits.anchored`: where a job runs, code may run.
* `Job.source_ends`, `Job.readInput_ends`, `Job.load_ends`: what a job that reads leaves to be done.
  `Job.choose_keeps`, `Job.count_keeps`: what a loop leaves to be done.
-/

namespace ScopeStack

/-- The context of the top level. -/
def Context.top : Context := .ofProcess rootScope 0

/-! ## 1. Jobs in their places -/

/-- The context is that of the top level, or of a call that ends in this agenda. -/
def Hosted (rest : List Job) (c : Context) : Prop :=
  c = .top ∨ ∃ d call, Job.leave d c call ∈ rest

namespace Job

/-- The context a job runs in. -/
def context? : Job → Option Context
  | .token c _ | .source c _ | .load c _ | .cell c _ | .body c | .code c _ | .value c _
  | .leave c _ _ | .discard c _ | .push c _ | .test c _ _ | .choose c _ _ | .count c _ _ _ _
  | .receive c _ | .sleep c _ | .readInput c _ | .resumeInput c _ => some c
  | .stamp _ | .raise _ | .closePool _ | .awaitWorkers _ _ _ | .report _ | .finish _ _
  | .awaitProcesses _ => none

/-- The call that ends with this job. -/
def call? : Job → Option Call
  | .leave _ _ call => some call
  | _ => none

end Job

/-- Where the code of a call runs: in the block, on the stack of the call and on those that the
caller works on. -/
structure Call.RunsIn (call : Call) (c callee : Context) : Prop where
  scope : callee.scope = call.block
  process : callee.process = rootScope
  halt : callee.halt = c.halt
  callStacks : ∃ below, callee.callStacks = call.stack :: below ∧ below ⊆ c.callStacks

/-- What a job has to be like whatever its context is. Cells are run only by an embedder, and
processes end only where some were spawned. -/
def Job.Shaped : Job → Prop
  | .push _ v => ∀ h, v ≠ .block h
  | .leave c callee call => call.RunsIn c callee
  | .cell _ _ | .finish _ _ => False
  | _ => True

/-- The job has its place in front of the rest of an agenda. -/
structure Job.Fits (rest : List Job) (job : Job) : Prop where
  hosted {c : Context} : job.context? = some c → Hosted rest c
  shaped : job.Shaped

namespace Agenda

/-- Every job has its place. -/
def Fits : List Job → Prop
  | [] => True
  | job :: rest => job.Fits rest ∧ Fits rest

/-- The calls that end in an agenda, the innermost first. -/
def calls (agenda : List Job) : List Call := agenda.filterMap Job.call?

theorem mem_calls {agenda : List Job} {c callee : Context} {call : Call}
    (h : Job.leave c callee call ∈ agenda) : call ∈ calls agenda :=
  List.mem_filterMap.mpr ⟨_, h, rfl⟩

theorem calls_append (jobs rest : List Job) : calls (jobs ++ rest) = calls jobs ++ calls rest :=
  List.filterMap_append

end Agenda

theorem Hosted.mono {rest rest' : List Job} {c : Context} (h : Hosted rest c)
    (hsub : rest ⊆ rest') : Hosted rest' c := by
  rcases h with rfl | ⟨d, call, hm⟩
  · exact Or.inl rfl
  · exact Or.inr ⟨d, call, hsub hm⟩

theorem Hosted.of_nil {c : Context} (h : Hosted [] c) : c = .top := by
  rcases h with h | ⟨d, call, hm⟩
  · exact h
  · cases hm

/-! ## 2. The invariant -/

/-- The machine is steady, and agenda and machine agree. -/
structure InOrder (honest kept : Prop) (agenda : List Job) (m : Machine) : Prop where
  steady : m.arena.Steady honest kept
  calls : m.arena.InProgress (Agenda.calls agenda)
  processes : m.processes = rootTable
  fits : Agenda.Fits agenda
  code {c : Context} {rest : List Instruction} : Job.code c rest ∈ agenda →
    ∃ s, m.arena.get? c.scope = some s ∧ ∀ i ∈ rest, i.cell ∈ s.code.cells

theorem Context.seated_top {a : Arena} (hT : a.Tree) : Seated a .top :=
  ⟨hT.linked_root, rfl, fun hσ => absurd hσ List.not_mem_nil⟩

theorem Agenda.calls_cons_subset (job : Job) (rest : List Job) : calls rest ⊆ calls (job :: rest) := by
  intro call hm
  rw [← List.singleton_append, calls_append]
  exact List.mem_append_right _ hm

/-- Code may run in every context that an agenda hosts, as long as its calls are listed. -/
theorem Agenda.Fits.seated {a : Arena} (hO : a.Orderly) {agenda : List Job} (hfits : Fits agenda)
    (hcalls : ∀ call ∈ calls agenda, ∃ s, a.get? call.block = some s ∧ call.stack ∈ s.calls)
    {c : Context} (hc : Hosted agenda c) : Seated a c := by
  induction agenda generalizing c with
  | nil =>
    rw [hc.of_nil]
    exact Context.seated_top hO.tree
  | cons job rest ih =>
    have hrest {d : Context} (hd : Hosted rest d) : Seated a d :=
      ih hfits.2 (fun call hm => hcalls call (calls_cons_subset job rest hm)) hd
    rcases hc with rfl | ⟨d, call, hm⟩
    · exact Context.seated_top hO.tree
    · have hmem := mem_calls hm
      rcases List.mem_cons.mp hm with rfl | hm
      · -- the call that ends first: its stack is listed, and its caller is hosted by the rest
        obtain ⟨s, hs, hstack⟩ := hcalls call hmem
        obtain ⟨hscope, hprocess, -, below, hstacks, hbelow⟩ := hfits.1.shaped
        have hlinked : a.Linked call.block := by
          refine Classical.byContradiction fun hno => ?_
          rw [hO.uncalled hs hno] at hstack
          cases hstack
        refine ⟨hscope ▸ hlinked, hprocess, fun {σ} hσ => ?_⟩
        rw [hstacks] at hσ
        rcases List.mem_cons.mp hσ with rfl | hσ
        · exact ⟨call.block, s, hs, List.mem_cons_of_mem _ hstack, hlinked⟩
        · exact (hrest (hfits.1.hosted rfl)).listed (hbelow hσ)
      · exact hrest (Or.inr ⟨d, call, hm⟩)

/-- What an agenda hosts is the top level, or the block of a call. -/
theorem Agenda.Fits.runs {agenda : List Job} (hfits : Fits agenda) {c : Context}
    (hc : Hosted agenda c) : Arena.Runs (calls agenda) c.scope := by
  induction agenda with
  | nil =>
    rw [hc.of_nil]
    exact Or.inl rfl
  | cons job rest ih =>
    rcases hc with rfl | ⟨d, call, hm⟩
    · exact Or.inl rfl
    · rcases List.mem_cons.mp hm with rfl | hm
      · exact Or.inr ⟨call, List.mem_cons_self, hfits.1.shaped.scope.symm⟩
      · exact (ih hfits.2 (Or.inr ⟨d, call, hm⟩)).imp_right fun ⟨x, hx, he⟩ =>
          ⟨x, calls_cons_subset job rest hx, he⟩

/-- Code may run in the context for as long as these calls are in progress. -/
structure Anchored (cs : List Call) (c : Context) : Prop where
  seated {a : Arena} : a.Orderly → a.InProgress cs → Seated a c
  runs : Arena.Runs cs c.scope

/-- **Where a job of the agenda runs, code may run until the calls of the agenda end.** -/
theorem Agenda.Fits.anchored {agenda : List Job} (hfits : Fits agenda) {c : Context}
    (hc : Hosted agenda c) : Anchored (calls agenda) c := by
  refine ⟨fun {a} hO hC => ?_, ?_⟩
  · refine hfits.seated hO (fun call hm => ?_) hc
    obtain ⟨s, hs⟩ := hC.live hm
    exact ⟨s, hs, hC.mem_calls hm hs⟩
  · exact hfits.runs hc

theorem InOrder.moved {honest kept : Prop} {agenda : List Job} {m : Machine}
    (h : InOrder honest kept agenda m) : Moved honest kept m.arena (Agenda.calls agenda) m :=
  .refl h.steady h.calls h.processes

/-! ## 3. Jobs that read -/

namespace Job

variable {c : Context} {m : Machine} {Q : List Job → Machine → Prop} {E : Failure → Machine → Prop}

/-- **Reading changes nothing**: the next token is to be run, and the rest to be read behind it; or the
text is at its end, or it is malformed. -/
theorem source_ends {cursor : Cursor} (hnext : ∀ t after, Q [.token c t, .source c after] m)
    (hend : Q [] m) (hfail : ∀ f, E f m) : (source c cursor).start.Ends m Q E := by
  unfold start
  dsimp only
  split
  · exact hnext _ _
  · exact hend
  · exact hfail _

/-- The read loop asks for its input one token at a time. -/
theorem readInput_ends {cursor : Cursor} (hnext : ∀ t after, Q [.token c t, .resumeInput c after] m)
    (hend : Q [] m) (hfail : ∀ f, E f m) : (readInput c cursor).start.Ends m Q E := by
  unfold start
  dsimp only
  rw [Action.ends_bind, Action.ends_get]
  split
  · exact hend
  · split
    · exact hnext _ _
    · exact hend
    · exact hfail _

/-- A file is to be read, unless it is missing or no text. -/
theorem load_ends {path : String} (htext : ∀ cursor, Q [.source c cursor] m) (hmissing : Q [] m)
    (hfail : ∀ f, E f m) : (load c path).start.Ends m Q E := by
  unfold start
  dsimp only
  rw [Action.ends_bind, Action.ends_get]
  split
  · exact hmissing
  · split
    · exact htext _
    · exact hfail _

/-! ## 4. Loops -/

/-- **A loop is over if its condition does not hold**, or else it runs its body and starts over. -/
theorem choose_keeps {P : Machine → Prop} {good : List Job → Prop} {condition act : Value}
    (hbool : Action.Keeps P c.popBool fun _ => True) (hover : good [])
    (hround : good [.value c act, .test c condition act]) :
    Action.Keeps P (choose c condition act).start good := by
  refine hbool.bind fun b _ => ?_
  cases b
  · exact .pure hover
  · exact .pure hround

/-- **A counted loop is over**, or it pushes its counter and goes on from another one behind a run. -/
theorem count_keeps {P : Machine → Prop} {good : List Job → Prop} {runnable : Value}
    {counter : Option Int64} {limit step : Int64}
    (hpush : ∀ w, Action.Keeps P (c.push (.int w)) fun _ => True) (hover : good [])
    (hround : ∀ next, good [.value c runnable, .count c runnable next limit step]) :
    Action.Keeps P (count c runnable counter limit step).start good := by
  cases counter with
  | none => exact .pure hover
  | some w =>
    unfold start
    dsimp only
    split
    · exact .pure hover
    · exact (hpush w).bind fun _ _ => .pure (hround _)

end Job

end ScopeStack
