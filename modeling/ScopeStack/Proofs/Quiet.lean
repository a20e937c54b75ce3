import ScopeStack.Proofs.Definitions
import ScopeStack.Proofs.Faithful
import ScopeStack.Proofs.TopLevel
import ScopeStack.Proofs.Transcripts

/-!
# What the top level does between two calls

Literals are pushed, operands are taken, blocks that are not needed go: while the top level is in no call,
little happens, and it does not fail.

* `Thread.Quiet`: steps without a call. `Executes.quiet`: tokens that leave nothing to do are such steps.
* `Onward`: what is there stays, and no block is open. `Compiling.executes_bool`,
  `Compiling.executes_literal`: a boolean and a block are pushed. `Compiling.popBool`,
  `Compiling.popRunnable`: they are taken again.
* `Aside`: blocks have gone, and no variable has but in them. `Ensemble.Reachable.discards`: **letting go
  of a block leaves the top level as it was**; with a block that has only been written no variable goes
  (`Aside.of_writtenAs`).
-/

namespace ScopeStack

open ScopeStack.Action

variable {m m' m₁ m₂ : Machine} {t t' t₀ t₁ : Thread} {rest : List Job}

/-! ## 1. Steps without a call -/

/-- The thread gets from here to there, and on the way it is in no call. -/
inductive Thread.Quiet (t₀ : Thread) (m₀ : Machine) : Thread → Machine → Prop where
  | refl : Agenda.calls t₀.agenda = [] → Quiet t₀ m₀ t₀ m₀
  | step {t t' : Thread} {m m' : Machine} : Quiet t₀ m₀ t m → t.step m = some (t', m') →
      Agenda.calls t'.agenda = [] → Quiet t₀ m₀ t' m'

theorem Agenda.calls_tokens (c : Context) (ts : List Token) : calls (ts.map (.token c)) = [] := by
  refine List.filterMap_eq_nil_iff.mpr fun job hj => ?_
  obtain ⟨t, -, rfl⟩ := List.mem_map.mp hj
  rfl

theorem Agenda.calls_push {job : Job} (hjob : job.call? = none) (h : calls rest = []) :
    calls (job :: rest) = [] := by
  rw [calls_cons, hjob, h]
  rfl

theorem Agenda.calls_tail {job : Job} (h : calls (job :: rest) = []) : calls rest = [] :=
  List.subset_nil.mp (h ▸ calls_cons_subset job rest)

/-- In a number of steps an agenda does not get shorter by more than that. -/
theorem Thread.length_le_of_steps {n k : Nat} (h : t.steps n m = (k, t', m')) :
    t.agenda.length ≤ n + t'.agenda.length := by
  induction n generalizing t m with
  | zero =>
    cases h
    omega
  | succ n ih =>
    rw [steps_succ] at h
    cases hstep : t.step m with
    | none =>
      rw [hstep] at h
      cases h
      omega
    | some r =>
      rw [hstep] at h
      obtain ⟨job, rest, hagenda⟩ := agenda_of_step hstep
      obtain ⟨jobs, heq⟩ := step_agenda hagenda hstep
      have hle := ih h
      rw [heq, List.length_append] at hle
      rw [hagenda, List.length_cons]
      omega

/-- A call begins with the next step, if there is one. -/
def Thread.BeforeCall (t : Thread) (m : Machine) : Prop :=
  ∀ r, t.step m = some r → Agenda.calls r.1.agenda ≠ []

/-- Is the thread in no call now and in the next steps? -/
def Thread.staysQuiet : Nat → Thread → Machine → Bool
  | 0, t, _ => (Agenda.calls t.agenda).isEmpty
  | n + 1, t, m => (Agenda.calls t.agenda).isEmpty &&
    match t.step m with
    | none => true
    | some (t, m) => t.staysQuiet n m

namespace Thread.Quiet

theorem calls (h : Quiet t₀ m₁ t m) : Agenda.calls t.agenda = [] := by
  cases h with
  | refl hcalls | step _ _ hcalls => exact hcalls

theorem calls_first (h : Quiet t₀ m₁ t m) : Agenda.calls t₀.agenda = [] := by
  induction h with
  | refl hcalls => exact hcalls
  | step _ _ _ ih => exact ih

theorem trans (h : Quiet t₀ m₁ t m) (h' : Quiet t m t' m') : Quiet t₀ m₁ t' m' := by
  induction h' with
  | refl => exact h
  | step _ hstep hcalls ih => exact ih.step hstep hcalls

theorem single (hcalls : Agenda.calls t.agenda = []) (hstep : t.step m = some (t', m'))
    (hcalls' : Agenda.calls t'.agenda = []) : Quiet t m t' m' :=
  (refl hcalls).step hstep hcalls'

theorem reachable {us : List Thread} (h : Quiet t₀ m₁ t m)
    (hw : Ensemble.Reachable ⟨m₁, t₀, us⟩) : Ensemble.Reachable ⟨m, t, us⟩ := by
  induction h with
  | refl => exact hw
  | step _ hstep _ ih => exact ih.step hstep

/-- A job ends well and leaves nothing to do. -/
theorem done {job : Job} (hblocked : job.isBlocked none m = false) (hrun : job.start.run m = .ok [] m')
    (hjob : job.call? = none) (hrest : Agenda.calls rest = []) :
    Quiet { agenda := job :: rest } m { agenda := rest } m' :=
  single (Agenda.calls_push hjob hrest) (step_started hblocked hrun rest) hrest

/-- A job is passed over, or only concerns the failure. -/
theorem settled {job : Job} {f : Failure} {status : Status} (hwait : job.outlastsFailure = false)
    (hrun : (job.settle f).run m = ((status, []), m')) (hjob : job.call? = none)
    (hrest : Agenda.calls rest = []) :
    Quiet { status := .error f, agenda := job :: rest } m { status, agenda := rest } m' :=
  single (Agenda.calls_push hjob hrest) (step_settled hwait hrun rest) hrest

/-- After a failure tokens are passed over. -/
theorem passed (f : Failure) (ts : List Token) (m : Machine) :
    Quiet { status := .error f, agenda := ts.map (.token .top) } m
      { status := .error f, agenda := [] } m := by
  induction ts with
  | nil => exact .refl rfl
  | cons t ts ih => exact trans (settled rfl rfl rfl (Agenda.calls_tokens .top ts)) ih

/-- Where such steps begin: with the step that there is. -/
theorem cases_head (h : Quiet t₀ m₁ t m) : (t = t₀ ∧ m = m₁) ∨
    ∃ r, t₀.step m₁ = some r ∧ Agenda.calls r.1.agenda = [] ∧ Quiet r.1 r.2 t m := by
  induction h with
  | refl => exact Or.inl ⟨rfl, rfl⟩
  | step _ hstep hcalls ih =>
    rcases ih with ⟨rfl, rfl⟩ | ⟨r, hfirst, hr, hquiet⟩
    · exact Or.inr ⟨_, hstep, hcalls, .refl hcalls⟩
    · exact Or.inr ⟨r, hfirst, hr, hquiet.step hstep hcalls⟩

/-- **There is only one way to the first call.** -/
theorem unique (h : Quiet t₀ m₁ t m) (hlast : t.BeforeCall m) (h' : Quiet t₀ m₁ t' m')
    (hlast' : t'.BeforeCall m') : t' = t ∧ m' = m := by
  have hmeets : Quiet t' m' t m := by
    clear hlast'
    induction h' with
    | refl => exact h
    | step _ hstep hcalls ih =>
      rcases ih.cases_head with ⟨rfl, rfl⟩ | ⟨r, hfirst, -, hquiet⟩
      · exact absurd hcalls (hlast _ hstep)
      · cases hstep.symm.trans hfirst
        exact hquiet
  rcases hmeets.cases_head with ⟨rfl, rfl⟩ | ⟨r, hfirst, hcalls, -⟩
  · exact ⟨rfl, rfl⟩
  · exact absurd hcalls (hlast' r hfirst)

/-- If in each of these steps a job is done and none comes, no call begins. -/
theorem of_steps {n : Nat} (h : t.steps n m = (0, t', m'))
    (hlength : t.agenda.length = n + t'.agenda.length) (hcalls : Agenda.calls t.agenda = []) :
    Quiet t m t' m' := by
  induction n generalizing t m with
  | zero =>
    cases h
    exact .refl hcalls
  | succ n ih =>
    rw [steps_succ] at h
    cases hstep : t.step m with
    | none =>
      rw [hstep] at h
      cases h
    | some r =>
      rw [hstep] at h
      obtain ⟨job, rest, hagenda⟩ := agenda_of_step hstep
      obtain ⟨jobs, heq⟩ := step_agenda hagenda hstep
      -- a job that came could not be done in the steps that are left
      have hle := length_le_of_steps h
      rw [heq, List.length_append] at hle
      rw [hagenda, List.length_cons] at hlength
      have hnone : jobs = [] := List.length_eq_zero_iff.mp (by omega)
      rw [hnone, List.nil_append] at heq
      have hrest : Agenda.calls r.1.agenda = [] := by
        rw [heq]
        exact Agenda.calls_tail (hagenda ▸ hcalls)
      exact (single hcalls hstep hrest).trans (ih h (by rw [heq]; omega) hrest)

theorem of_staysQuiet {n : Nat} (h : t.staysQuiet n m = true) :
    Quiet t m (t.steps n m).2.1 (t.steps n m).2.2 := by
  induction n generalizing t m with
  | zero => exact .refl (List.isEmpty_iff.mp h)
  | succ n ih =>
    rw [staysQuiet, Bool.and_eq_true] at h
    have hcalls := List.isEmpty_iff.mp h.1
    rw [steps_succ]
    cases hstep : t.step m with
    | none => exact .refl hcalls
    | some r =>
      rw [hstep] at h
      have hnext := ih h.2
      exact (single hcalls hstep (hnext.calls_first)).trans hnext

end Thread.Quiet

/-- Tokens that leave nothing to do. -/
theorem Executes.quiet {ts : List Token} (h : Executes ts m m') (rest : List Job)
    (hrest : Agenda.calls rest = []) :
    Thread.Quiet { agenda := ts.map (.token .top) ++ rest } m { agenda := rest } m' := by
  refine .of_steps (h rest 0) ?_ ?_
  · rw [List.length_append, List.length_map, Nat.add_zero]
  · rw [Agenda.calls_append, Agenda.calls_tokens, hrest]
    rfl

/-! ## 2. What is pushed and taken -/

/-- What is there stays, nothing but the arena changes, and no block and no push session is open. -/
structure Onward (m m' : Machine) : Prop where
  grown : m.arena.Extends m'.arena
  machine : m' = { m with arena := m'.arena }
  compiling : Compiling m' []

namespace Onward

theorem refl (hm : Compiling m []) : Onward m m := ⟨.refl _, rfl, hm⟩

theorem trans (h : Onward m m₁) (h' : Onward m₁ m₂) : Onward m m₂ where
  grown := h.grown.trans h'.grown
  machine := by
    rw [h'.machine, h.machine]
  compiling := h'.compiling

/-- The tables grow. -/
theorem grows (hm : Compiling m []) (hrest : m' = { m with arena := m'.arena })
    (hG : m.arena.Grows m'.arena) : Onward m m' where
  grown := .grows hG
  machine := hrest
  compiling := by
    obtain ⟨r, hr, hpush, hopen⟩ := hm.root
    obtain ⟨t, ht, hts, -⟩ := hG.get? hr
    rw [hts] at ht
    have hrun := hm.running
    refine ⟨hG.still.tree hm.tree, ?_, ⟨_, ht, hpush, hopen⟩, trivial⟩
    rw [hrest]
    exact hrun

/-- The cells of a stack change. -/
theorem modifyStack (hm : Compiling m []) (σ : StackId) (f : CellStack → CellStack) :
    Onward m { m with arena := m.arena.modifyStack σ f } where
  grown := .modifyStack ..
  machine := rfl
  compiling := ⟨(Arena.Still.modifyStack ..).tree hm.tree, hm.running, hm.root, trivial⟩

end Onward

namespace Compiling

/-- **A boolean is pushed.** -/
theorem pushes_bool (hm : Compiling m []) (b : Bool) :
    (Context.top.pushCell (.bool b)).Ends m
      (fun _ m' => Onward m m' ∧ m'.arena.topCells = .bool b :: m.arena.topCells)
      fun _ _ => False := by
  obtain ⟨r, hr, hpush, -⟩ := hm.root
  exact (Context.ends_pushCell_top hr hpush).mpr
    ⟨Onward.modifyStack hm r.stack _, Arena.topCells_pushCell hr _⟩

theorem executes_bool (hm : Compiling m []) {t : Token} {b : Bool}
    (ht : Literal.ofToken t = .atom (.bool b)) :
    ∃ m', Executes [t] m m' ∧ Onward m m' ∧ m'.arena.topCells = .bool b :: m.arena.topCells := by
  have hrun : (Context.top.compileToken t).Ends m
      (fun jobs m' => jobs = [] ∧ Onward m m' ∧ m'.arena.topCells = .bool b :: m.arena.topCells)
      fun _ _ => False := by
    refine Context.ends_compileToken_top hm.tree hm.openBlocks ht fun cell m₁ hrest hG his _ => ?_
    cases (show cell = .bool b from his)
    have hon := Onward.grows hm hrest hG
    refine (hon.compiling.pushes_bool b).bind fun _ m' hm' => ?_
    exact ⟨rfl, hon.trans hm'.1, hm'.2.trans (congrArg _ (hG.topCells hm.tree))⟩
  obtain ⟨jobs, m', hok, rfl, hm'⟩ := hrun.run_eq_ok
  exact ⟨m', .single hm.running (.of_run hok), hm'⟩

/-- **The top cell is taken**, if it resolves. -/
theorem pops (hm : Compiling m []) {x : Cell} {S : List Cell} (hcells : m.arena.topCells = x :: S)
    {v : Value} (hx : ∀ m₁, Onward m m₁ →
      (Context.top.resolveCell x).Ends m₁ (fun w n => w = v ∧ n = m₁) fun _ _ => False) :
    Context.top.pop.Ends m (fun w m' => w = v ∧ Onward m m' ∧ m'.arena.topCells = S)
      fun _ _ => False := by
  obtain ⟨r, hr, -⟩ := hm.root
  have hon : Onward m { m with arena := m.arena.popCell r.stack } := .modifyStack hm r.stack _
  have hrest : (m.arena.popCell r.stack).topCells = S := by
    rw [Arena.topCells_popCell hr, hcells]
    rfl
  rw [Arena.topCells_eq hr] at hcells
  rw [Context.ends_pop_top hr hcells]
  refine (hx _ hon).mono ?_ fun _ _ h => h
  rintro w n ⟨rfl, rfl⟩
  exact ⟨rfl, hon, hrest⟩

theorem popBool (hm : Compiling m []) {b : Bool} {S : List Cell}
    (hcells : m.arena.topCells = .bool b :: S) :
    Context.top.popBool.Ends m (fun c m' => c = b ∧ Onward m m' ∧ m'.arena.topCells = S)
      fun _ _ => False := by
  refine (hm.pops (v := .bool b) hcells fun _ _ => ⟨rfl, rfl⟩).bind ?_
  rintro _ m' ⟨rfl, hm'⟩
  exact ⟨rfl, hm'⟩

end Compiling

/-! ## 3. Blocks that have been written -/

/-- A block as it is written: its delimiters, and what is in between. -/
structure BlockLiteral where
  kind : BlockKind
  opening : Token
  closing : Token
  opens : Literal.ofToken opening = .blockOpen kind
  closes : Literal.ofToken closing = .blockClose kind
  body : Script

/-- Its tokens in order. -/
def BlockLiteral.tokens (b : BlockLiteral) : List Token := b.opening :: b.body.tokens ++ [b.closing]

/-- The block has been written at the top level, which knows it. Nothing runs it, and nothing in it has
variables. -/
structure Arena.WrittenAs (a : Arena) (k : ScopeId) (b : BlockLiteral) : Prop where
  known : rootScope ∈ a.scopesKnowing k
  block : ∃ s, a.get? k = some s ∧ s.parent = some rootScope ∧ s.sharesStack = b.kind.shares ∧
    s.compiling = false ∧ s.running = false ∧ b.body.Spells a.owning a k s.code.toList
  blank {j : ScopeId} {t : Scope} : a.get? j = some t → k ≤ j → ∀ name, t.binding? name = none

namespace Arena.WrittenAs

variable {a b : Arena} {k : ScopeId} {B : BlockLiteral}

theorem grown (h : a.WrittenAs k B) (hE : a.Extends b) : b.WrittenAs k B where
  known := hE.known h.known
  block := by
    obtain ⟨s, hs, hp, hshares, hclosed, hrun, hspells⟩ := h.block
    obtain ⟨t, ht, hfixed, hcode⟩ := hE.get? hs
    refine ⟨t, ht, (Scope.eq_of_fixed (·.parent) (fun _ => rfl) hfixed).trans hp,
      (Scope.eq_of_fixed (·.sharesStack) (fun _ => rfl) hfixed).trans hshares, (hcode hclosed).2,
      (Scope.eq_of_fixed (·.running) (fun _ => rfl) hfixed).trans hrun, ?_⟩
    rw [(hcode hclosed).1]
    exact hE.spells hspells
  blank {j t} ht hj name := by
    rcases hE.new ht with ⟨s, hs⟩ | ⟨-, p, σ, shares, -, hfixed⟩
    · obtain ⟨t', ht', hfixed, -⟩ := hE.get? hs
      cases ht.symm.trans ht'
      exact (Scope.eq_of_fixed (·.binding? name) (fun _ => rfl) hfixed).trans (h.blank hs hj name)
    · exact Scope.eq_of_fixed (·.binding? name) (fun _ => rfl) hfixed

theorem resolveBlock (h : a.WrittenAs k B) (hT : a.Tree) : a.resolveBlock rootScope k = .ok k := by
  obtain ⟨s, hs, -⟩ := h.block
  exact hT.resolveBlock_eq_ok hT.linked_root ⟨s, hs⟩ h.known

theorem ne_root (h : a.WrittenAs k B) (hT : a.Tree) : k ≠ rootScope := by
  obtain ⟨s, hs, hp, -⟩ := h.block
  obtain ⟨r, hr, hroot, -⟩ := hT.root
  rintro rfl
  cases hs.symm.trans hr
  cases hp.symm.trans hroot

/-- **Its call begins**, with the stack of the top level as it is. -/
theorem callBlock (h : m.arena.WrittenAs k B) (hT : m.arena.Tree)
    (hstack : ∀ r, m.arena.get? rootScope = some r → r.stack ≤ m.arena.lastStack) :
    (Context.top.callBlock k).Ends m
      (fun jobs m' => ∃ callee call, jobs = [.body callee, .leave .top callee call] ∧
        callee.scope = k ∧ m'.arena.topCells = m.arena.topCells) fun _ _ => False := by
  obtain ⟨s, hs, -, -, -, hrun, -⟩ := h.block
  obtain ⟨r, hr, -⟩ := hT.root
  have hprepare : (Context.top.prepareCall k).Ends m (fun x n => x.1.scope = k ∧ x.2.block = k ∧
      (∀ id, n.arena.get? id = m.arena.get? id) ∧ n.arena.topCells = m.arena.topCells)
      fun _ _ => False := by
    unfold Context.prepareCall
    rw [ends_bind, ends_inArena_ok (h.resolveBlock hT), ends_bind, ends_getScope_some hs, hrun]
    dsimp only
    rw [if_neg (by decide)]
    split
    · unfold Context.sharedStacks
      show ((getScope rootScope >>= _) >>= _).Ends m _ _
      rw [bind_assoc, ends_bind, ends_getScope_some hr]
      exact ⟨rfl, rfl, fun _ => rfl, rfl⟩
    · refine ⟨rfl, rfl, fun _ => rfl, ?_⟩
      have hr' : m.arena.newStack.2.get? rootScope = some r := hr
      refine (Arena.topCells_eq hr').trans ?_
      rw [Arena.topCells_eq hr, Arena.stackCells_newStack,
        if_neg (Nat.ne_of_lt (Nat.lt_succ_of_le (hstack r hr)))]
  unfold Context.callBlock Context.beginCall
  rw [bind_assoc]
  refine hprepare.bind ?_
  rintro ⟨callee, call⟩ n ⟨rfl, hcall, hscopes, hcells⟩
  dsimp only
  unfold Context.enterCall
  rw [bind_assoc, bind_assoc, ends_bind, ends_getScope_some ((hscopes call.block).trans (hcall ▸ hs))]
  refine ⟨callee, call, rfl, rfl, ?_⟩
  have hroot := (hscopes rootScope).trans hr
  rw [← hcells, Arena.topCells_eq hroot]
  refine Arena.topCells_eq ?_
  rw [Arena.get?_modify, if_neg (hcall ▸ h.ne_root hT).symm, hroot]

end Arena.WrittenAs

namespace Compiling

/-- **A block literal is pushed.** -/
theorem executes_literal (hm : Compiling m []) (hstack : ∀ r, m.arena.get? rootScope = some r →
      r.stack ≤ m.arena.lastStack) (B : BlockLiteral) :
    ∃ m' k, Executes B.tokens m m' ∧ Onward m m' ∧
      m'.arena.topCells = .block k :: m.arena.topCells ∧ m'.arena.WrittenAs k B := by
  obtain ⟨r, hr, -⟩ := hm.root
  obtain ⟨m', hexec, hgrown, hrest, hm', hcells, hknown, s, hs, hp, hshares, hclosed, hspells⟩ :=
    hm.executes_block hr B.opens B.closes B.body
  obtain ⟨r', hr', hfixed, -⟩ := hgrown.get? hr
  refine ⟨m', _, hexec, ⟨hgrown, hrest, hm'⟩, ?_, hknown,
    ⟨s, hs, hp, hshares, hclosed, ?_, hspells⟩, fun {j t} ht hj name => ?_⟩
  · rw [Arena.topCells_eq hr, Arena.topCells_eq hr',
      Scope.eq_of_fixed (·.stack) (fun _ => rfl) hfixed, hcells _ (hstack r hr), if_pos rfl]
  · obtain ⟨p, σ, shares, hfixed⟩ := hgrown.fixed_new hm.tree.forest hs (Nat.lt_succ_self _)
    exact Scope.eq_of_fixed (·.running) (fun _ => rfl) hfixed
  · obtain ⟨p, σ, shares, hfixed⟩ := hgrown.fixed_new hm.tree.forest ht hj
    exact Scope.eq_of_fixed (·.binding? name) (fun _ => rfl) hfixed

/-- It is taken again, as something that can be run. -/
theorem popRunnable (hm : Compiling m []) {k : ScopeId} {B : BlockLiteral} (hk : m.arena.WrittenAs k B)
    {S : List Cell} (hcells : m.arena.topCells = .block k :: S) :
    Context.top.popRunnable.Ends m
      (fun v m' => v = .block k ∧ Onward m m' ∧ m'.arena.topCells = S) fun _ _ => False := by
  refine (hm.pops (v := .block k) hcells fun m₁ hon => ?_).bind ?_
  · show (inArena (·.resolveBlock rootScope k) >>= fun _ => pure (Value.block k)).Ends m₁ _ _
    have hres := (hk.grown hon.grown).resolveBlock hon.compiling.tree
    rw [ends_bind, ends_inArena_ok hres]
    exact ⟨rfl, rfl⟩
  · rintro _ m' ⟨rfl, hm'⟩
    exact ⟨rfl, hm'⟩

end Compiling

/-! ## 4. Blocks that go -/

/-- Blocks may have come and gone. The top level itself is as it was, all variables are as they were but
those of lost scopes that have gone, and nothing but the arena has changed. -/
structure Aside (lost : ScopeId → Prop) (m m' : Machine) : Prop where
  machine : m' = { m with arena := m'.arena }
  tree : m'.arena.Tree
  root {r : Scope} : m.arena.get? rootScope = some r → ∃ t, m'.arena.get? rootScope = some t ∧
    t.fixed = r.fixed ∧ t.compileStack = r.compileStack
  bindings (id : ScopeId) (name : String) :
    m'.arena.bindingAt? id name = m.arena.bindingAt? id name ∨
      (lost id ∧ m'.arena.get? id = none)
  gone {id : ScopeId} : id ≤ m.arena.lastScope → m.arena.get? id = none → m'.arena.get? id = none
  lastScope : m.arena.lastScope ≤ m'.arena.lastScope
  lastStack : m.arena.lastStack ≤ m'.arena.lastStack

theorem Onward.aside (hm : Compiling m []) (h : Onward m m') (lost : ScopeId → Prop) :
    Aside lost m m' where
  machine := h.machine
  tree := h.compiling.tree
  root {r} hr := by
    obtain ⟨t, ht, hfixed, -⟩ := h.grown.get? hr
    obtain ⟨r', hr', -, hopen⟩ := hm.root
    obtain ⟨t', ht', -, hopen'⟩ := h.compiling.root
    cases hr.symm.trans hr'
    cases ht.symm.trans ht'
    exact ⟨t, ht, hfixed, hopen'.trans hopen.symm⟩
  bindings id name := Or.inl (h.grown.binding? id name)
  gone {id} hle hnone := by
    cases ht : m'.arena.get? id with
    | none => rfl
    | some t =>
      rcases h.grown.new ht with ⟨s, hs⟩ | ⟨hlt, -⟩
      · cases hs.symm.trans hnone
      · exact absurd hle (Nat.not_le_of_lt hlt)
  lastScope := h.grown.lastScope
  lastStack := h.grown.lastStack

namespace Aside

variable {lost lost' : ScopeId → Prop} {k : ScopeId}

theorem refl (hT : m.arena.Tree) : Aside lost m m :=
  ⟨rfl, hT, fun hr => ⟨_, hr, rfl, rfl⟩, fun _ _ => Or.inl rfl, fun _ h => h, Nat.le_refl _,
    Nat.le_refl _⟩

theorem trans (hF : m.arena.Forest) (h : Aside lost m m₁) (h' : Aside lost m₁ m₂) :
    Aside lost m m₂ where
  machine := by
    rw [h'.machine, h.machine]
  tree := h'.tree
  root hr := by
    obtain ⟨t, ht, hfixed, hopen⟩ := h.root hr
    obtain ⟨u, hu, hfixed', hopen'⟩ := h'.root ht
    exact ⟨u, hu, hfixed'.trans hfixed, hopen'.trans hopen⟩
  bindings id name := by
    rcases h'.bindings id name with heq | hgone
    · rcases h.bindings id name with heq' | ⟨hlost, hgone⟩
      · exact Or.inl (heq.trans heq')
      · -- what has gone does not come back
        cases hs : m.arena.get? id with
        | none => exact Or.inl (heq.trans (by rw [Arena.bindingAt?, Arena.bindingAt?, hs, hgone]))
        | some s =>
          exact Or.inr ⟨hlost, h'.gone (Nat.le_trans (hF.le_last hs) h.lastScope) hgone⟩
    · exact Or.inr hgone
  gone hle hnone := h'.gone (Nat.le_trans hle h.lastScope) (h.gone hle hnone)
  lastScope := Nat.le_trans h.lastScope h'.lastScope
  lastStack := Nat.le_trans h.lastStack h'.lastStack

theorem mono (h : Aside lost m m') (hsub : ∀ id, lost id → lost' id) : Aside lost' m m' :=
  { h with bindings := fun id name => (h.bindings id name).imp_right (And.imp_left (hsub id)) }

theorem compiling (h : Aside lost m m') (hm : Compiling m []) : Compiling m' [] := by
  obtain ⟨r, hr, hpush, hopen⟩ := hm.root
  obtain ⟨t, ht, hfixed, hopen'⟩ := h.root hr
  refine ⟨h.tree, ?_, ⟨t, ht, ?_, hopen'.trans hopen⟩, trivial⟩
  · have hrun := hm.running
    rw [h.machine]
    exact hrun
  · exact (Scope.eq_of_fixed (·.pushTarget) (fun _ => rfl) hfixed).trans hpush

/-- Names at the top level mean what they meant. -/
theorem offers (h : Aside lost m m') (hT : m.arena.Tree) {name : String}
    (hname : m.arena.Offers rootScope name) : m'.arena.Offers rootScope name := by
  obtain ⟨r, hr, -⟩ := hT.root
  obtain ⟨t, ht, hfixed, -⟩ := h.root hr
  obtain ⟨hbinding, hoperation⟩ := (hT.offers_root_iff hr).mp hname
  exact (h.tree.offers_root_iff ht).mpr
    ⟨(Scope.eq_of_fixed (·.binding? name) (fun _ => rfl) hfixed).trans hbinding,
      (Scope.eq_of_fixed (·.operations.find? name) (fun _ => rfl) hfixed).trans hoperation⟩

/-- A block is taken out. -/
theorem pruned (hT : m.arena.Tree) (hne : k ≠ rootScope) {b : Arena} (hP : m.arena.Pruned k b) :
    Aside (k ∈ m.arena.chain ·) m { m with arena := b } where
  machine := rfl
  tree := hP.tree hT hne
  root {r} hr := by
    obtain ⟨cs, hcs, -⟩ := hP.kept hr fun hmem => hne (by
      rw [hT.chain_root] at hmem
      exact List.mem_singleton.mp hmem)
    exact ⟨_, hcs, rfl, rfl⟩
  bindings id name := by
    by_cases hk : k ∈ m.arena.chain id
    · exact Or.inr ⟨hk, hP.gone hk⟩
    · refine Or.inl ?_
      cases hs : m.arena.get? id with
      | none => rw [Arena.bindingAt?, Arena.bindingAt?, hs, hP.absent hs]
      | some s =>
        obtain ⟨cs, hcs, -⟩ := hP.kept hs hk
        rw [Arena.bindingAt?, Arena.bindingAt?, hs, hcs]
        rfl
  gone _ hnone := hP.absent hnone
  lastScope := Nat.le_of_eq hP.lastScope.symm
  lastStack := Nat.le_of_eq hP.lastStack.symm

/-- With a block that has only been written no variable goes. -/
theorem of_writtenAs {B : BlockLiteral} (hF : m.arena.Forest) (hk : m.arena.WrittenAs k B)
    (h : Aside (k ∈ m.arena.chain ·) m m') : Aside (fun _ => False) m m' where
  machine := h.machine
  tree := h.tree
  root := h.root
  bindings id name := by
    rcases h.bindings id name with heq | ⟨hmem, hgone⟩
    · exact Or.inl heq
    · refine Or.inl ?_
      rw [Arena.bindingAt?, Arena.bindingAt?, hgone]
      cases hs : m.arena.get? id with
      | none => rfl
      | some s => exact (hk.blank hs (Arena.le_of_mem_chain hF hmem) name).symm
  gone := h.gone
  lastScope := h.lastScope
  lastStack := h.lastStack

end Aside

/-- **Letting go of a block** leaves the top level as it was. -/
theorem Ensemble.Reachable.discards {t : Thread} {us : List Thread}
    (hw : Reachable ⟨m, t, us⟩) {k : ScopeId} (hagenda : t.agenda = .discard .top [.block k] :: rest)
    (hcalls : Agenda.calls rest = []) :
    ∃ m', Thread.Quiet t m { t with agenda := rest } m' ∧ Aside (k ∈ m.arena.chain ·) m m' ∧
      m'.arena.topCells = m.arena.topCells := by
  have hT : m.arena.Tree := hw.sound.regular.tree
  obtain ⟨m', hrun, hm'⟩ := hw.discard_top k
  refine ⟨m', ?_, ?_, (Context.discardAll_topCells hT _).of_ok hrun⟩
  · exact .single (by rw [hagenda]; exact hcalls) (Thread.step_discarded hrun hagenda) hcalls
  · rcases hm' with rfl | ⟨b, rfl, hne, -, hP⟩
    · exact .refl hT
    · exact .pruned hT hne hP

end ScopeStack
