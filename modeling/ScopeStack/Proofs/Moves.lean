import ScopeStack.Proofs.Words

/-!
# Moves that leave calls and open blocks alone

Between two jobs a machine may have lost scopes that nothing refers to, or variables, but the calls
in progress and the open blocks are what they were.

* `Stepped`: the machine is steady, the calls are these, and what has happened since an earlier arena
  is one step (`Arena.Follows`). `Moved`: a step that opened and closed nothing.
* `Stays.moved`, `Keeps.moved`: what leaves all scopes where they are is such a move.
* `Prunable`, `Forgetful`: the invariants that letting go of a block keeps
  (`Context.discardTransient_keeps`), and forgetting a variable (`Context.forget_keeps`).
  `Moved.prunable`, `Moved.forgetful`: **both are such moves.**
-/

namespace ScopeStack

open ScopeStack.Action

/-- The machine is steady with these calls in progress, a step after the arena was `a₀`. -/
structure Stepped (honest kept : Prop) (a₀ : Arena) (cs : List Call) (m : Machine) : Prop where
  steady : m.arena.Steady honest kept
  calls : m.arena.InProgress cs
  follows : Arena.Follows cs a₀ m.arena
  processes : m.processes = rootTable

/-- The step has opened and closed nothing. -/
structure Moved (honest kept : Prop) (a₀ : Arena) (cs : List Call) (m : Machine) : Prop
    extends Stepped honest kept a₀ cs m where
  opens : m.arena.openBlocks = a₀.openBlocks

variable {honest kept : Prop} {a₀ : Arena} {cs : List Call} {m : Machine}

theorem Moved.refl (hS : m.arena.Steady honest kept) (hC : m.arena.InProgress cs)
    (hP : m.processes = rootTable) : Moved honest kept m.arena cs m :=
  ⟨⟨hS, hC, .refl cs _, hP⟩, rfl⟩

theorem Moved.stays (h : Moved honest kept a₀ cs m) : Stays honest kept m.arena m :=
  ⟨h.steady, .refl _, h.processes⟩

/-- A further step that opens and closes nothing and takes nothing out. -/
theorem Stepped.step (hT : a₀.Tree) (h : Stepped honest kept a₀ cs m) {m' : Machine}
    (hS : m'.arena.Steady honest kept) (hC : m'.arena.InProgress cs)
    (hF : Arena.Follows cs m.arena m'.arena) (ho : m'.arena.openBlocks = m.arena.openBlocks)
    (hlive : ∀ k t, m.arena.get? k = some t → ∃ u, m'.arena.get? k = some u)
    (hP : m'.processes = m.processes) : Stepped honest kept a₀ cs m' :=
  ⟨hS, hC, h.follows.trans hT hF (Or.inr ⟨ho, hlive⟩), hP.trans h.processes⟩

theorem Stays.stepped (hT : a₀.Tree) (h : Stepped honest kept a₀ cs m) {m' : Machine}
    (hS : Stays honest kept m.arena m') : Stepped honest kept a₀ cs m' := by
  refine h.step hT hS.steady (h.calls.still hS.still) (.still hS.still) hS.still.openBlocks
    (fun k t ht => ?_) (hS.processes.trans h.processes.symm)
  obtain ⟨u, hu, -⟩ := hS.still.get?_of ht
  exact ⟨u, hu⟩

/-- A further step that opens and closes nothing. -/
theorem Moved.step (hT : a₀.Tree) (h : Moved honest kept a₀ cs m) {m' : Machine}
    (hS : m'.arena.Steady honest kept) (hC : m'.arena.InProgress cs)
    (hF : Arena.Follows cs m.arena m'.arena) (ho : m'.arena.openBlocks = m.arena.openBlocks)
    (hP : m'.processes = m.processes) : Moved honest kept a₀ cs m' :=
  ⟨⟨hS, hC, h.follows.trans hT hF (Or.inl h.opens), hP.trans h.processes⟩, ho.trans h.opens⟩

theorem Stays.moved (hT : a₀.Tree) (h : Moved honest kept a₀ cs m) {m' : Machine}
    (hS : Stays honest kept m.arena m') : Moved honest kept a₀ cs m' :=
  h.step hT hS.steady (h.calls.still hS.still) (.still hS.still) hS.still.openBlocks
    (hS.processes.trans h.processes.symm)

/-- What leaves the scopes where they are, wherever they are, is a move. -/
theorem Action.Keeps.moved {α : Type} {x : Action α} {good : Arena → α → Prop} (hT : a₀.Tree)
    (h : ∀ a, Keeps (Stays honest kept a) x (good a)) :
    Keeps (Moved honest kept a₀ cs) x fun _ => True :=
  fun m hm => (h m.arena m hm.stays).mono (fun _ _ h => ⟨h.1.moved hT hm, trivial⟩)
    fun _ _ h => h.moved hT hm

/-- A change of the machine outside arena and process table. -/
theorem Moved.congr (h : Moved honest kept a₀ cs m) {m' : Machine} (ha : m'.arena = m.arena)
    (hp : m'.processes = m.processes) : Moved honest kept a₀ cs m' := by
  obtain ⟨⟨hS, hC, hF, hP⟩, ho⟩ := h
  rw [← ha] at hS hC hF ho
  exact ⟨⟨hS, hC, hF, hp.trans hP⟩, ho⟩

/-! ## 1. Letting go -/

/-- The invariant survives the removal of what nothing refers to. -/
structure Prunable (P : Machine → Prop) : Prop where
  tree {m : Machine} : P m → m.arena.Tree
  discard {m : Machine} {top : ScopeId} {pools : List PoolId} {b : Arena} : P m →
    top ≠ rootScope → m.arena.isReferenced top = false → m.arena.discard top = .ok (pools, b) →
    P { m with arena := b }

/-- The invariant survives the loss of variables and payloads as well, and no variable stands for
the top level. -/
structure Forgetful (P : Machine → Prop) : Prop extends Prunable P where
  bound {m : Machine} {id h : ScopeId} {s : Scope} : P m → m.arena.get? id = some s →
    Cell.block h ∈ s.boundCells → h ≠ rootScope
  unbind {m : Machine} (owner : ScopeId) (name : String) : P m →
    P { m with arena := m.arena.modify owner (·.unbind name) }
  erase {m : Machine} (owner : ScopeId) {f : Scope → Scope} :
    (∀ s, f s = { s with strings := (f s).strings, numbers := (f s).numbers }) → P m →
    P { m with arena := m.arena.modify owner f }

section Keeps

variable {P : Machine → Prop}

/-- Letting go of a block. -/
theorem Context.discardTransient_keeps (hP : Prunable P) (c : Context) (v : Value) :
    Keeps P (c.discardTransient v) fun _ => True := by
  intro m hm
  unfold discardTransient
  split
  · rename_i h
    rw [ends_bind, ends_getScope]
    refine ⟨fun s _ => ?_, fun _ => hm⟩
    split
    · exact ⟨hm, trivial⟩
    · rw [ends_bind, ends_get]
      dsimp only
      split
      · exact ⟨hm, trivial⟩
      · rename_i block hr
        obtain ⟨rfl, -, -, hne, -⟩ := (hP.tree hm).of_resolveBlock hr
        rw [ends_bind, ends_getScope]
        refine ⟨fun t _ => ?_, fun _ => hm⟩
        split
        · exact ⟨hm, trivial⟩
        · rename_i hif
          simp only [Bool.not_eq_true, Bool.or_eq_false_iff] at hif
          rw [ends_bind, ends_ofExcept]
          refine ⟨fun r hd => ?_, fun _ _ => hm⟩
          exact ⟨hP.discard hm hne hif.2 hd, trivial⟩
  · exact ⟨hm, trivial⟩

theorem Context.discardAll_keeps (hP : Prunable P) (c : Context) (vs : List Value) :
    Keeps P (c.discardAll vs) fun _ => True :=
  (Keeps.mapM fun v _ => discardTransient_keeps hP c v).bind fun _ _ => .pure trivial

/-- A block that is finished becomes known to the scopes around it. -/
theorem Action.ends_registerBlock {child parent : ScopeId} {s : Scope} {Q : Unit → Machine → Prop}
    {E : Failure → Machine → Prop} (hs : m.arena.get? child = some s) (hp : s.parent = some parent) :
    (changeArena (·.registerBlock child)).Ends m Q E ↔
      Q () { m with arena := m.arena.makeKnown child (m.arena.chain parent) } := by
  have hreg : m.arena.registerBlock child =
      (.ok (), m.arena.makeKnown child (m.arena.chain parent)) := by
    rw [Arena.registerBlock, Arena.get_eq_ok.mpr hs]
    simp only [hp]
  rw [ends_changeArena, hreg]
  exact ⟨fun h => h.1 () rfl, fun h => ⟨fun _ _ => h, fun _ he => (by cases he)⟩⟩

theorem Scope.binds_eq (s : Scope) (name : String) : s.binds name = (s.binding? name).isSome :=
  Std.TreeMap.contains_eq_isSome_getElem?

/-- The search for a variable stops at one of the scopes, which binds it. -/
theorem Arena.of_boundWithinProcess {a : Arena} {name : String} {ids : List ScopeId} {k : ScopeId}
    (h : a.boundWithinProcess name ids = some k) :
    k ∈ ids ∧ ∃ t, a.get? k = some t ∧ t.binds name = true := by
  induction ids with
  | nil => cases h
  | cons j ids ih =>
    unfold boundWithinProcess at h
    split at h
    · cases h
    · rename_i t ht
      split at h
      · cases h
        exact ⟨List.mem_cons_self, t, ht, ‹_›⟩
      · split at h
        · cases h
        · exact (ih h).imp_left (List.mem_cons_of_mem _)

/-- A definition writes in the scope itself, or where the variable is bound. -/
theorem Arena.definingScope_binds (a : Arena) (id : ScopeId) (s : Scope) (name : String) :
    a.definingScope id s name = id ∨
      ∃ t, a.get? (a.definingScope id s name) = some t ∧ t.binds name = true := by
  unfold definingScope
  split
  · rename_i parent _ _
    cases hb : a.boundWithinProcess name (a.chain parent) with
    | none => exact Or.inl rfl
    | some k => exact Or.inr (of_boundWithinProcess hb).2
  · exact Or.inl rfl

/-- A definition binds the variable in one scope, or changes nothing. -/
theorem Arena.define_cases {a b : Arena} {id : ScopeId} {name : String} {cell : Cell}
    {strict : Bool} (h : a.define id name cell strict = .ok b) :
    b = a ∨ ∃ s, a.get? id = some s ∧
      b = a.modify (a.definingScope id s name) (·.bind name cell) := by
  cases hs : a.get? id with
  | none =>
    rw [define, get_eq_error.mpr ⟨hs, rfl⟩] at h
    cases h
  | some s =>
    rw [define, get_eq_ok.mpr hs] at h
    simp only [Bind.bind, Except.bind, Pure.pure, Except.pure] at h
    split at h
    · cases h
      exact Or.inl rfl
    · cases h
      exact Or.inr ⟨s, rfl, rfl⟩

/-- The binding goes, and with it what nothing else needs. -/
theorem Arena.release_keeps (hP : Forgetful P) {m : Machine} (hm : P m) {owner : ScopeId}
    {cell : Cell} (hne : cell ≠ .block rootScope) {r : List PoolId × Arena}
    (hr : m.arena.releaseCell owner cell = .ok r) : P { m with arena := r.2 } := by
  unfold releaseCell at hr
  cases cell with
  | bool | int => cases hr; exact hm
  | str h | word h | big h | double h =>
    dsimp only at hr
    split at hr
    · cases hr
      exact hm
    · cases hr
      exact hP.erase owner (fun _ => rfl) hm
  | block h =>
    dsimp only at hr
    split at hr
    · rename_i hif
      simp only [Bool.and_eq_true, Bool.not_eq_true'] at hif
      exact hP.discard hm (fun he => hne (he ▸ rfl)) hif.2 hr
    · cases hr
      exact hm

/-- Forgetting a variable. -/
theorem Context.forget_keeps (hP : Forgetful P) (c : Context) (name : String) :
    Keeps P (c.forget name) fun _ => True := by
  intro m hm
  unfold Context.forget
  rw [ends_bind, ends_get]
  dsimp only
  generalize hf : m.arena.forget c.scope name = r
  obtain ⟨result, b⟩ := r
  suffices h : P { m with arena := b } by
    rw [ends_bind, ends_modifyArena, ends_ofExcept]
    exact ⟨fun _ _ => ⟨h, trivial⟩, fun _ _ => h⟩
  unfold Arena.forget at hf
  split at hf
  · cases hf
    exact hm
  · rename_i owner _
    split at hf
    · cases hf
      exact hm
    · rename_i cell hcell
      obtain ⟨s, hs, hb⟩ := Option.bind_eq_some_iff.mp hcell
      have hne : cell ≠ .block rootScope := fun he =>
        hP.bound hm hs (he ▸ Scope.mem_boundCells.mpr ⟨name, hb⟩) rfl
      dsimp only at hf
      split at hf
      · rename_i pools released hr
        cases hf
        exact Arena.release_keeps hP (hP.unbind owner name hm) hne hr
      · cases hf
        exact hP.unbind owner name hm

end Keeps

/-! ## 2. Moves -/

/-- **What nothing refers to may go.** -/
theorem Moved.prunable (hT : a₀.Tree) : Prunable (Moved honest kept a₀ cs) where
  tree hm := hm.steady.tree
  discard {m top pools b} hm hne hr hd := by
    have hTm := hm.steady.tree
    have hP := Arena.discard_pruned hTm.forest hd
    have hU := Arena.unreferenced_of_eq_false hTm.forest hr
    exact hm.step hT (.pruned hP hm.steady hU hne) (hm.calls.pruned hP hU)
      (.pruned hTm hm.calls hP hU hne) (hP.openBlocks hTm hne) rfl

/-- **Variables may be forgotten**, where payloads need not be kept. -/
theorem Moved.forgetful (hT : a₀.Tree) (hkept : ¬ kept) :
    Forgetful (Moved honest kept a₀ cs) where
  toPrunable := Moved.prunable hT
  bound hm hs hb := hm.steady.bound hs hb
  unbind owner name hm :=
    Stays.moved hT hm ⟨hm.steady.unbind owner name, .modify _ _ _ fun _ => rfl, hm.processes⟩
  erase {m} owner {f} hf hm := by
    have hcore (s : Scope) : (f s).core = s.core := by
      rw [hf s]
      rfl
    refine Stays.moved hT hm ⟨?_, Arena.Still.modify m.arena owner f hcore, hm.processes⟩
    refine hm.steady.modify owner f hcore
      ⟨fun hk => absurd hk hkept, fun hk => absurd hk hkept⟩ fun s _ x hx => Or.inl ?_
    rwa [hf s] at hx

theorem Context.pop_moved (hT : a₀.Tree) (c : Context) :
    Keeps (Moved honest kept a₀ cs) c.pop fun _ => True :=
  Keeps.moved hT fun _ => pop_keeps c

end ScopeStack
