import ScopeStack.Proofs.Still

/-!
# What holds between any two steps of the top level

The invariant of an environment that has spawned no process, as far as it concerns the arena.

* `Arena.Orderly`: how scopes, open blocks, calls and stacks hang together. `Arena.OpenChain`: each
  open block that is there was opened inside the one before it.
* `Arena.Backs`: the arena has what a cell stands for. `Arena.Steady`: **every cell that is held is
  backed**, as far as nothing strange was pushed (`honest`) and nothing was forgotten (`kept`).
* one lemma for each thing that happens to payloads, stacks, variables and calls: `Steady.grows`,
  `Steady.modifyStack`, `Steady.bind`, `Steady.unbind`, `Steady.setCalls`.
-/

namespace ScopeStack.Arena

/-! ## 1. The invariant -/

/-- The blocks that the top level has open, the innermost first. -/
def openBlocks (a : Arena) : List ScopeId := ((a.get? rootScope).map (·.compileStack)).getD []

/-- With these blocks open the next one is opened inside `p`: the innermost of them, or a scope that
is not compiled itself. -/
def OpenedIn (a : Arena) (opens : List ScopeId) (p : ScopeId) : Prop :=
  match opens with
  | [] => ∀ t, a.get? p = some t → t.compiling = false
  | j :: _ => p = j

/-- Each of these blocks, if it is there, is being compiled; it was opened inside the next one, or
in a scope that is not being compiled. -/
def OpenChain (a : Arena) : List ScopeId → Prop
  | [] => True
  | k :: rest =>
    (∀ s, a.get? k = some s → s.compiling = true ∧ ∃ p, s.parent = some p ∧ a.OpenedIn rest p) ∧
    (∀ j ∈ rest, j < k) ∧ a.OpenChain rest

/-- Scopes, open blocks, calls and stacks hang together. -/
structure Orderly (a : Arena) : Prop where
  tree : a.Tree
  opens : a.OpenChain a.openBlocks
  called {id : ScopeId} {s : Scope} : a.get? id = some s → s.calls ≠ [] → s.compiling = false
  stack_le {id : ScopeId} {s : Scope} {σ : StackId} : a.get? id = some s → σ ∈ s.allStacks →
    σ ≤ a.lastStack
  uncalled {id : ScopeId} {s : Scope} : a.get? id = some s → ¬ a.Linked id → s.calls = []
  alone {id k : ScopeId} {s t : Scope} : a.get? id = some s → ¬ a.Linked id →
    a.get? k = some t → s.stack ∈ t.allStacks → k = id

/-- The arena has what the cell stands for: the block is there and known to the top level, the
payload is in the tables of the top level. -/
def Backs (honest kept : Prop) (a : Arena) : Cell → Prop
  | .block h => honest → (∃ s, a.get? h = some s) ∧ rootScope ∈ a.scopesKnowing h
  | .str h | .word h => kept → a.HasPayload String rootScope h
  | .big h | .double h => kept → a.HasPayload Number rootScope h
  | .bool _ | .int _ => True

/-- Everything hangs together, and every cell that is held is backed. -/
structure Steady (honest kept : Prop) (a : Arena) : Prop extends a.Orderly where
  bound {id h : ScopeId} {s : Scope} : a.get? id = some s → Cell.block h ∈ s.boundCells →
    h ≠ rootScope
  held_linked {id : ScopeId} {cell : Cell} : a.Holds id cell → a.Linked id
  backed {id : ScopeId} {cell : Cell} : a.Holds id cell → Backs honest kept a cell

/-- The stack belongs to a scope with a way out, as its own or as that of a call. -/
def Listed (a : Arena) (σ : StackId) : Prop :=
  ∃ id s, a.get? id = some s ∧ σ ∈ s.allStacks ∧ a.Linked id

/-- Whoever lists a stack that belongs to a scope with a way out has one. -/
theorem Orderly.linked_of_listed {a : Arena} (hO : a.Orderly) {σ : StackId} (hσ : a.Listed σ)
    {k : ScopeId} {t : Scope} (ht : a.get? k = some t) (hm : σ ∈ t.allStacks) : a.Linked k := by
  obtain ⟨id, s, hs, hms, hl⟩ := hσ
  refine Classical.byContradiction fun hno => ?_
  rw [Scope.allStacks, hO.uncalled ht hno, List.mem_singleton] at hm
  have he : id = k := hO.alone ht hno hs (hm ▸ hms)
  exact hno (he ▸ hl)

theorem openBlocks_eq {a : Arena} {s : Scope} (hs : a.get? rootScope = some s) :
    a.openBlocks = s.compileStack := by
  rw [openBlocks, hs]
  rfl

theorem Tree.openBlock_le {a : Arena} (hT : a.Tree) {k : ScopeId} (hk : k ∈ a.openBlocks) :
    k ≤ a.lastScope ∧ k ≠ rootScope := by
  obtain ⟨s, hs, -⟩ := hT.root
  rw [openBlocks_eq hs] at hk
  exact hT.open_le hs hk

theorem Tree.linked_openBlock {a : Arena} (hT : a.Tree) {k : ScopeId} {t : Scope}
    (hk : k ∈ a.openBlocks) (ht : a.get? k = some t) : a.Linked k := by
  obtain ⟨s, hs, -⟩ := hT.root
  rw [openBlocks_eq hs] at hk
  exact hT.open_linked hs hk ht

/-- A chain of open blocks stays one if of those that are there none is finished and no scope around
them starts being compiled. -/
theorem OpenChain.mono {a b : Arena} (hF : a.Forest) {ks : List ScopeId} (h : a.OpenChain ks)
    (hopen : ∀ k ∈ ks, ∀ t, b.get? k = some t → ∃ s, a.get? k = some s ∧
      t.parent = s.parent ∧ t.compiling = s.compiling)
    (hclosed : ∀ k ∈ ks, ∀ p < k, ∀ t, b.get? p = some t → t.compiling = true →
      ∃ s, a.get? p = some s ∧ s.compiling = true) : b.OpenChain ks := by
  induction ks with
  | nil => trivial
  | cons k rest ih =>
    obtain ⟨hk, hlt, hrest⟩ := h
    refine ⟨fun t ht => ?_, hlt, ih hrest (fun j hj => hopen j (List.mem_cons_of_mem _ hj))
      fun j hj => hclosed j (List.mem_cons_of_mem _ hj)⟩
    obtain ⟨s, hs, hps, hcs⟩ := hopen k List.mem_cons_self t ht
    obtain ⟨hc, p, hp, hnext⟩ := hk s hs
    refine ⟨hcs.trans hc, p, hps.trans hp, ?_⟩
    cases rest with
    | nil =>
      intro u hu
      rw [← Bool.not_eq_true]
      intro hcu
      obtain ⟨v, hv, hcv⟩ := hclosed k List.mem_cons_self p (hF.parent_lt hs hp) u hu hcu
      rw [hnext v hv] at hcv
      cases hcv
    | cons j rest => exact hnext

/-- What is open and there is being compiled. -/
theorem OpenChain.compiling {a : Arena} {ks : List ScopeId} (h : a.OpenChain ks) {k : ScopeId}
    (hk : k ∈ ks) {s : Scope} (hs : a.get? k = some s) : s.compiling = true := by
  induction ks with
  | nil => cases hk
  | cons j rest ih =>
    rcases List.mem_cons.mp hk with rfl | hk
    · exact (h.1 s hs).1
    · exact ih h.2.2 hk

/-! ## 2. Still changes -/

section Still

variable {a b : Arena} (hS : a.Still b)
include hS

theorem Still.openBlocks : b.openBlocks = a.openBlocks := by
  cases hs : a.get? rootScope with
  | none =>
    cases ht : b.get? rootScope with
    | none => rw [Arena.openBlocks, Arena.openBlocks, hs, ht]
    | some t =>
      obtain ⟨s, hs', -⟩ := hS.get? ht
      rw [hs] at hs'
      cases hs'
  | some s =>
    obtain ⟨t, ht, he⟩ := hS.get?_of hs
    rw [openBlocks_eq hs, openBlocks_eq ht]
    exact Scope.eq_of_core (·.compileStack) (fun _ => rfl) he

theorem Still.listed {σ : StackId} (h : a.Listed σ) : b.Listed σ := by
  obtain ⟨id, s, hs, hm, hl⟩ := h
  obtain ⟨t, ht, he⟩ := hS.get?_of hs
  refine ⟨id, t, ht, ?_, hS.linked hl⟩
  rw [Scope.eq_of_core Scope.allStacks (fun _ => rfl) he]
  exact hm

theorem Orderly.still (hO : a.Orderly) : b.Orderly where
  tree := hS.tree hO.tree
  opens := by
    rw [hS.openBlocks]
    refine hO.opens.mono hO.tree.forest (fun k _ t ht => ?_) fun k _ p _ t ht hc => ?_
    · obtain ⟨s, hs, he⟩ := hS.get? ht
      exact ⟨s, hs, Scope.eq_of_core (·.parent) (fun _ => rfl) he,
        Scope.eq_of_core (·.compiling) (fun _ => rfl) he⟩
    · obtain ⟨s, hs, he⟩ := hS.get? ht
      exact ⟨s, hs, (Scope.eq_of_core (·.compiling) (fun _ => rfl) he).symm.trans hc⟩
  called {id t} ht hne := by
    obtain ⟨s, hs, he⟩ := hS.get? ht
    rw [Scope.eq_of_core (·.calls) (fun _ => rfl) he] at hne
    rw [Scope.eq_of_core (·.compiling) (fun _ => rfl) he]
    exact hO.called hs hne
  stack_le {id t σ} ht hσ := by
    obtain ⟨s, hs, he⟩ := hS.get? ht
    rw [Scope.eq_of_core Scope.allStacks (fun _ => rfl) he] at hσ
    exact Nat.le_trans (hO.stack_le hs hσ) hS.lastStack
  uncalled {id t} ht hl := by
    obtain ⟨s, hs, he⟩ := hS.get? ht
    rw [Scope.eq_of_core (·.calls) (fun _ => rfl) he]
    exact hO.uncalled hs fun h => hl (hS.linked h)
  alone {id k t u} ht hl hu hm := by
    obtain ⟨s, hs, he⟩ := hS.get? ht
    obtain ⟨v, hv, he'⟩ := hS.get? hu
    rw [Scope.eq_of_core (·.stack) (fun _ => rfl) he,
      Scope.eq_of_core Scope.allStacks (fun _ => rfl) he'] at hm
    exact hO.alone hs (fun h => hl (hS.linked h)) hv hm

end Still

/-- The top level has the payloads it had. -/
structure Retains (kept : Prop) (a b : Arena) : Prop where
  strings : kept → ∀ h, a.HasPayload String rootScope h → b.HasPayload String rootScope h
  numbers : kept → ∀ h, a.HasPayload Number rootScope h → b.HasPayload Number rootScope h

/-- What is backed stays backed if blocks stay known and payloads stay. -/
theorem Backs.mono {honest kept : Prop} {a b : Arena} {cell : Cell}
    (hblock : ∀ h, cell = .block h → (∃ s, a.get? h = some s) → rootScope ∈ a.scopesKnowing h →
      (∃ t, b.get? h = some t) ∧ rootScope ∈ b.scopesKnowing h)
    (hR : Retains kept a b) (h : Backs honest kept a cell) : Backs honest kept b cell := by
  cases cell with
  | bool | int => trivial
  | str k | word k => exact fun hk => hR.strings hk k (h hk)
  | big k | double k => exact fun hk => hR.numbers hk k (h hk)
  | block k => exact fun hh => hblock k rfl (h hh).1 (h hh).2

theorem Still.backs {honest kept : Prop} {a b : Arena} (hS : a.Still b) (hR : Retains kept a b)
    {cell : Cell} (h : Backs honest kept a cell) : Backs honest kept b cell := by
  refine h.mono (fun k _ hk hr => ?_) hR
  obtain ⟨s, hs⟩ := hk
  obtain ⟨t, ht, -⟩ := hS.get?_of hs
  exact ⟨⟨t, ht⟩, by rwa [hS.scopesKnowing]⟩

section Cells

variable {honest kept : Prop} {a b : Arena}

theorem Grows.retains (hG : a.Grows b) : Retains kept a b :=
  ⟨fun _ _ => hG.hasPayload, fun _ _ => hG.hasPayload⟩

/-- **A still change keeps all in order if what is newly held is backed.** -/
theorem Steady.still (hA : Steady honest kept a) (hS : a.Still b) (hR : Retains kept a b)
    (hbound : ∀ id t h, b.get? id = some t → Cell.block h ∈ t.boundCells → h ≠ rootScope)
    (hheld : ∀ id cell, b.Holds id cell →
      a.Holds id cell ∨ (b.Linked id ∧ Backs honest kept b cell)) : Steady honest kept b where
  toOrderly := Orderly.still hS hA.toOrderly
  bound ht hm := hbound _ _ _ ht hm
  held_linked {id cell} h := by
    rcases hheld id cell h with h | ⟨hl, -⟩
    · exact hS.linked (hA.held_linked h)
    · exact hl
  backed {id cell} h := by
    rcases hheld id cell h with h | ⟨-, hb⟩
    · exact hS.backs hR (hA.backed h)
    · exact hb

/-- Payloads are added. -/
theorem Steady.grows (hA : Steady honest kept a) (hG : a.Grows b) : Steady honest kept b := by
  refine hA.still hG.still hG.retains (fun id t h ht hm => ?_) fun id cell h => Or.inl (hG.holds h)
  obtain ⟨s, hs, -⟩ := hG.still.get? ht
  obtain ⟨t', ht', hts, -, -⟩ := hG.get? hs
  cases ht.symm.trans ht'
  rw [hts] at hm
  exact hA.bound hs hm

/-- The stacks change: what is on them then was there before, or is backed and on a stack that
counts. -/
theorem Steady.changeStacks (hA : Steady honest kept a) (hscopes : b.scopes = a.scopes)
    (hknown : b.known = a.known) (hlast : b.lastScope = a.lastScope)
    (hlastStack : a.lastStack ≤ b.lastStack)
    (hcells : ∀ σ, ∀ cell ∈ b.stackCells σ,
      cell ∈ a.stackCells σ ∨ (a.Listed σ ∧ Backs honest kept a cell)) : Steady honest kept b := by
  have hget (id : ScopeId) : b.get? id = a.get? id := by rw [get?, get?, hscopes]
  have hS : a.Still b := ⟨fun id => by rw [hget], hknown, hlast, hlastStack⟩
  have hR : Retains kept a b := by
    refine ⟨fun _ h hh => ?_, fun _ h hh => ?_⟩
    all_goals
      obtain ⟨s, hs, hh⟩ := hh
      exact ⟨s, (hget _).trans hs, hh⟩
  refine hA.still hS hR (fun id t h ht hm => hA.bound (hget id ▸ ht) hm) ?_
  rintro id cell ⟨t, ht, hcell⟩
  rw [hget] at ht
  rcases hcell with hcode | hbound | ⟨σ, hσ, hm⟩
  · exact Or.inl ⟨t, ht, Or.inl hcode⟩
  · exact Or.inl ⟨t, ht, Or.inr (Or.inl hbound)⟩
  · rcases hcells σ cell hm with hm | ⟨hlisted, hb⟩
    · exact Or.inl ⟨t, ht, Or.inr (Or.inr ⟨σ, hσ, hm⟩)⟩
    · exact Or.inr ⟨hS.linked (hA.linked_of_listed hlisted ht hσ), hS.backs hR hb⟩

/-- One stack changes. -/
theorem Steady.modifyStack (hA : Steady honest kept a) (σ : StackId) (f : CellStack → CellStack)
    (hcells : ∀ cell ∈ (f (a.stack σ)).cells,
      cell ∈ a.stackCells σ ∨ (a.Listed σ ∧ Backs honest kept a cell)) :
    Steady honest kept (a.modifyStack σ f) := by
  refine hA.changeStacks rfl rfl rfl (Nat.le_refl _) fun σ' cell hm => ?_
  rw [stackCells, stack_modifyStack] at hm
  by_cases hσ : σ' = σ
  · rw [if_pos hσ] at hm
    rw [hσ]
    exact hcells cell hm
  · rw [if_neg hσ] at hm
    exact Or.inl hm

/-- One scope changes, but not its core: what its variables hold then, they held before, or it is
backed. -/
theorem Steady.modify (hA : Steady honest kept a) (id : ScopeId) (f : Scope → Scope)
    (hcore : ∀ s, (f s).core = s.core) (hR : Retains kept a (a.modify id f))
    (hbound : ∀ s, a.get? id = some s → ∀ cell ∈ (f s).boundCells, cell ∈ s.boundCells ∨
      (a.Linked id ∧ Backs honest kept a cell ∧ cell ≠ .block rootScope)) :
    Steady honest kept (a.modify id f) := by
  have hS := Still.modify a id f hcore
  have hof {k : ScopeId} {t : Scope} (ht : (a.modify id f).get? k = some t) :
      a.get? k = some t ∨ (k = id ∧ ∃ s, a.get? id = some s ∧ t = f s) := by
    rw [get?_modify] at ht
    by_cases hk : k = id
    · rw [if_pos hk] at ht
      obtain ⟨s, hs, rfl⟩ := Option.map_eq_some_iff.mp ht
      exact Or.inr ⟨hk, s, hs, rfl⟩
    · rw [if_neg hk] at ht
      exact Or.inl ht
  refine hA.still hS hR (fun k t h ht hm => ?_) ?_
  · rcases hof ht with ht | ⟨-, s, hs, rfl⟩
    · exact hA.bound ht hm
    · rcases hbound s hs _ hm with hm | ⟨-, -, hne⟩
      · exact hA.bound hs hm
      · exact fun he => hne (congrArg Cell.block he)
  · rintro k cell ⟨t, ht, hcell⟩
    rcases hof ht with ht | ⟨rfl, s, hs, rfl⟩
    · exact Or.inl ⟨t, ht, hcell⟩
    · rw [Scope.eq_of_core (·.code) (fun _ => rfl) (hcore s),
        Scope.eq_of_core Scope.allStacks (fun _ => rfl) (hcore s)] at hcell
      rcases hcell with hcode | hb | hstack
      · exact Or.inl ⟨s, hs, Or.inl hcode⟩
      · rcases hbound s hs cell hb with hb | ⟨hl, hb, -⟩
        · exact Or.inl ⟨s, hs, Or.inr (Or.inl hb)⟩
        · exact Or.inr ⟨hS.linked hl, hS.backs hR hb⟩
      · exact Or.inl ⟨s, hs, Or.inr (Or.inr hstack)⟩

/-- Changing a scope but not its tables keeps its payloads. -/
theorem Retains.modify (id : ScopeId) (f : Scope → Scope)
    (hf : ∀ s, (f s).strings = s.strings ∧ (f s).numbers = s.numbers) :
    Retains kept a (a.modify id f) := by
  have hget {s : Scope} (hs : a.get? rootScope = some s) :
      ∃ t, (a.modify id f).get? rootScope = some t ∧
        t.strings = s.strings ∧ t.numbers = s.numbers := by
    rw [get?_modify]
    by_cases hid : rootScope = id
    · rw [if_pos hid, ← hid, hs]
      exact ⟨f s, rfl, hf s⟩
    · rw [if_neg hid, hs]
      exact ⟨s, rfl, rfl, rfl⟩
  refine ⟨fun _ h ⟨s, hs, hh⟩ => ?_, fun _ h ⟨s, hs, hh⟩ => ?_⟩
  · obtain ⟨t, ht, hst, -⟩ := hget hs
    exact ⟨t, ht, (congrArg (fun u : InternTable String => (u.get? h).isSome) hst).trans hh⟩
  · obtain ⟨t, ht, -, hnt⟩ := hget hs
    exact ⟨t, ht, (congrArg (fun u : InternTable Number => (u.get? h).isSome) hnt).trans hh⟩

/-- A variable is bound. -/
theorem Steady.bind (hA : Steady honest kept a) {id : ScopeId} {name : String} {cell : Cell}
    (hl : a.Linked id) (hb : Backs honest kept a cell) (hne : cell ≠ .block rootScope) :
    Steady honest kept (a.modify id (·.bind name cell)) := by
  refine hA.modify id _ (fun _ => rfl) (.modify id _ fun _ => ⟨rfl, rfl⟩) fun s _ x hx => ?_
  obtain ⟨other, ho⟩ := Scope.mem_boundCells.mp hx
  rw [Scope.binding?_bind] at ho
  by_cases hn : other = name
  · rw [if_pos hn] at ho
    cases ho
    exact Or.inr ⟨hl, hb, hne⟩
  · rw [if_neg hn] at ho
    exact Or.inl (Scope.mem_boundCells.mpr ⟨other, ho⟩)

/-- A variable is unbound. -/
theorem Steady.unbind (hA : Steady honest kept a) (id : ScopeId) (name : String) :
    Steady honest kept (a.modify id (·.unbind name)) := by
  refine hA.modify id _ (fun _ => rfl) (.modify id _ fun _ => ⟨rfl, rfl⟩) fun s _ x hx => ?_
  obtain ⟨other, ho⟩ := Scope.mem_boundCells.mp hx
  rw [Scope.binding?_unbind] at ho
  by_cases hn : other = name
  · rw [if_pos hn] at ho
    cases ho
  · rw [if_neg hn] at ho
    exact Or.inl (Scope.mem_boundCells.mpr ⟨other, ho⟩)

/-! ## 3. Calls -/

/-- The stack of a call can be listed with the block. -/
structure MayList (honest kept : Prop) (a : Arena) (block : ScopeId) (σ : StackId) : Prop where
  linked : a.Linked block
  closed {s : Scope} : a.get? block = some s → s.compiling = false
  le_last : σ ≤ a.lastStack
  notOwn {k : ScopeId} {t : Scope} : a.get? k = some t → ¬ a.Linked k → t.stack ≠ σ
  backed {cell : Cell} : cell ∈ a.stackCells σ → Backs honest kept a cell

theorem get?_modify_cases {id k : ScopeId} {f : Scope → Scope} {t : Scope}
    (ht : (a.modify id f).get? k = some t) :
    ∃ s, a.get? k = some s ∧ ((k ≠ id ∧ t = s) ∨ (k = id ∧ t = f s)) := by
  rw [get?_modify] at ht
  by_cases hk : k = id
  · rw [if_pos hk] at ht
    obtain ⟨s, hs, rfl⟩ := Option.map_eq_some_iff.mp ht
    exact ⟨s, hk ▸ hs, Or.inr ⟨hk, rfl⟩⟩
  · rw [if_neg hk] at ht
    exact ⟨t, ht, Or.inl ⟨hk, rfl⟩⟩

theorem get?_modify_some {k : ScopeId} {t : Scope} (ht : a.get? k = some t) (id : ScopeId)
    (f : Scope → Scope) : ∃ u, (a.modify id f).get? k = some u := by
  rw [get?_modify]
  by_cases hk : k = id
  · rw [if_pos hk, ← hk, ht]
    exact ⟨_, rfl⟩
  · rw [if_neg hk]
    exact ⟨t, ht⟩

theorem openBlocks_modify (id : ScopeId) (f : Scope → Scope)
    (hf : ∀ s, (f s).compileStack = s.compileStack) :
    (a.modify id f).openBlocks = a.openBlocks := by
  rw [openBlocks, openBlocks, get?_modify]
  by_cases hid : rootScope = id
  · rw [if_pos hid, ← hid, Option.map_map]
    exact congrArg (fun g => ((a.get? rootScope).map g).getD []) (funext hf)
  · rw [if_neg hid]

/-- Calls have been listed that may be, or taken off, and all else is as it was. -/
structure Relisted (honest kept : Prop) (a b : Arena) : Prop where
  of_get? {k : ScopeId} {t : Scope} : b.get? k = some t →
    ∃ s, a.get? k = some s ∧ t = { s with calls := t.calls } ∧
      ∀ σ ∈ t.calls, σ ∈ s.calls ∨ MayList honest kept a k σ
  alike : a.Alike b
  retains : Retains kept a b
  openBlocks : b.openBlocks = a.openBlocks
  stackCells (σ : StackId) : b.stackCells σ = a.stackCells σ
  lastStack : b.lastStack = a.lastStack

theorem Relisted.modify (block : ScopeId) (g : List StackId → List StackId)
    (hg : ∀ s, a.get? block = some s → ∀ σ ∈ g s.calls, σ ∈ s.calls ∨
      MayList honest kept a block σ) :
    Relisted honest kept a (a.modify block fun s => { s with calls := g s.calls }) where
  of_get? {k t} ht := by
    obtain ⟨s, hs, ⟨-, rfl⟩ | ⟨rfl, rfl⟩⟩ := get?_modify_cases ht
    · exact ⟨t, hs, rfl, fun σ hσ => Or.inl hσ⟩
    · exact ⟨s, hs, rfl, hg s hs⟩
  alike := .modify a block _ fun s _ => ⟨rfl, rfl, fun h => h, fun k hk => Or.inl hk⟩
  retains := .modify block _ fun _ => ⟨rfl, rfl⟩
  openBlocks := openBlocks_modify block _ fun _ => rfl
  stackCells _ := rfl
  lastStack := rfl

theorem Relisted.mem_allStacks (hL : Relisted honest kept a b) {k : ScopeId} {t : Scope}
    (ht : b.get? k = some t) {σ : StackId} (hσ : σ ∈ t.allStacks) :
    ∃ s, a.get? k = some s ∧ (σ ∈ s.allStacks ∨ MayList honest kept a k σ) := by
  obtain ⟨s, hs, hts, hcalls⟩ := hL.of_get? ht
  refine ⟨s, hs, ?_⟩
  rcases List.mem_cons.mp hσ with he | hσ
  · rw [hts] at he
    exact Or.inl (he ▸ List.mem_cons_self)
  · exact (hcalls σ hσ).imp_left (List.mem_cons_of_mem _)

theorem Relisted.orderly (hL : Relisted honest kept a b) (hO : a.Orderly) : b.Orderly := by
  have hunlinked {k : ScopeId} (h : ¬ b.Linked k) : ¬ a.Linked k :=
    fun h' => h (hL.alike.linked_iff.mpr h')
  refine ⟨hL.alike.tree hO.tree, ?_, fun {k t} ht hne => ?_, fun {k t σ} ht hσ => ?_,
    fun {k t} ht hl => ?_, fun {k j t u} ht hl hu hm => ?_⟩
  · rw [hL.openBlocks]
    refine hO.opens.mono hO.tree.forest (fun k _ t ht => ?_) fun k _ p _ t ht hc => ?_
    · obtain ⟨s, hs, hts, -⟩ := hL.of_get? ht
      rw [hts]
      exact ⟨s, hs, rfl, rfl⟩
    · obtain ⟨s, hs, hts, -⟩ := hL.of_get? ht
      rw [hts] at hc
      exact ⟨s, hs, hc⟩
  · obtain ⟨s, hs, hts, hcalls⟩ := hL.of_get? ht
    obtain ⟨σ, hσ⟩ := List.exists_mem_of_ne_nil _ hne
    rw [hts]
    show s.compiling = false
    rcases hcalls σ hσ with hm | hm
    · exact hO.called hs (List.ne_nil_of_mem hm)
    · exact hm.closed hs
  · rw [hL.lastStack]
    obtain ⟨s, hs, hm | hm⟩ := hL.mem_allStacks ht hσ
    · exact hO.stack_le hs hm
    · exact hm.le_last
  · obtain ⟨s, hs, -, hcalls⟩ := hL.of_get? ht
    refine List.eq_nil_iff_forall_not_mem.mpr fun σ hσ => ?_
    rcases hcalls σ hσ with hm | hm
    · rw [hO.uncalled hs (hunlinked hl)] at hm
      cases hm
    · exact hunlinked hl hm.linked
  · obtain ⟨s, hs, hts, -⟩ := hL.of_get? ht
    rw [hts] at hm
    obtain ⟨v, hv, hm | hm⟩ := hL.mem_allStacks hu hm
    · exact hO.alone hs (hunlinked hl) hv hm
    · have hne := hm.notOwn hs (hunlinked hl)
      exact absurd rfl hne

theorem Relisted.held (hL : Relisted honest kept a b) (hA : Steady honest kept a) {k : ScopeId}
    {cell : Cell} (h : b.Holds k cell) : a.Linked k ∧ Backs honest kept a cell := by
  have of (h : a.Holds k cell) : a.Linked k ∧ Backs honest kept a cell :=
    ⟨hA.held_linked h, hA.backed h⟩
  obtain ⟨t, ht, hcell⟩ := h
  obtain ⟨s, hs, hts, -⟩ := hL.of_get? ht
  rcases hcell with hcode | hbound | ⟨σ, hσ, hm⟩
  · rw [hts] at hcode
    exact of ⟨s, hs, Or.inl hcode⟩
  · rw [hts] at hbound
    exact of ⟨s, hs, Or.inr (Or.inl hbound)⟩
  · rw [hL.stackCells] at hm
    obtain ⟨s', hs', hσ | hσ⟩ := hL.mem_allStacks ht hσ
    · exact of ⟨s', hs', Or.inr (Or.inr ⟨σ, hσ, hm⟩)⟩
    · exact ⟨hσ.linked, hσ.backed hm⟩

/-- The calls of a block change: those listed then were listed before, or may be. -/
theorem Steady.setCalls (hA : Steady honest kept a) (block : ScopeId)
    (g : List StackId → List StackId)
    (hg : ∀ s, a.get? block = some s → ∀ σ ∈ g s.calls, σ ∈ s.calls ∨
      MayList honest kept a block σ) :
    Steady honest kept (a.modify block fun s => { s with calls := g s.calls }) := by
  have hL := Relisted.modify block g hg
  refine ⟨hL.orderly hA.toOrderly, fun {k h t} ht hm => ?_,
    fun h => hL.alike.linked_iff.mpr (hL.held hA h).1, fun h => ?_⟩
  · obtain ⟨s, hs, hts, -⟩ := hL.of_get? ht
    rw [hts] at hm
    exact hA.bound hs hm
  · refine (hL.held hA h).2.mono (fun k _ hk hr => ?_) hL.retains
    obtain ⟨s, hs⟩ := hk
    obtain ⟨t, ht, -⟩ := hL.alike.get?_of hs
    exact ⟨⟨t, ht⟩, by rwa [hL.alike.known]⟩

end Cells

end ScopeStack.Arena
