import ScopeStack.Proofs.Discard

/-!
# The tree of an environment

All scopes hang from the top level. The one exception are blocks that were opened inside a scope
that is gone: opening fails, the scope stays, and nothing ever leads to it.

* `Arena.Linked`: the scope has a way out. `Arena.Tree`: **a scope that has children, that is open
  for compilation, or that is known as a block, has one**; so the top level is on its chain
  (`Tree.mem_chain`).
* `Arena.Alike`: changes that leave the links alone (`Alike.tree`).
* `Arena.Added`, `Arena.makeKnown`, `Arena.Pruned`: a block comes, becomes known, and goes
  (`Added.tree`, `Tree.makeKnown`, `Pruned.tree`).
-/

namespace ScopeStack

/-- The scope of the top level, the first one there is. -/
def rootScope : ScopeId := 1

namespace Arena

/-! ## 1. The invariant -/

/-- The scope is there, and so is its parent, if it has one. -/
def Linked (a : Arena) (id : ScopeId) : Prop :=
  ∃ s, a.get? id = some s ∧ ∀ p, s.parent = some p → ∃ t, a.get? p = some t

/-- Scopes that lead anywhere hang from the top level. -/
structure Tree (a : Arena) : Prop where
  forest : a.Forest
  root : ∃ s, a.get? rootScope = some s ∧ s.parent = none ∧ s.compiling = false
  noParent {id : ScopeId} {s : Scope} : a.get? id = some s → s.parent = none → id = rootScope
  linked_of_child {id k : ScopeId} {s : Scope} : a.get? id = some s → k ∈ s.children → a.Linked id
  open_le {q k : ScopeId} {s : Scope} : a.get? q = some s → k ∈ s.compileStack →
    k ≤ a.lastScope ∧ k ≠ rootScope
  open_linked {q k : ScopeId} {s t : Scope} : a.get? q = some s → k ∈ s.compileStack →
    a.get? k = some t → a.Linked k
  known_le {h j : ScopeId} : j ∈ a.scopesKnowing h → h ≤ a.lastScope ∧ h ≠ rootScope
  known_linked {h j : ScopeId} {s : Scope} : j ∈ a.scopesKnowing h → a.get? h = some s →
    a.Linked h ∧ rootScope ∈ a.scopesKnowing h ∧ s.compiling = false

theorem Linked.get? {a : Arena} {id : ScopeId} (h : a.Linked id) : ∃ s, a.get? id = some s := by
  obtain ⟨s, hs, -⟩ := h
  exact ⟨s, hs⟩

namespace Tree

variable {a : Arena} (hT : a.Tree)
include hT

theorem root_le : rootScope ≤ a.lastScope := by
  obtain ⟨s, hs, -⟩ := hT.root
  exact hT.forest.le_last hs

theorem linked_root : a.Linked rootScope := by
  obtain ⟨s, hs, hp, -⟩ := hT.root
  refine ⟨s, hs, fun p hp' => ?_⟩
  rw [hp] at hp'
  cases hp'

theorem linked_parent {id p : ScopeId} {s : Scope} (h : a.Linked id) (hs : a.get? id = some s)
    (hp : s.parent = some p) : a.Linked p := by
  obtain ⟨s', hs', hlive⟩ := h
  rw [hs] at hs'
  cases hs'
  obtain ⟨t, ht⟩ := hlive p hp
  exact hT.linked_of_child ht (hT.forest.to_child hs hp ht)

/-- **A scope with a way out has the top level on its chain.** -/
theorem mem_chain {id : ScopeId} (h : a.Linked id) : rootScope ∈ a.chain id := by
  induction id using Nat.strongRecOn with
  | ind id ih =>
    obtain ⟨s, hs⟩ := h.get?
    cases hp : s.parent with
    | none =>
      have he := hT.noParent hs hp
      rw [he] at hs ⊢
      exact mem_chain_self hT.forest hs
    | some p =>
      have hlt := hT.forest.parent_lt hs hp
      exact mem_chain_of_parent hT.forest hs hp (ih p hlt (hT.linked_parent h hs hp))

/-- Everything on the chain of a scope with a way out has one. -/
theorem linked_of_mem_chain {k id : ScopeId} (h : a.Linked id) (hk : k ∈ a.chain id) :
    a.Linked k := by
  induction id using Nat.strongRecOn with
  | ind id ih =>
    obtain ⟨s, hs, rfl | ⟨p, hp, hkp⟩⟩ := mem_chain_cases hT.forest hk
    · exact h
    · exact ih p (hT.forest.parent_lt hs hp) (hT.linked_parent h hs hp) hkp

theorem chain_root : a.chain rootScope = [rootScope] := by
  obtain ⟨s, hs, hp, -⟩ := hT.root
  exact chain_of_noParent hT.forest hs hp

theorem root_ne_parent {id : ScopeId} {s : Scope} (hs : a.get? id = some s) (hne : id ≠ rootScope) :
    ∃ p, s.parent = some p := by
  cases hp : s.parent with
  | none => exact absurd (hT.noParent hs hp) hne
  | some p => exact ⟨p, rfl⟩

/-- **Looking outwards from a scope with a way out, there is a process**, or the top level. -/
theorem processRoot {id : ScopeId} (hl : a.Linked id) :
    ∃ owner s, a.processRoot id = .ok owner ∧ a.get? owner = some s ∧
      (owner = rootScope ∨ s.spawned = true) := by
  unfold Arena.processRoot
  have hn : (a.chain id).length < a.size + 1 :=
    Nat.lt_succ_of_le (hT.forest.acyclic.length_chainUpTo_le _ id)
  generalize a.size + 1 = n at hn
  induction n generalizing id with
  | zero => exact absurd hn (Nat.not_lt_zero _)
  | succ n ih =>
    obtain ⟨s, hs⟩ := hl.get?
    rw [processRootUpTo, hs]
    dsimp only
    cases hp : s.parent with
    | none => exact ⟨id, s, rfl, hs, Or.inl (hT.noParent hs hp)⟩
    | some p =>
      cases hsp : s.spawned with
      | true => exact ⟨id, s, rfl, hs, Or.inr hsp⟩
      | false =>
        refine ih (hT.linked_parent hl hs hp) ?_
        rw [chain_of_parent hT.forest hs hp] at hn
        exact Nat.lt_of_succ_lt_succ hn

/-- What a scope resolves as a block is there, is finished, and is known to the top level. -/
theorem of_resolveBlock {id h k : ScopeId} (hr : a.resolveBlock id h = .ok k) :
    k = h ∧ (∃ s, a.get? h = some s ∧ s.compiling = false) ∧ a.Linked h ∧ h ≠ rootScope ∧
      rootScope ∈ a.scopesKnowing h := by
  unfold resolveBlock at hr
  dsimp only at hr
  split at hr
  · rename_i hc
    rw [Bool.and_eq_true, contains_iff, List.any_eq_true] at hc
    obtain ⟨⟨s, hs⟩, j, -, hj⟩ := hc
    have hj : j ∈ a.scopesKnowing h := by simpa using hj
    obtain ⟨hl, hr', hcomp⟩ := hT.known_linked hj hs
    cases hr
    exact ⟨rfl, ⟨s, hs, hcomp⟩, hl, (hT.known_le hj).2, hr'⟩
  · cases hr

/-- A block that is there and known to the top level is found from every scope with a way out. -/
theorem resolveBlock_eq_ok {id h : ScopeId} (hl : a.Linked id) (hh : ∃ s, a.get? h = some s)
    (hk : rootScope ∈ a.scopesKnowing h) : a.resolveBlock id h = .ok h := by
  unfold resolveBlock
  dsimp only
  rw [if_pos]
  rw [Bool.and_eq_true, contains_iff, List.any_eq_true]
  exact ⟨hh, rootScope, hT.mem_chain hl, by simpa using hk⟩

end Tree

/-! ## 2. Changes that leave the links alone -/

/-- The scope is a block that may be open. -/
def MayOpen (a : Arena) (k : ScopeId) : Prop := k ≤ a.lastScope ∧ k ≠ rootScope ∧ a.Linked k

/-- The same scopes hang together in the same way. -/
structure Alike (a b : Arena) : Prop where
  get? {id : ScopeId} {t : Scope} : b.get? id = some t → ∃ s, a.get? id = some s ∧
    t.parent = s.parent ∧ t.children = s.children ∧ (t.compiling = true → s.compiling = true)
  none {id : ScopeId} : b.get? id = none → a.get? id = none
  opens {q k : ScopeId} {t : Scope} : b.get? q = some t → k ∈ t.compileStack →
    (∃ s, a.get? q = some s ∧ k ∈ s.compileStack) ∨ a.MayOpen k
  known (h : ScopeId) : b.scopesKnowing h = a.scopesKnowing h
  lastScope : b.lastScope = a.lastScope

namespace Alike

theorem refl (a : Arena) : a.Alike a :=
  ⟨fun {_ t} h => ⟨t, h, rfl, rfl, fun h => h⟩, fun h => h, fun {_ _ t} h hk => Or.inl ⟨t, h, hk⟩,
    fun _ => rfl, rfl⟩

theorem get?_of {a b : Arena} (hA : a.Alike b) {id : ScopeId} {s : Scope}
    (hs : a.get? id = some s) : ∃ t, b.get? id = some t ∧ t.parent = s.parent ∧
      t.children = s.children ∧ (t.compiling = true → s.compiling = true) := by
  cases ht : b.get? id with
  | none =>
    rw [hA.none ht] at hs
    cases hs
  | some t =>
    obtain ⟨s', hs', h⟩ := hA.get? ht
    rw [hs] at hs'
    cases hs'
    exact ⟨t, rfl, h⟩

theorem linked_iff {a b : Arena} (hA : a.Alike b) {id : ScopeId} :
    b.Linked id ↔ a.Linked id := by
  constructor
  · rintro ⟨t, ht, hlive⟩
    obtain ⟨s, hs, hp, -⟩ := hA.get? ht
    refine ⟨s, hs, fun p hp' => ?_⟩
    obtain ⟨u, hu⟩ := hlive p (hp.trans hp')
    obtain ⟨v, hv, -⟩ := hA.get? hu
    exact ⟨v, hv⟩
  · rintro ⟨s, hs, hlive⟩
    obtain ⟨t, ht, hp, -⟩ := hA.get?_of hs
    refine ⟨t, ht, fun p hp' => ?_⟩
    obtain ⟨u, hu⟩ := hlive p (hp ▸ hp')
    obtain ⟨v, hv, -⟩ := hA.get?_of hu
    exact ⟨v, hv⟩

theorem trans {a b c : Arena} (hab : a.Alike b) (hbc : b.Alike c) : a.Alike c where
  get? {id u} hu := by
    obtain ⟨t, ht, hp, hc, hcomp⟩ := hbc.get? hu
    obtain ⟨s, hs, hp', hc', hcomp'⟩ := hab.get? ht
    exact ⟨s, hs, hp.trans hp', hc.trans hc', fun h => hcomp' (hcomp h)⟩
  none h := hab.none (hbc.none h)
  opens {q k u} hu hk := by
    rcases hbc.opens hu hk with ⟨t, ht, hk⟩ | ⟨hle, hne, hl⟩
    · exact hab.opens ht hk
    · exact Or.inr ⟨hab.lastScope ▸ hle, hne, hab.linked_iff.mp hl⟩
  known h := (hbc.known h).trans (hab.known h)
  lastScope := hbc.lastScope.trans hab.lastScope

/-- Changing one scope, but not where it hangs. -/
theorem modify (a : Arena) (id : ScopeId) (f : Scope → Scope)
    (hf : ∀ s, a.get? id = some s → (f s).parent = s.parent ∧ (f s).children = s.children ∧
      ((f s).compiling = true → s.compiling = true) ∧
      ∀ k ∈ (f s).compileStack, k ∈ s.compileStack ∨ a.MayOpen k) :
    a.Alike (a.modify id f) where
  get? {k t} ht := by
    rw [get?_modify] at ht
    by_cases hk : k = id
    · rw [if_pos hk] at ht
      obtain ⟨s, hs, rfl⟩ := Option.map_eq_some_iff.mp ht
      rw [hk]
      obtain ⟨hp, hc, hcomp, -⟩ := hf s hs
      exact ⟨s, hs, hp, hc, hcomp⟩
    · rw [if_neg hk] at ht
      exact ⟨t, ht, rfl, rfl, fun h => h⟩
  none {k} h := by
    rw [get?_modify] at h
    by_cases hk : k = id
    · rw [if_pos hk, Option.map_eq_none_iff] at h
      rw [hk, h]
    · rwa [if_neg hk] at h
  opens {q k t} ht hk := by
    rw [get?_modify] at ht
    by_cases hq : q = id
    · rw [if_pos hq] at ht
      obtain ⟨s, hs, rfl⟩ := Option.map_eq_some_iff.mp ht
      rw [hq]
      exact ((hf s hs).2.2.2 k hk).imp_left fun hk => ⟨s, hs, hk⟩
    · rw [if_neg hq] at ht
      exact Or.inl ⟨t, ht, hk⟩
  known _ := rfl
  lastScope := rfl

variable {a b : Arena} (hA : a.Alike b)
include hA

theorem forest (hF : a.Forest) : b.Forest where
  le_last {id t} ht := by
    obtain ⟨s, hs, -⟩ := hA.get? ht
    rw [hA.lastScope]
    exact hF.le_last hs
  parent_lt {id p t} ht hp := by
    obtain ⟨s, hs, hps, -⟩ := hA.get? ht
    exact hF.parent_lt hs (hps ▸ hp)
  of_child {p k t} ht hk := by
    obtain ⟨s, hs, -, hcs, -⟩ := hA.get? ht
    obtain ⟨u, hu, hpu⟩ := hF.of_child hs (hcs ▸ hk)
    obtain ⟨v, hv, hpv, -⟩ := hA.get?_of hu
    exact ⟨v, hv, hpv.trans hpu⟩
  to_child {p k t u} hu hpu ht := by
    obtain ⟨v, hv, hpv, -⟩ := hA.get? hu
    obtain ⟨s, hs, -, hcs, -⟩ := hA.get? ht
    rw [hcs]
    exact hF.to_child hv (hpv ▸ hpu) hs

theorem get?_none {id : ScopeId} (hs : a.get? id = Option.none) : b.get? id = Option.none := by
  cases ht : b.get? id with
  | none => rfl
  | some t =>
    obtain ⟨s, hs', -⟩ := hA.get? ht
    rw [hs] at hs'
    cases hs'

theorem acyclic (hacyclic : a.Acyclic) : b.Acyclic := by
  refine hacyclic.mono fun ⟨t, ht, hp⟩ => ?_
  obtain ⟨s, hs, hps, -⟩ := hA.get? ht
  exact ⟨s, hs, hps ▸ hp⟩

theorem chain_kept (hacyclic : a.Acyclic) (id : ScopeId) : b.chain id = a.chain id := by
  refine hacyclic.chain_congr (hA.acyclic hacyclic) (P := fun _ => True) (fun j _ => ?_)
    (fun _ _ _ _ => trivial) trivial
  cases hs : a.get? j with
  | none => rw [hA.get?_none hs]
  | some s =>
    obtain ⟨t, ht, hpt, -⟩ := hA.get?_of hs
    rw [ht, Option.map_some, Option.map_some, hpt]

theorem chain_eq (hF : a.Forest) (id : ScopeId) : b.chain id = a.chain id :=
  hA.chain_kept hF.acyclic id

theorem tree (hT : a.Tree) : b.Tree where
  forest := hA.forest hT.forest
  root := by
    obtain ⟨s, hs, hp, hc⟩ := hT.root
    obtain ⟨t, ht, hpt, -, hct⟩ := hA.get?_of hs
    refine ⟨t, ht, hpt.trans hp, ?_⟩
    rw [← Bool.not_eq_true] at hc ⊢
    exact fun h => hc (hct h)
  noParent {id t} ht hp := by
    obtain ⟨s, hs, hpt, -⟩ := hA.get? ht
    exact hT.noParent hs (hpt ▸ hp)
  linked_of_child {id k t} ht hk := by
    obtain ⟨s, hs, -, hct, -⟩ := hA.get? ht
    exact hA.linked_iff.mpr (hT.linked_of_child hs (hct ▸ hk))
  open_le {q k t} ht hk := by
    rw [hA.lastScope]
    rcases hA.opens ht hk with ⟨s, hs, hk⟩ | ⟨hle, hne, -⟩
    · exact hT.open_le hs hk
    · exact ⟨hle, hne⟩
  open_linked {q k t u} ht hk hu := by
    refine hA.linked_iff.mpr ?_
    rcases hA.opens ht hk with ⟨s, hs, hk⟩ | ⟨-, -, hl⟩
    · obtain ⟨v, hv, -⟩ := hA.get? hu
      exact hT.open_linked hs hk hv
    · exact hl
  known_le {h j} hj := by
    rw [hA.lastScope]
    exact hT.known_le (hA.known h ▸ hj)
  known_linked {h j t} hj ht := by
    rw [hA.known] at hj ⊢
    obtain ⟨s, hs, -, -, hct⟩ := hA.get? ht
    obtain ⟨hl, hr, hc⟩ := hT.known_linked hj hs
    refine ⟨hA.linked_iff.mpr hl, hr, ?_⟩
    rw [← Bool.not_eq_true] at hc ⊢
    exact fun h => hc (hct h)

end Alike

/-! ## 3. A block comes -/

/-- A block that has just been opened. -/
def newBlock (parent : ScopeId) (stack : StackId) (shares : Bool) : Scope :=
  { parent := some parent, stack, sharesStack := shares, compiling := true }

/-- The children of a scope when the block `new` has been added to the scope `parent`. -/
def childrenWith (parent new k : ScopeId) (s : Scope) : ScopeSet :=
  if k = parent then s.children.insert new else s.children

theorem mem_childrenWith {parent new k j : ScopeId} {s : Scope} :
    j ∈ childrenWith parent new k s ↔ (k = parent ∧ j = new) ∨ j ∈ s.children := by
  unfold childrenWith
  by_cases hk : k = parent
  · rw [if_pos hk]
    exact (s.mem_children_addChild new j).trans (by simp [hk])
  · rw [if_neg hk]
    exact ⟨Or.inr, fun h => h.resolve_left fun h' => hk h'.1⟩

/-- A block has been added under a new id, with a new empty stack. -/
structure Added (a : Arena) (parent : ScopeId) (shares : Bool) (b : Arena) : Prop where
  get? (k : ScopeId) : b.get? k =
    if k = a.lastScope + 1 then some (newBlock parent (a.lastStack + 1) shares)
    else (a.get? k).map fun s => { s with children := childrenWith parent (a.lastScope + 1) k s }
  known (h : ScopeId) : b.scopesKnowing h = a.scopesKnowing h
  lastScope : b.lastScope = a.lastScope + 1
  lastStack : b.lastStack = a.lastStack + 1
  stackCells (σ : StackId) : b.stackCells σ = if σ = a.lastStack + 1 then [] else a.stackCells σ

theorem get?_create (a : Arena) (make : StackId → Scope) (k : ScopeId) :
    (a.create make).2.get? k =
      if k = a.lastScope + 1 then some (make (a.lastStack + 1)) else a.get? k := by
  simp only [create, newStack, get?, Std.TreeMap.getElem?_insert, Nat.compare_eq_eq]
  by_cases hk : k = a.lastScope + 1
  · simp [hk]
  · simp [hk, Ne.symm hk]

theorem stackCells_create (a : Arena) (make : StackId → Scope) (σ : StackId) :
    (a.create make).2.stackCells σ = if σ = a.lastStack + 1 then [] else a.stackCells σ := by
  simp only [create, newStack, stackCells, stack, Std.TreeMap.getD_insert, Nat.compare_eq_eq]
  by_cases hσ : σ = a.lastStack + 1
  · simp [hσ]
  · simp [hσ, Ne.symm hσ]

/-- Opening a block adds it in any case, and fails if its parent is gone. -/
theorem createChild_added {a : Arena} {parent : ScopeId} (hle : parent ≤ a.lastScope)
    (shares : Bool) :
    a.Added parent shares (a.createChild parent shares).2 ∧
      (a.createChild parent shares).1 =
        match a.get? parent with
        | some _ => .ok (a.lastScope + 1)
        | none => .error (.scopeGone parent) := by
  have hne : parent ≠ a.lastScope + 1 := fun h => Nat.not_succ_le_self _ (h ▸ hle)
  generalize hb : (a.create fun stack => newBlock parent stack shares).2 = b
  have hget (k : ScopeId) : b.get? k =
      if k = a.lastScope + 1 then some (newBlock parent (a.lastStack + 1) shares)
      else a.get? k := by
    rw [← hb, get?_create]
  have hcells (σ : StackId) : b.stackCells σ =
      if σ = a.lastStack + 1 then [] else a.stackCells σ := by
    rw [← hb, stackCells_create]
  have hparent : b.get? parent = a.get? parent := by rw [hget, if_neg hne]
  have hother {k : ScopeId} (hk : k ≠ parent) :
      (fun s : Scope => { s with children := childrenWith parent (a.lastScope + 1) k s }) = id := by
    funext s
    rw [childrenWith, if_neg hk]
    rfl
  have hmade : (a.create fun stack =>
      { parent := some parent, stack, sharesStack := shares, compiling := true }) =
        (a.lastScope + 1, b) := by
    rw [← hb]
    rfl
  have hknown : b.known = a.known := by rw [← hb]; rfl
  have hscope : b.lastScope = a.lastScope + 1 := by rw [← hb]; rfl
  have hstack : b.lastStack = a.lastStack + 1 := by rw [← hb]; rfl
  cases hs : a.get? parent with
  | none =>
    simp only [createChild, hmade, get_eq_error.mpr ⟨hparent.trans hs, rfl⟩]
    refine ⟨⟨fun k => ?_, fun h => ?_, hscope, hstack, hcells⟩, trivial⟩
    · rw [hget]
      by_cases hk : k = parent
      · rw [hk, if_neg hne, if_neg hne, hs]
        rfl
      · rw [hother hk, Option.map_id, id]
    · rw [scopesKnowing, scopesKnowing, hknown]
  | some s =>
    simp only [createChild, hmade, get_eq_ok.mpr (hparent.trans hs)]
    refine ⟨⟨fun k => ?_, fun h => ?_, hscope, hstack, hcells⟩, trivial⟩
    · rw [get?_modify]
      by_cases hk : k = parent
      · rw [if_pos hk, hk, if_neg hne, hparent, hs]
        simp only [Option.map_some, childrenWith, if_true]
        rfl
      · rw [if_neg hk, hget, hother hk, Option.map_id, id]
    · show b.scopesKnowing h = a.scopesKnowing h
      rw [scopesKnowing, scopesKnowing, hknown]

namespace Added

variable {a b : Arena} {parent : ScopeId} {shares : Bool} (hA : a.Added parent shares b)
include hA

theorem get?_new : b.get? (a.lastScope + 1) = some (newBlock parent (a.lastStack + 1) shares) := by
  rw [hA.get?, if_pos rfl]

theorem get?_of {k : ScopeId} {s : Scope} (hF : a.Forest) (hs : a.get? k = some s) :
    b.get? k = some { s with children := childrenWith parent (a.lastScope + 1) k s } := by
  have hk : k ≠ a.lastScope + 1 := fun h => Nat.not_succ_le_self _ (h ▸ hF.le_last hs)
  rw [hA.get?, if_neg hk, hs]
  rfl

theorem get?_none {k : ScopeId} (hk : k ≤ a.lastScope) (hs : a.get? k = none) :
    b.get? k = none := by
  rw [hA.get?, if_neg (fun h => Nat.not_succ_le_self _ (h ▸ hk)), hs]
  rfl

/-- Whatever is there is the new block, or was there. -/
theorem of_get? {k : ScopeId} {t : Scope} (ht : b.get? k = some t) :
    (k = a.lastScope + 1 ∧ t = newBlock parent (a.lastStack + 1) shares) ∨
    ∃ s, a.get? k = some s ∧
      t = { s with children := childrenWith parent (a.lastScope + 1) k s } := by
  rw [hA.get?] at ht
  by_cases hk : k = a.lastScope + 1
  · rw [if_pos hk] at ht
    exact Or.inl ⟨hk, (Option.some.inj ht).symm⟩
  · rw [if_neg hk] at ht
    obtain ⟨s, hs, rfl⟩ := Option.map_eq_some_iff.mp ht
    exact Or.inr ⟨s, hs, rfl⟩

theorem linked {id : ScopeId} (hF : a.Forest) (h : a.Linked id) : b.Linked id := by
  obtain ⟨s, hs, hlive⟩ := h
  refine ⟨_, hA.get?_of hF hs, fun p hp => ?_⟩
  obtain ⟨t, ht⟩ := hlive p hp
  exact ⟨_, hA.get?_of hF ht⟩

theorem linked_new (hF : a.Forest) {s : Scope} (hs : a.get? parent = some s) :
    b.Linked (a.lastScope + 1) := by
  refine ⟨_, hA.get?_new, fun p hp => ?_⟩
  cases hp
  exact ⟨_, hA.get?_of hF hs⟩

theorem forest (hF : a.Forest) (hle : parent ≤ a.lastScope) : b.Forest where
  le_last {k t} ht := by
    rw [hA.lastScope]
    rcases hA.of_get? ht with ⟨rfl, -⟩ | ⟨s, hs, -⟩
    · exact Nat.le_refl _
    · exact Nat.le_succ_of_le (hF.le_last hs)
  parent_lt {k p t} ht hp := by
    rcases hA.of_get? ht with ⟨rfl, rfl⟩ | ⟨s, hs, rfl⟩
    · cases hp
      exact Nat.lt_succ_of_le hle
    · exact hF.parent_lt hs hp
  of_child {p k t} ht hk := by
    rcases hA.of_get? ht with ⟨-, rfl⟩ | ⟨s, hs, rfl⟩
    · exact absurd hk Std.TreeSet.not_mem_emptyc
    · rcases mem_childrenWith.mp hk with ⟨rfl, rfl⟩ | hk
      · exact ⟨_, hA.get?_new, rfl⟩
      · obtain ⟨u, hu, hpu⟩ := hF.of_child hs hk
        exact ⟨_, hA.get?_of hF hu, hpu⟩
  to_child {p k t u} hu hpu ht := by
    rcases hA.of_get? ht with ⟨rfl, -⟩ | ⟨s, hs, rfl⟩
    · -- the new block is nobody's parent
      rcases hA.of_get? hu with ⟨-, rfl⟩ | ⟨v, hv, rfl⟩
      · cases hpu
        exact absurd hle (Nat.not_succ_le_self _)
      · have hlt := hF.parent_lt hv hpu
        exact absurd (hF.le_last hv) (Nat.not_le_of_lt (Nat.lt_of_succ_lt hlt))
    · refine mem_childrenWith.mpr ?_
      rcases hA.of_get? hu with ⟨rfl, rfl⟩ | ⟨v, hv, rfl⟩
      · cases hpu
        exact Or.inl ⟨rfl, rfl⟩
      · exact Or.inr (hF.to_child hv hpu hs)

/-- The scopes that were there have the chains they had. -/
theorem chain_eq (hF : a.Forest) (hle : parent ≤ a.lastScope) {k : ScopeId}
    (hk : k ≤ a.lastScope) : b.chain k = a.chain k := by
  refine hF.acyclic.chain_congr (hA.forest hF hle).acyclic (P := (· ≤ a.lastScope))
    (fun j hj => ?_) (fun j p hj ⟨s, hs, hp⟩ => Nat.le_trans (Nat.le_of_lt (hF.parent_lt hs hp)) hj) hk
  cases hs : a.get? j with
  | none => rw [hA.get?_none hj hs]
  | some s => rw [hA.get?_of hF hs, Option.map_some, Option.map_some]

theorem tree (hT : a.Tree) (hle : parent ≤ a.lastScope)
    (hl : ∀ s, a.get? parent = some s → a.Linked parent) : b.Tree where
  forest := hA.forest hT.forest hle
  root := by
    obtain ⟨s, hs, hp, hc⟩ := hT.root
    exact ⟨_, hA.get?_of hT.forest hs, hp, hc⟩
  noParent {k t} ht hp := by
    rcases hA.of_get? ht with ⟨-, rfl⟩ | ⟨s, hs, rfl⟩
    · cases hp
    · exact hT.noParent hs hp
  linked_of_child {k j t} ht hj := by
    rcases hA.of_get? ht with ⟨-, rfl⟩ | ⟨s, hs, rfl⟩
    · exact absurd hj Std.TreeSet.not_mem_emptyc
    · rcases mem_childrenWith.mp hj with ⟨rfl, -⟩ | hj
      · exact hA.linked hT.forest (hl s hs)
      · exact hA.linked hT.forest (hT.linked_of_child hs hj)
  open_le {q k t} ht hk := by
    rw [hA.lastScope]
    rcases hA.of_get? ht with ⟨-, rfl⟩ | ⟨s, hs, rfl⟩
    · cases hk
    · exact (hT.open_le hs hk).imp_left Nat.le_succ_of_le
  open_linked {q k t u} ht hk hu := by
    rcases hA.of_get? ht with ⟨-, rfl⟩ | ⟨s, hs, rfl⟩
    · cases hk
    · rcases hA.of_get? hu with ⟨rfl, -⟩ | ⟨v, hv, -⟩
      · exact absurd (hT.open_le hs hk).1 (Nat.not_succ_le_self _)
      · exact hA.linked hT.forest (hT.open_linked hs hk hv)
  known_le {h j} hj := by
    rw [hA.lastScope]
    exact (hT.known_le (hA.known h ▸ hj)).imp_left Nat.le_succ_of_le
  known_linked {h j t} hj ht := by
    rw [hA.known] at hj ⊢
    rcases hA.of_get? ht with ⟨rfl, -⟩ | ⟨s, hs, rfl⟩
    · exact absurd (hT.known_le hj).1 (Nat.not_succ_le_self _)
    · exact (hT.known_linked hj hs).imp_left (hA.linked hT.forest)

end Added

/-! ## 4. A block becomes known -/

theorem mem_scopesKnowing_makeKnown (a : Arena) (block h j : ScopeId) (scopes : List ScopeId) :
    j ∈ (a.makeKnown block scopes).scopesKnowing h ↔
      j ∈ a.scopesKnowing h ∨ (h = block ∧ j ∈ scopes) := by
  simp only [makeKnown, scopesKnowing, Std.TreeMap.getD_insert, Nat.compare_eq_eq]
  by_cases hh : block = h
  · subst hh
    by_cases hj : j ∈ scopes <;> simp [hj]
  · simp [hh, Ne.symm hh]

/-- **A finished block becomes known to all scopes around it.** -/
theorem Tree.makeKnown {a : Arena} (hT : a.Tree) {block p : ScopeId} {s : Scope}
    (hs : a.get? block = some s) (hl : a.Linked block) (hp : s.parent = some p)
    (hc : s.compiling = false) (hne : block ≠ rootScope) :
    (a.makeKnown block (a.chain p)).Tree := by
  have hroot : rootScope ∈ a.chain p := hT.mem_chain (hT.linked_parent hl hs hp)
  refine ⟨⟨hT.forest.le_last, hT.forest.parent_lt, hT.forest.of_child, hT.forest.to_child⟩, hT.root,
    hT.noParent, hT.linked_of_child, hT.open_le, hT.open_linked, fun {h j} hj => ?_,
    fun {h j t} hj ht => ?_⟩
  · rcases (mem_scopesKnowing_makeKnown a block h j _).mp hj with hj | ⟨rfl, -⟩
    · exact hT.known_le hj
    · exact ⟨hT.forest.le_last hs, hne⟩
  · rcases (mem_scopesKnowing_makeKnown a block h j _).mp hj with hj | ⟨rfl, -⟩
    · obtain ⟨hl', hr, hct⟩ := hT.known_linked hj ht
      exact ⟨hl', (mem_scopesKnowing_makeKnown a block h _ _).mpr (Or.inl hr), hct⟩
    · cases hs.symm.trans ht
      exact ⟨hl, (mem_scopesKnowing_makeKnown a h h _ _).mpr (Or.inr ⟨rfl, hroot⟩), hc⟩

/-! ## 5. A block goes -/

section Pruned

variable {a b : Arena} {top : ScopeId} (hP : a.Pruned top b) (hF : a.Forest)
include hP hF

theorem Pruned.linked {id : ScopeId} (h : a.Linked id) (hid : top ∉ a.chain id) : b.Linked id := by
  obtain ⟨s, hs, hlive⟩ := h
  obtain ⟨cs, hcs, -⟩ := hP.kept hs hid
  refine ⟨_, hcs, fun p hp => ?_⟩
  obtain ⟨t, ht⟩ := hlive p hp
  obtain ⟨cs', hcs', -⟩ := hP.kept ht fun hc => hid (mem_chain_of_parent hF hs hp hc)
  exact ⟨_, hcs'⟩

omit hF in
/-- **The tree stays a tree if a scope other than the top level goes.** -/
theorem Pruned.tree (hT : a.Tree) (hne : top ≠ rootScope) : b.Tree where
  forest := hP.forest hT.forest
  root := by
    obtain ⟨s, hs, hp, hc⟩ := hT.root
    obtain ⟨cs, hcs, -⟩ := hP.kept hs fun h => hne (by
      rw [hT.chain_root] at h
      exact List.mem_singleton.mp h)
    exact ⟨_, hcs, hp, hc⟩
  noParent {k t} ht hp := by
    obtain ⟨-, s, hs, hts, -⟩ := hP.of_get? ht
    rw [hts] at hp
    exact hT.noParent hs hp
  linked_of_child {k j t} ht hj := by
    obtain ⟨hk, s, hs, -, hmem⟩ := hP.of_get? ht
    exact hP.linked hT.forest (hT.linked_of_child hs ((hmem j).mp hj).1) hk
  open_le {q k t} ht hk := by
    obtain ⟨-, s, hs, hts, -⟩ := hP.of_get? ht
    rw [hts] at hk
    rw [hP.lastScope]
    exact hT.open_le hs hk
  open_linked {q k t u} ht hk hu := by
    obtain ⟨-, s, hs, hts, -⟩ := hP.of_get? ht
    obtain ⟨hk', v, hv, -⟩ := hP.of_get? hu
    rw [hts] at hk
    exact hP.linked hT.forest (hT.open_linked hs hk hv) hk'
  known_le {h j} hj := by
    rw [hP.lastScope]
    exact hT.known_le (hP.knownTo hj)
  known_linked {h j t} hj ht := by
    obtain ⟨hh, s, hs, hts, -⟩ := hP.of_get? ht
    obtain ⟨hl, hr, hc⟩ := hT.known_linked (hP.knownTo hj) hs
    refine ⟨hP.linked hT.forest hl hh, ?_, ?_⟩
    · rwa [hP.known hh]
    · rw [hts]
      exact hc

end Pruned

end Arena

end ScopeStack
