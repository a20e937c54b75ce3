import ScopeStack.Proofs.Forest

/-!
# Taking scopes out of a forest

A scope is taken out together with everything below it. What stays keeps its chain, and a scope
that nothing refers to leaves no cell behind that names it.

* `Arena.Holds`: the cells a scope has in its code, its variables and its stacks.
* `Arena.Unreferenced`: what it means that nothing needs a scope (`unreferenced_of_eq_false`).
* `Arena.Reclaimed`: **what taking a scope out does, point by point**
  (`Branching.discard_reclaimed`).
* `Arena.Pruned`: what the rest of the theory needs of it (`discard_pruned`). A forest stays a forest
  (`Pruned.forest`), and the scopes that stay see the same scopes around them (`Pruned.chain_eq`).
-/

namespace ScopeStack.Arena

/-! ## 1. Holding cells -/

/-- The scope has the cell in its code, in a variable, or on one of its stacks. -/
def Holds (a : Arena) (id : ScopeId) (cell : Cell) : Prop :=
  ∃ s, a.get? id = some s ∧
    (cell ∈ s.code.cells ∨ cell ∈ s.boundCells ∨ ∃ σ ∈ s.allStacks, cell ∈ a.stackCells σ)

instance (a : Arena) (id : ScopeId) (cell : Cell) : Decidable (a.Holds id cell) :=
  match h : a.get? id with
  | none => .isFalse fun ⟨_, hs, _⟩ => by rw [h] at hs; cases hs
  | some s => decidable_of_iff
      (cell ∈ s.code.cells ∨ cell ∈ s.boundCells ∨ ∃ σ ∈ s.allStacks, cell ∈ a.stackCells σ)
      ⟨fun hc => ⟨s, h, hc⟩, fun ⟨_, hs, hc⟩ => by rw [h] at hs; cases hs; exact hc⟩

theorem mem_of_refersTo {ids : ScopeSet} {cells : List Cell}
    (h : cells.any (refersTo ids) = false) {k : ScopeId} (hk : Cell.block k ∈ cells) : k ∉ ids := by
  intro hm
  rw [List.any_eq_false] at h
  exact h _ hk hm

/-- Nothing needs a scope: nothing below it runs, no scope beside it names something below it, and
neither does any stack. -/
structure Unreferenced (a : Arena) (top : ScopeId) : Prop where
  idle {k : ScopeId} {s : Scope} : a.get? k = some s → top ∈ a.chain k →
    s.running = false ∧ s.calls = []
  unnamed {k h : ScopeId} {s : Scope} : a.get? k = some s → top ∉ a.chain k →
    (Cell.block h ∈ s.code.cells ∨ Cell.block h ∈ s.boundCells) → top ∉ a.chain h
  unstacked {k h : ScopeId} {s : Scope} {σ : StackId} : a.get? k = some s → σ ∈ s.allStacks →
    Cell.block h ∈ a.stackCells σ → top ∉ a.chain h

theorem Branching.unreferenced {a : Arena} (hB : a.Branching) {top : ScopeId}
    (h : a.isReferenced top = false) : a.Unreferenced top := by
  have hno {k : ScopeId} {s : Scope} (hs : a.get? k = some s) :
      a.keepsAlive (a.subtree top) k s = false := by
    rw [isReferenced, ← Bool.not_eq_true, any_eq_true] at h
    rw [← Bool.not_eq_true]
    exact fun hk => h ⟨k, s, hs, hk⟩
  have hin {k : ScopeId} : top ∈ a.chain k ↔ (a.subtree top).contains k = true :=
    hB.mem_subtree_iff.symm
  refine ⟨fun {k s} hs hk => ?_, fun {k h s} hs hk hh => ?_, fun {k h s σ} hs hσ hh => ?_⟩
  · have hl := hno hs
    rw [keepsAlive, if_pos (hin.mp hk), Bool.or_eq_false_iff, Bool.or_eq_false_iff] at hl
    refine ⟨hl.1.1, ?_⟩
    simpa using hl.1.2
  · have hl := hno hs
    rw [keepsAlive, if_neg (fun hc => hk (hin.mpr hc)), Bool.or_eq_false_iff,
      Bool.or_eq_false_iff, CodeBlock.any_eq] at hl
    rw [← hB.mem_subtree_iff]
    rcases hh with hh | hh
    · exact mem_of_refersTo hl.1.1 hh
    · exact mem_of_refersTo hl.1.2 hh
  · have hl := hno hs
    rw [keepsAlive, Bool.or_eq_false_iff, anyStacked] at hl
    rw [← hB.mem_subtree_iff]
    exact mem_of_refersTo (by simpa using List.any_eq_false.mp hl.2 σ hσ) hh

theorem unreferenced_of_eq_false {a : Arena} (hF : a.Forest) {top : ScopeId}
    (h : a.isReferenced top = false) : a.Unreferenced top := hF.branching.unreferenced h

/-- A scope that stays holds no block that goes. -/
theorem Unreferenced.not_mem_chain {a : Arena} {top : ScopeId} (hU : a.Unreferenced top)
    {k h : ScopeId} (hk : top ∉ a.chain k) (hh : a.Holds k (.block h)) : top ∉ a.chain h := by
  obtain ⟨s, hs, hcode | hbound | ⟨σ, hσ, hcell⟩⟩ := hh
  · exact hU.unnamed hs hk (Or.inl hcode)
  · exact hU.unnamed hs hk (Or.inr hbound)
  · exact hU.unstacked hs hσ hcell

/-! ## 2. The parts of a removal -/

theorem get?_removeAll (a : Arena) (ids : ScopeSet) (k : ScopeId) :
    (a.removeAll ids).get? k = if k ∈ ids then none else a.get? k := by
  have h (l : List ScopeId) (m : Std.TreeMap ScopeId Scope) :
      (l.foldl (·.erase ·) m)[k]? = if k ∈ l then none else m[k]? := by
    induction l generalizing m with
    | nil => simp
    | cons x l ih =>
      rw [List.foldl_cons, ih, Std.TreeMap.getElem?_erase]
      by_cases hx : x = k
      · simp [hx]
      · simp [hx, Ne.symm hx]
  rw [removeAll, get?, get?, Std.TreeSet.foldl_eq_foldl_toList, h]
  simp only [Std.TreeSet.mem_toList]

/-- Those who know a block of the set, other than the scopes of the set, still know it. -/
theorem scopesKnowing_makeUnknown (a : Arena) (blocks scopes : ScopeSet) (h : ScopeId) :
    (a.makeUnknown blocks scopes).scopesKnowing h =
      if h ∈ blocks then (a.scopesKnowing h).filter (!scopes.contains ·)
      else a.scopesKnowing h := by
  have hl (f : Option (List ScopeId) → Option (List ScopeId))
      (hf : ∀ old, (f old).getD [] = (old.getD []).filter (!scopes.contains ·)) (l : List ScopeId)
      (m : Std.TreeMap ScopeId (List ScopeId)) :
      (l.foldl (fun known block => known.alter block f) m).getD h [] =
      if h ∈ l then (m.getD h []).filter (!scopes.contains ·) else m.getD h [] := by
    induction l generalizing m with
    | nil => simp
    | cons x l ih =>
      rw [List.foldl_cons, ih, Std.TreeMap.getD_alter]
      by_cases hx : x = h
      · subst hx
        simp only [Nat.compare_eq_eq, if_true, List.mem_cons, true_or, hf]
        rw [Std.TreeMap.getD_eq_getD_getElem?]
        split <;> simp
      · simp [hx, Ne.symm hx]
  rw [makeUnknown, scopesKnowing, scopesKnowing, Std.TreeSet.foldl_eq_foldl_toList]
  refine (hl _ (fun old => ?_) blocks.toList a.known).trans ?_
  · split <;> simp_all
  · simp only [Std.TreeSet.mem_toList]

/-! ## 3. The removal -/

/-- What there is once `top` and everything below it has been taken out, point by point. -/
structure Reclaimed (a : Arena) (top : ScopeId) (b : Arena) : Prop where
  get? (k : ScopeId) : b.get? k =
    if top ∈ a.chain k then none
    else (a.get? k).map fun s => if top ∈ s.children then s.removeChild top else s
  /-- The blocks that go are forgotten by the scopes that go and by the scopes around. -/
  scopesKnowing (h : ScopeId) : b.scopesKnowing h =
    if top ∈ a.chain h then
      (a.scopesKnowing h).filter fun k => decide (top ∉ a.chain k ∧ k ∉ a.chain top)
    else a.scopesKnowing h
  lastScope : b.lastScope = a.lastScope
  stackHeap : b.stackHeap = a.stackHeap
  lastStack : b.lastStack = a.lastStack

/-- The two tables that a removal writes, whatever it does in between to the parent. -/
theorem Branching.reclaimed {a m : Arena} (hB : a.Branching) {top : ScopeId} {outer : ScopeSet}
    (houter : ∀ k, k ∈ outer ↔ top ∈ a.chain k ∨ k ∈ a.chain top)
    (hm : ∀ k, m.get? k = (a.get? k).map fun s =>
      if top ∈ s.children then s.removeChild top else s)
    (hknown : m.known = (a.makeUnknown (a.subtree top) outer).known)
    (hlast : m.lastScope = a.lastScope) (hheap : m.stackHeap = a.stackHeap)
    (hstack : m.lastStack = a.lastStack) : a.Reclaimed top (m.removeAll (a.subtree top)) where
  get? k := by
    rw [get?_removeAll, hm]
    simp only [hB.mem_subtree_iff]
  scopesKnowing h := by
    have hsame : (m.removeAll (a.subtree top)).scopesKnowing h =
        (a.makeUnknown (a.subtree top) outer).scopesKnowing h := by
      rw [Arena.scopesKnowing, Arena.scopesKnowing, ← hknown]
      rfl
    rw [hsame, scopesKnowing_makeUnknown]
    simp only [hB.mem_subtree_iff]
    congr 1
    refine List.filter_congr fun k _ => ?_
    rw [Bool.eq_iff_iff, decide_eq_true_iff, Bool.not_eq_true', ← Bool.not_eq_true,
      ← Std.TreeSet.mem_iff_contains, houter, not_or]
  lastScope := hlast
  stackHeap := hheap
  lastStack := hstack

/-- Only the parent has the scope as a child. -/
theorem Branching.mem_children_iff {a : Arena} (hB : a.Branching) {top k : ScopeId} {s t : Scope}
    (hs : a.get? top = some s) (ht : a.get? k = some t) :
    top ∈ t.children ↔ s.parent = some k := by
  refine ⟨fun hk => ?_, fun hp => hB.to_child hs hp ht⟩
  obtain ⟨u, hu, hp⟩ := hB.of_child ht hk
  cases hs.symm.trans hu
  exact hp

/-- **A scope that is there is taken out, with what is below it and nothing else**, if its parent is
there too. -/
theorem Branching.discard_reclaimed {a : Arena} (hB : a.Branching) {top : ScopeId} {s : Scope}
    (hs : a.get? top = some s) (hlive : ∀ p, s.parent = some p → ∃ t, a.get? p = some t) :
    ∃ b, a.discard top = .ok (a.poolsOf (a.subtree top), b) ∧ a.Reclaimed top b := by
  have hA := hB.acyclic
  rw [discard, get_eq_ok.mpr hs]
  cases hp : s.parent with
  | none =>
    simp only [hp, bind, Except.bind, pure, Except.pure]
    refine ⟨_, rfl, hB.reclaimed (fun k => ?_) (fun k => ?_) rfl rfl rfl rfl⟩
    · rw [hB.mem_subtree_iff, hA.chain_of_noParent hs hp, List.mem_singleton]
      refine ⟨Or.inl, fun h => h.elim id fun he => ?_⟩
      rw [he]
      exact hA.mem_chain_self hs
    · show a.get? k = _
      cases ht : a.get? k with
      | none => rfl
      | some t =>
        have hno : top ∉ t.children := fun hk => by
          have hk := (hB.mem_children_iff hs ht).mp hk
          rw [hp] at hk
          cases hk
        rw [Option.map_some, if_neg hno]
  | some p =>
    obtain ⟨u, hu⟩ := hlive p hp
    simp only [hp, bind, Except.bind, pure, Except.pure, get_eq_ok.mpr hu]
    refine ⟨_, rfl, hB.reclaimed (fun k => ?_) (fun k => ?_) rfl rfl rfl rfl⟩
    · have hins : k ∈ (a.subtree top).insertMany (a.chain p) ↔ k ∈ a.subtree top ∨ k ∈ a.chain p := by
        simp
      rw [hins, hB.mem_subtree_iff, hA.chain_of_parent hs hp, List.mem_cons]
      refine ⟨Or.imp_right Or.inr, fun h => h.elim Or.inl fun h => h.elim (fun he => Or.inl ?_) Or.inr⟩
      rw [he]
      exact hA.mem_chain_self hs
    · rw [get?_modify]
      show (if k = p then (a.get? p).map _ else a.get? k) = _
      by_cases hk : k = p
      · subst hk
        rw [if_pos rfl, hu, Option.map_some, Option.map_some,
          if_pos ((hB.mem_children_iff hs hu).mpr hp)]
      · rw [if_neg hk]
        cases ht : a.get? k with
        | none => rfl
        | some t =>
          have hno : top ∉ t.children := fun hc =>
            hk (Option.some.inj (((hB.mem_children_iff hs ht).mp hc).symm.trans hp))
          rw [Option.map_some, if_neg hno]

/-- The scope `top` and everything below it is gone, and all else is as it was, except that the
parent of `top` has lost a child. -/
structure Pruned (a : Arena) (top : ScopeId) (b : Arena) : Prop where
  gone {k : ScopeId} : top ∈ a.chain k → b.get? k = none
  kept {k : ScopeId} {s : Scope} : a.get? k = some s → top ∉ a.chain k →
    ∃ cs : ScopeSet, b.get? k = some { s with children := cs } ∧
      ∀ j, j ∈ cs ↔ j ∈ s.children ∧ j ≠ top
  absent {k : ScopeId} : a.get? k = none → b.get? k = none
  known {h : ScopeId} : top ∉ a.chain h → b.scopesKnowing h = a.scopesKnowing h
  knownTo {h j : ScopeId} : j ∈ b.scopesKnowing h → j ∈ a.scopesKnowing h
  lastScope : b.lastScope = a.lastScope
  stackHeap : b.stackHeap = a.stackHeap
  lastStack : b.lastStack = a.lastStack

theorem Reclaimed.pruned {a b : Arena} {top : ScopeId} (hR : a.Reclaimed top b) :
    a.Pruned top b where
  gone hk := by rw [hR.get?, if_pos hk]
  kept {k s} hs hk := by
    rw [hR.get?, if_neg hk, hs, Option.map_some]
    by_cases hc : top ∈ s.children
    · rw [if_pos hc]
      exact ⟨(s.removeChild top).children, rfl, fun j => by
        rw [Scope.mem_children_removeChild, and_comm]⟩
    · rw [if_neg hc]
      exact ⟨_, rfl, fun j => ⟨fun hj => ⟨hj, fun he => hc (he ▸ hj)⟩, And.left⟩⟩
  absent hk := by rw [hR.get?, hk, Option.map_none, ite_self]
  known hk := by rw [hR.scopesKnowing, if_neg hk]
  knownTo {h j} hj := by
    rw [hR.scopesKnowing] at hj
    split at hj
    · exact (List.mem_filter.mp hj).1
    · exact hj
  lastScope := hR.lastScope
  stackHeap := hR.stackHeap
  lastStack := hR.lastStack

/-- What a removal that succeeds finds. -/
theorem get?_of_discard {a b : Arena} {top : ScopeId} {pools : List PoolId}
    (h : a.discard top = .ok (pools, b)) :
    ∃ s, a.get? top = some s ∧ ∀ p, s.parent = some p → ∃ t, a.get? p = some t := by
  cases hs : a.get? top with
  | none => rw [discard, get_eq_error.mpr ⟨hs, rfl⟩] at h; cases h
  | some s =>
    refine ⟨s, rfl, fun p hp => ?_⟩
    rw [discard, get_eq_ok.mpr hs] at h
    simp only [hp, bind, Except.bind] at h
    cases hpp : a.get? p with
    | none => rw [get_eq_error.mpr ⟨hpp, rfl⟩] at h; cases h
    | some t => exact ⟨t, rfl⟩

/-- A block can be taken out of the scope that it was written in. -/
theorem discard_ok {a : Arena} {k parent : ScopeId} {s t : Scope} (hs : a.get? k = some s)
    (hp : s.parent = some parent) (ht : a.get? parent = some t) : ∃ r, a.discard k = .ok r := by
  rw [discard, get_eq_ok.mpr hs]
  simp only [hp, bind, Except.bind, get_eq_ok.mpr ht]
  exact ⟨_, rfl⟩

/-- Where nothing below a scope has a pool, no pools go with it. -/
theorem Forest.discard_pools {a b : Arena} (hF : a.Forest) {top : ScopeId} {pools : List PoolId}
    (h : a.discard top = .ok (pools, b))
    (hnone : ∀ k s, a.get? k = some s → top ∈ a.chain k → s.pool = none) : pools = [] := by
  obtain ⟨s, hs, hlive⟩ := get?_of_discard h
  obtain ⟨b', hd, -⟩ := hF.branching.discard_reclaimed hs hlive
  cases h.symm.trans hd
  refine List.filterMap_eq_nil_iff.mpr fun k hk => ?_
  have hchain : top ∈ a.chain k := hF.branching.mem_subtree_iff.mp (Std.TreeSet.mem_toList.mp hk)
  cases ht : a.get? k with
  | none => rfl
  | some t => exact hnone k t ht hchain

/-- **Taking a scope out takes out what is below it and nothing else.** -/
theorem discard_pruned {a b : Arena} (hF : a.Forest) {top : ScopeId} {pools : List PoolId}
    (h : a.discard top = .ok (pools, b)) : a.Pruned top b := by
  obtain ⟨s, hs, hlive⟩ := get?_of_discard h
  obtain ⟨c, hc, hR⟩ := hF.branching.discard_reclaimed hs hlive
  cases hc.symm.trans h
  exact hR.pruned

section Pruned

variable {a b : Arena} {top : ScopeId} (hP : a.Pruned top b)
include hP

theorem Pruned.stackCells (σ : StackId) : b.stackCells σ = a.stackCells σ := by
  rw [Arena.stackCells, Arena.stackCells, stack, stack, hP.stackHeap]

/-- Whatever is there afterwards was there before, and stays. -/
theorem Pruned.of_get? {k : ScopeId} {t : Scope} (ht : b.get? k = some t) :
    top ∉ a.chain k ∧ ∃ s, a.get? k = some s ∧ t = { s with children := t.children } ∧
      ∀ j, j ∈ t.children ↔ j ∈ s.children ∧ j ≠ top := by
  have hk : top ∉ a.chain k := fun hc => by
    rw [hP.gone hc] at ht
    cases ht
  refine ⟨hk, ?_⟩
  cases hs : a.get? k with
  | none =>
    rw [hP.absent hs] at ht
    cases ht
  | some s =>
    obtain ⟨cs, hcs, hmem⟩ := hP.kept hs hk
    rw [hcs] at ht
    cases ht
    exact ⟨s, rfl, rfl, hmem⟩

/-- What is held afterwards was held before. -/
theorem Pruned.holds {k : ScopeId} {cell : Cell} (h : b.Holds k cell) :
    top ∉ a.chain k ∧ a.Holds k cell := by
  obtain ⟨t, ht, hcell⟩ := h
  obtain ⟨hk, s, hs, hts, -⟩ := hP.of_get? ht
  refine ⟨hk, s, hs, ?_⟩
  rw [hts] at hcell
  simp only [hP.stackCells] at hcell
  exact hcell

/-- A link that stays was there before. -/
theorem Pruned.inside {k p : ScopeId} (h : b.Inside k p) : a.Inside k p := by
  obtain ⟨t, ht, hp⟩ := h
  obtain ⟨-, s, hs, hts, -⟩ := hP.of_get? ht
  rw [hts] at hp
  exact ⟨s, hs, hp⟩

/-- With a child goes no scope that stays: the links that stay agree. -/
theorem Pruned.branching (hB : a.Branching) : b.Branching where
  acyclic := hB.acyclic.mono hP.inside
  of_child {p k t} ht hk := by
    obtain ⟨hp, s, hs, -, hmem⟩ := hP.of_get? ht
    obtain ⟨hks, hne⟩ := (hmem k).mp hk
    obtain ⟨u, hu, hpu⟩ := hB.of_child hs hks
    have hk' : top ∉ a.chain k := fun hc => by
      rw [hB.acyclic.chain_of_parent hu hpu] at hc
      rcases List.mem_cons.mp hc with he | hc
      · exact hne he.symm
      · exact hp hc
    obtain ⟨cs, hcs, -⟩ := hP.kept hu hk'
    exact ⟨_, hcs, hpu⟩
  to_child {p k t u} hu hpu ht := by
    obtain ⟨hk, v, hv, huv, -⟩ := hP.of_get? hu
    obtain ⟨hp, s, hs, -, hmem⟩ := hP.of_get? ht
    rw [huv] at hpu
    refine (hmem k).mpr ⟨hB.to_child hv hpu hs, fun he => hk ?_⟩
    rw [he] at hv ⊢
    exact hB.acyclic.mem_chain_self hv

/-- The scopes that stay have the chains they had. -/
theorem Pruned.chain_kept (hB : a.Branching) {k : ScopeId} (hk : top ∉ a.chain k) :
    b.chain k = a.chain k := by
  refine hB.acyclic.chain_congr (hP.branching hB).acyclic (P := (top ∉ a.chain ·))
    (fun j hj => ?_)
    (fun j p hj ⟨s, hs, hp⟩ hc => hj (hB.acyclic.mem_chain_of_parent hs hp hc)) hk
  cases hs : a.get? j with
  | none => rw [hP.absent hs]
  | some s =>
    obtain ⟨cs, hcs, -⟩ := hP.kept hs hj
    rw [hcs, Option.map_some, Option.map_some]

variable (hF : a.Forest)
include hF

theorem Pruned.forest : b.Forest where
  le_last {k t} ht := by
    obtain ⟨-, s, hs, -, -⟩ := hP.of_get? ht
    rw [hP.lastScope]
    exact hF.le_last hs
  parent_lt {k p t} ht hp := by
    obtain ⟨s, hs, hps⟩ := hP.inside ⟨t, ht, hp⟩
    exact hF.parent_lt hs hps
  of_child := (hP.branching hF.branching).of_child
  to_child := (hP.branching hF.branching).to_child

theorem Pruned.chain_eq {k : ScopeId} (hk : top ∉ a.chain k) : b.chain k = a.chain k :=
  hP.chain_kept hF.branching hk

end Pruned

end ScopeStack.Arena
