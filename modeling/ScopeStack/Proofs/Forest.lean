import ScopeStack.Proofs.Chains

/-!
# The scopes of an arena form a forest

A scope has a smaller id than the scopes inside it, and the links up and down agree. So a walk
outwards ends, a walk inwards finds every descendant, and the bounds in the definitions of
`Arena.chain` and `Arena.subtree` are never felt.

* `Arena.Forest`: the links between the scopes that are there. The parent of a scope need not be
  there itself: a block that is opened inside a scope that is gone has no way out.
* `Forest.acyclic`: the ids fall outwards, so chains lead nowhere round.
* `Arena.Branching`, `Branching.mem_subtree_iff`: **a scope is found below another exactly if the
  other is on its chain**, in whatever order the ids are.
-/

namespace ScopeStack.Arena

/-! ## 1. Links -/

/-- The links between scopes go both ways, from larger ids to smaller ones. -/
structure Forest (a : Arena) : Prop where
  le_last {id : ScopeId} {s : Scope} : a.get? id = some s → id ≤ a.lastScope
  parent_lt {id p : ScopeId} {s : Scope} : a.get? id = some s → s.parent = some p → p < id
  of_child {p k : ScopeId} {s : Scope} : a.get? p = some s → k ∈ s.children →
    ∃ t, a.get? k = some t ∧ t.parent = some p
  to_child {p k : ScopeId} {s t : Scope} : a.get? k = some t → t.parent = some p →
    a.get? p = some s → k ∈ s.children

/-- Ids that have not been given yet are nobody's. -/
theorem Forest.get?_of_last_lt {a : Arena} (hF : a.Forest) {id : ScopeId} (h : a.lastScope < id) :
    a.get? id = none := by
  cases hs : a.get? id with
  | none => rfl
  | some s => exact absurd (hF.le_last hs) (Nat.not_le_of_lt h)

theorem mem_toList_of_get? {a : Arena} {id : ScopeId} {s : Scope} (h : a.get? id = some s) :
    (id, s) ∈ a.toList := Std.TreeMap.mem_toList_iff_getElem?_eq_some.mpr h

theorem get?_of_mem_toList {a : Arena} {id : ScopeId} {s : Scope} (h : (id, s) ∈ a.toList) :
    a.get? id = some s := Std.TreeMap.mem_toList_iff_getElem?_eq_some.mp h

/-- A scope of some kind is found exactly if there is one. -/
theorem any_eq_true {a : Arena} {p : ScopeId → Scope → Bool} :
    a.any p = true ↔ ∃ id s, a.get? id = some s ∧ p id s = true := by
  rw [any_eq, List.any_eq_true]
  constructor
  · rintro ⟨⟨id, s⟩, hm, hp⟩
    exact ⟨id, s, get?_of_mem_toList hm, hp⟩
  · rintro ⟨id, s, hs, hp⟩
    exact ⟨(id, s), mem_toList_of_get? hs, hp⟩

/-! ## 2. Chains -/

section Walk

variable {a : Arena} (hF : a.Forest)
include hF

/-- Outwards lead smaller and smaller ids. -/
theorem Forest.acyclic : a.Acyclic := by
  have hlt {x y : ScopeId} (h : Relation.TransGen a.Inside x y) : y < x := by
    induction h with
    | single hin =>
      obtain ⟨s, hs, hp⟩ := hin
      exact hF.parent_lt hs hp
    | tail _ hin ih =>
      obtain ⟨s, hs, hp⟩ := hin
      exact Nat.lt_trans (hF.parent_lt hs hp) ih
  exact fun k h => Nat.lt_irrefl k (hlt h)

theorem chain_eq (id : ScopeId) :
    a.chain id =
      match a.get? id with
      | none => []
      | some s =>
        match s.parent with
        | none => [id]
        | some p => id :: a.chain p := hF.acyclic.chain_eq id

theorem chain_of_none {id : ScopeId} (h : a.get? id = none) : a.chain id = [] :=
  hF.acyclic.chain_of_none h

theorem chain_of_parent {id p : ScopeId} {s : Scope} (hs : a.get? id = some s)
    (hp : s.parent = some p) : a.chain id = id :: a.chain p := hF.acyclic.chain_of_parent hs hp

theorem chain_of_noParent {id : ScopeId} {s : Scope} (hs : a.get? id = some s)
    (hp : s.parent = none) : a.chain id = [id] := hF.acyclic.chain_of_noParent hs hp

theorem chain_cons {id : ScopeId} {s : Scope} (hs : a.get? id = some s) :
    ∃ rest, a.chain id = id :: rest := hF.acyclic.chain_cons hs

theorem mem_chain_self {id : ScopeId} {s : Scope} (hs : a.get? id = some s) :
    id ∈ a.chain id := hF.acyclic.mem_chain_self hs

theorem mem_chain_of_parent {x id p : ScopeId} {s : Scope} (hs : a.get? id = some s)
    (hp : s.parent = some p) (hx : x ∈ a.chain p) : x ∈ a.chain id :=
  hF.acyclic.mem_chain_of_parent hs hp hx

theorem mem_chain_cases {x id : ScopeId} (hx : x ∈ a.chain id) :
    ∃ s, a.get? id = some s ∧ (x = id ∨ ∃ p, s.parent = some p ∧ x ∈ a.chain p) :=
  hF.acyclic.mem_chain_cases hx

theorem le_of_mem_chain {x id : ScopeId} (hx : x ∈ a.chain id) : x ≤ id := by
  induction id using Nat.strongRecOn with
  | ind id ih =>
    obtain ⟨s, hs, rfl | ⟨p, hp, hxp⟩⟩ := mem_chain_cases hF hx
    · exact Nat.le_refl _
    · have hlt := hF.parent_lt hs hp
      exact Nat.le_of_lt (Nat.lt_of_le_of_lt (ih p hlt hxp) hlt)

theorem mem_chain_trans {x y z : ScopeId} (hxy : x ∈ a.chain y) (hyz : y ∈ a.chain z) :
    x ∈ a.chain z := hF.acyclic.mem_chain_trans hxy hyz

end Walk

/-! ## 3. Descendants -/

/-- Links up and down agree, and lead nowhere round. Nothing is said of the order of the ids. -/
structure Branching (a : Arena) : Prop where
  acyclic : a.Acyclic
  of_child {p k : ScopeId} {s : Scope} : a.get? p = some s → k ∈ s.children →
    ∃ t, a.get? k = some t ∧ t.parent = some p
  to_child {p k : ScopeId} {s t : Scope} : a.get? k = some t → t.parent = some p →
    a.get? p = some s → k ∈ s.children

theorem Forest.branching {a : Arena} (hF : a.Forest) : a.Branching :=
  ⟨hF.acyclic, hF.of_child, hF.to_child⟩

/-- How many children the scopes have that have not been found yet. -/
def unfound : List (ScopeId × Scope) → ScopeSet → Nat
  | [], _ => 0
  | (id, s) :: l, found => (if id ∈ found then 0 else s.children.size) + unfound l found

theorem unfound_insert_le (l : List (ScopeId × Scope)) (found : ScopeSet) (id : ScopeId) :
    unfound l (found.insert id) ≤ unfound l found := by
  induction l with
  | nil => exact Nat.le_refl _
  | cons e l ih =>
    simp only [unfound] at ih ⊢
    by_cases he : e.1 ∈ found
    · rw [if_pos he, if_pos (Std.TreeSet.mem_insert.mpr (Or.inr he))]
      omega
    · rw [if_neg he]
      split <;> omega

theorem unfound_insert {l : List (ScopeId × Scope)} {found : ScopeSet} {id : ScopeId} {s : Scope}
    (hm : (id, s) ∈ l) (hf : id ∉ found) :
    unfound l (found.insert id) + s.children.size ≤ unfound l found := by
  induction l with
  | nil => cases hm
  | cons e l ih =>
    rcases List.mem_cons.mp hm with rfl | hm
    · have hle := unfound_insert_le l found id
      simp only [unfound] at hle ⊢
      rw [if_pos Std.TreeSet.mem_insert_self, if_neg hf]
      omega
    · have h := ih hm
      simp only [unfound] at h ⊢
      by_cases he : e.1 ∈ found
      · rw [if_pos he, if_pos (Std.TreeSet.mem_insert.mpr (Or.inr he))]
        omega
      · rw [if_neg he]
        split <;> omega

theorem unfound_empty (a : Arena) : unfound a.toList {} = a.childCount := by
  have h (l : List (ScopeId × Scope)) (n : Nat) :
      l.foldl (fun n e => n + e.2.children.size) n = n + unfound l {} := by
    induction l generalizing n with
    | nil => rfl
    | cons e l ih =>
      rw [List.foldl_cons, ih]
      simp only [unfound]
      rw [if_neg Std.TreeSet.not_mem_emptyc]
      omega
  rw [childCount, Std.TreeMap.foldl_eq_foldl_toList]
  exact ((h a.toList 0).trans (Nat.zero_add _)).symm

section Descendants

variable {a : Arena}

/-- Everything the work list finds is below the scope it started from. -/
theorem subtreeFrom_sound (hB : a.Branching) {top : ScopeId} (n : Nat) (pending : List ScopeId)
    (found : ScopeSet) (hp : ∀ k ∈ pending, ∀ s, a.get? k = some s → top ∈ a.chain k)
    (hf : ∀ k ∈ found, top ∈ a.chain k) : ∀ k ∈ a.subtreeFrom n pending found, top ∈ a.chain k := by
  fun_induction subtreeFrom a n pending found with
  | case1 => exact hf
  | case2 => exact hf
  | case3 n id pending found hs ih => exact ih (fun k hk => hp k (List.mem_cons_of_mem _ hk)) hf
  | case4 n id pending found s hs hc ih =>
    exact ih (fun k hk => hp k (List.mem_cons_of_mem _ hk)) hf
  | case5 n id pending found s hs hc ih =>
    have hid : top ∈ a.chain id := hp id List.mem_cons_self s hs
    refine ih (fun k hk t ht => ?_) (fun k hk => ?_)
    · rcases List.mem_append.mp hk with hk | hk
      · obtain ⟨t', ht', hpt⟩ := hB.of_child hs (Std.TreeSet.mem_toList.mp hk)
        exact hB.acyclic.mem_chain_of_parent ht' hpt hid
      · exact hp k (List.mem_cons_of_mem _ hk) t ht
    · rcases Std.TreeSet.mem_insert.mp hk with hk | hk
      · rw [← Nat.compare_eq_eq.mp hk]
        exact hid
      · exact hf k hk

/-- The work list is worked through: all that was pending is found, what was found stays, and no
child of what is found is left out. -/
theorem subtreeFrom_complete (n : Nat) (pending : List ScopeId) (found : ScopeSet)
    (hn : pending.length + unfound a.toList found ≤ n)
    (hc : ∀ k ∈ found, ∀ s, a.get? k = some s → ∀ j ∈ s.children, ∀ t, a.get? j = some t →
      j ∈ found ∨ j ∈ pending) :
    (∀ k ∈ found, k ∈ a.subtreeFrom n pending found) ∧
    (∀ k ∈ pending, ∀ s, a.get? k = some s → k ∈ a.subtreeFrom n pending found) ∧
    ∀ k ∈ a.subtreeFrom n pending found, ∀ s, a.get? k = some s → ∀ j ∈ s.children,
      ∀ t, a.get? j = some t → j ∈ a.subtreeFrom n pending found := by
  fun_induction subtreeFrom a n pending found with
  | case1 pending found =>
    have hnil : pending = [] := List.length_eq_zero_iff.mp (by omega)
    subst hnil
    refine ⟨fun _ h => h, fun _ h => (List.not_mem_nil h).elim, fun k hk s hs j hj t ht => ?_⟩
    exact (hc k hk s hs j hj t ht).resolve_right List.not_mem_nil
  | case2 n found =>
    refine ⟨fun _ h => h, fun _ h => (List.not_mem_nil h).elim, fun k hk s hs j hj t ht => ?_⟩
    exact (hc k hk s hs j hj t ht).resolve_right List.not_mem_nil
  | case3 n id pending found hs ih =>
    rw [List.length_cons] at hn
    obtain ⟨hfound, hpending, hchild⟩ := ih (by omega) fun k hk s hk' j hj t ht => by
      refine (hc k hk s hk' j hj t ht).imp_right fun hm => ?_
      refine (List.mem_cons.mp hm).resolve_left fun he => ?_
      rw [he, hs] at ht
      cases ht
    refine ⟨hfound, fun k hk s hk' => ?_, hchild⟩
    refine hpending k ((List.mem_cons.mp hk).resolve_left fun he => ?_) s hk'
    rw [he, hs] at hk'
    cases hk'
  | case4 n id pending found s hs hf ih =>
    have hid : id ∈ found := hf
    rw [List.length_cons] at hn
    obtain ⟨hfound, hpending, hchild⟩ := ih (by omega) fun k hk s hk' j hj t ht => by
      rcases hc k hk s hk' j hj t ht with hm | hm
      · exact Or.inl hm
      · rcases List.mem_cons.mp hm with rfl | hm
        · exact Or.inl hid
        · exact Or.inr hm
    refine ⟨hfound, fun k hk s hk' => ?_, hchild⟩
    rcases List.mem_cons.mp hk with rfl | hk
    · exact hfound _ hid
    · exact hpending k hk s hk'
  | case5 n id pending found s hs hf ih =>
    have hid : id ∉ found := hf
    have hless := unfound_insert (mem_toList_of_get? hs) hid
    rw [List.length_cons] at hn
    obtain ⟨hfound, hpending, hchild⟩ := ih
      (by rw [List.length_append, Std.TreeSet.length_toList]; omega)
      fun k hk s' hk' j hj t ht => by
        rcases Std.TreeSet.mem_insert.mp hk with hk | hk
        · rw [← Nat.compare_eq_eq.mp hk, hs] at hk'
          cases hk'
          exact Or.inr (List.mem_append_left _ (Std.TreeSet.mem_toList.mpr hj))
        · rcases hc k hk s' hk' j hj t ht with hm | hm
          · exact Or.inl (Std.TreeSet.mem_insert.mpr (Or.inr hm))
          · rcases List.mem_cons.mp hm with rfl | hm
            · exact Or.inl Std.TreeSet.mem_insert_self
            · exact Or.inr (List.mem_append_right _ hm)
    refine ⟨fun k hk => hfound k (Std.TreeSet.mem_insert.mpr (Or.inr hk)), fun k hk t ht => ?_,
      hchild⟩
    rcases List.mem_cons.mp hk with rfl | hk
    · exact hfound _ Std.TreeSet.mem_insert_self
    · exact hpending k (List.mem_append_right _ hk) t ht

/-- **What is found below a scope are the scopes that have it on their chains.** -/
theorem Branching.mem_subtree_iff (hB : a.Branching) {top k : ScopeId} :
    k ∈ a.subtree top ↔ top ∈ a.chain k := by
  have hA := hB.acyclic
  constructor
  · refine subtreeFrom_sound hB _ _ _ (fun j hj s hs => ?_) (fun j hj => ?_) k
    · rw [List.mem_singleton.mp hj] at hs ⊢
      exact hA.mem_chain_self hs
    · exact absurd hj Std.TreeSet.not_mem_emptyc
  · intro hk
    obtain ⟨-, hpending, hchild⟩ := subtreeFrom_complete (a := a) (a.childCount + 2) [top] {}
      (by rw [unfound_empty, List.length_singleton]; omega)
      fun j hj => absurd hj Std.TreeSet.not_mem_emptyc
    -- by induction along the chain: the parent is found, so the scope is
    induction k using hA.induction with
    | step k ih =>
      obtain ⟨s, hs, rfl | ⟨p, hp, hmem⟩⟩ := hA.mem_chain_cases hk
      · exact hpending _ (List.mem_singleton_self _) s hs
      · obtain ⟨t, ht, -⟩ := hA.mem_chain_cases hmem
        exact hchild p (ih s p hs hp hmem) t ht k (hB.to_child hs hp ht) s hs

theorem mem_subtree_iff (hF : a.Forest) {top k : ScopeId} :
    k ∈ a.subtree top ↔ top ∈ a.chain k := hF.branching.mem_subtree_iff

end Descendants

end ScopeStack.Arena
