import Mathlib.Logic.Relation
import ScopeStack.Arena

/-!
# Chains that lead outwards for good

A scope is inside its parent, and that inside its own. Where nobody gets back to a scope like that,
the walk outwards passes no scope twice. So it ends after no more steps than there are scopes, and
the bound in the definition of `Arena.chain` is never felt, whatever the ids are.

* `Arena.Inside`, `Arena.Acyclic`: the step outwards, and that it leads nowhere round.
* `Acyclic.chain_eq`: **the chain of a scope by recursion on its parent, without a bound.**
* `Acyclic.induction`: induction from the parent to the scope.
* `Acyclic.mem_chain_iff`: on the chain of a scope are the scopes that are there and around it.
-/

namespace ScopeStack.Arena

/-! ## 1. Scopes that are there -/

theorem contains_eq (a : Arena) (id : ScopeId) : a.contains id = (a.get? id).isSome := by
  simp only [contains, get?, Std.TreeMap.contains_eq_isSome_getElem?]

theorem contains_iff {a : Arena} {id : ScopeId} :
    a.contains id = true ↔ ∃ s, a.get? id = some s := by
  rw [contains_eq, Option.isSome_iff_exists]

theorem get?_of_contains_false {a : Arena} {id : ScopeId} (h : a.contains id = false) :
    a.get? id = none := by
  rwa [contains_eq, Option.isSome_eq_false_iff, Option.isNone_iff_eq_none] at h

theorem get_eq_ok {a : Arena} {id : ScopeId} {s : Scope} :
    a.get id = .ok s ↔ a.get? id = some s := by
  unfold get
  cases h : a.get? id <;> simp

theorem get_eq_error {a : Arena} {id : ScopeId} {f : Fault} :
    a.get id = .error f ↔ a.get? id = none ∧ f = .scopeGone id := by
  unfold get
  cases h : a.get? id <;> simp [eq_comm]

theorem mem_keys_of_get? {a : Arena} {id : ScopeId} {s : Scope} (h : a.get? id = some s) :
    id ∈ a.scopes.keys := by
  rw [Std.TreeMap.mem_keys, Std.TreeMap.mem_iff_isSome_getElem?]
  show (a.get? id).isSome = true
  rw [h]
  rfl

/-! ## 2. The walk outwards -/

/-- The first scope is directly inside the second, which need not be there itself. -/
def Inside (a : Arena) (k p : ScopeId) : Prop := ∃ s, a.get? k = some s ∧ s.parent = some p

/-- Nobody comes back to a scope by going outwards from it. -/
def Acyclic (a : Arena) : Prop := ∀ k, ¬ Relation.TransGen a.Inside k k

/-- Where there are fewer links there is no new way round. -/
theorem Acyclic.mono {a b : Arena} (hA : a.Acyclic)
    (hle : ∀ {k p}, b.Inside k p → a.Inside k p) : b.Acyclic :=
  fun k h => hA k (Relation.TransGen.mono (fun _ _ => hle) k k h)

section Bound

variable {a : Arena} {n : Nat} {x id : ScopeId}

/-- What a walk passes is there and is reached. -/
theorem of_mem_chainUpTo (hx : x ∈ a.chainUpTo n id) :
    (∃ s, a.get? x = some s) ∧ Relation.ReflTransGen a.Inside id x := by
  induction n generalizing id with
  | zero => cases hx
  | succ n ih =>
    rw [chainUpTo] at hx
    cases hs : a.get? id with
    | none => simp [hs] at hx
    | some s =>
      cases hp : s.parent with
      | none =>
        simp only [hs, hp, List.mem_singleton] at hx
        subst hx
        exact ⟨⟨s, hs⟩, .refl⟩
      | some p =>
        simp only [hs, hp, List.mem_cons] at hx
        rcases hx with rfl | hx
        · exact ⟨⟨s, hs⟩, .refl⟩
        · exact ⟨(ih hx).1, .head ⟨s, hs, hp⟩ (ih hx).2⟩

/-- A walk leads from each scope it passes to all that it passes later. -/
theorem chainUpTo_pairwise (a : Arena) (n : Nat) (id : ScopeId) :
    (a.chainUpTo n id).Pairwise (Relation.TransGen a.Inside) := by
  induction n generalizing id with
  | zero => exact .nil
  | succ n ih =>
    rw [chainUpTo]
    cases hs : a.get? id with
    | none => exact .nil
    | some s =>
      cases hp : s.parent with
      | none => simp [hp]
      | some p =>
        simp only [hp]
        exact .cons (fun x hx => .head' ⟨s, hs, hp⟩ (of_mem_chainUpTo hx).2) (ih p)

/-- A walk that has not used up its steps does not go on with more of them. -/
theorem chainUpTo_succ_of_length_le (hn : (a.chainUpTo (n + 1) id).length ≤ n) :
    a.chainUpTo (n + 1) id = a.chainUpTo n id := by
  induction n generalizing id with
  | zero => exact List.length_eq_zero_iff.mp (Nat.le_zero.mp hn)
  | succ n ih =>
    rw [chainUpTo] at hn ⊢
    rw [chainUpTo]
    cases hs : a.get? id with
    | none => rfl
    | some s =>
      cases hp : s.parent with
      | none => simp only [hp]
      | some p =>
        simp only [hs, hp, List.length_cons] at hn ⊢
        rw [ih (Nat.le_of_succ_le_succ hn)]

/-- A walk passes no scope twice. -/
theorem Acyclic.chainUpTo_nodup (hA : a.Acyclic) (n : Nat) (id : ScopeId) :
    (a.chainUpTo n id).Nodup :=
  (a.chainUpTo_pairwise n id).imp fun {x y} (h : Relation.TransGen a.Inside x y) (he : x = y) =>
    hA y (he ▸ h)

/-- So it is no longer than the arena is large. -/
theorem Acyclic.length_chainUpTo_le (hA : a.Acyclic) (n : Nat) (id : ScopeId) :
    (a.chainUpTo n id).length ≤ a.size := by
  have hsub : a.chainUpTo n id ⊆ a.scopes.keys := fun x hx =>
    let ⟨_, hs⟩ := (of_mem_chainUpTo hx).1
    mem_keys_of_get? hs
  have hlen := (hA.chainUpTo_nodup n id).length_le_of_subset hsub
  rwa [Std.TreeMap.length_keys] at hlen

/-- What is on a chain is there. -/
theorem get?_of_mem_chain (hx : x ∈ a.chain id) : ∃ s, a.get? x = some s :=
  (of_mem_chainUpTo hx).1

end Bound

/-! ## 3. Chains -/

namespace Acyclic

variable {a b : Arena} (hA : a.Acyclic)
include hA

/-- **The chain of a scope, without a bound.** -/
theorem chain_eq (id : ScopeId) :
    a.chain id =
      match a.get? id with
      | none => []
      | some s =>
        match s.parent with
        | none => [id]
        | some p => id :: a.chain p := by
  rw [chain, ← chainUpTo_succ_of_length_le (hA.length_chainUpTo_le _ id), chainUpTo]
  rfl

theorem chain_of_none {id : ScopeId} (h : a.get? id = none) : a.chain id = [] := by
  rw [hA.chain_eq, h]

theorem chain_of_parent {id p : ScopeId} {s : Scope} (hs : a.get? id = some s)
    (hp : s.parent = some p) : a.chain id = id :: a.chain p := by
  rw [hA.chain_eq, hs]
  simp only [hp]

theorem chain_of_noParent {id : ScopeId} {s : Scope} (hs : a.get? id = some s)
    (hp : s.parent = none) : a.chain id = [id] := by
  rw [hA.chain_eq, hs]
  simp only [hp]

/-- A scope that is there comes first on its chain. -/
theorem chain_cons {id : ScopeId} {s : Scope} (hs : a.get? id = some s) :
    ∃ rest, a.chain id = id :: rest := by
  cases hp : s.parent with
  | none => exact ⟨_, hA.chain_of_noParent hs hp⟩
  | some p => exact ⟨_, hA.chain_of_parent hs hp⟩

theorem mem_chain_self {id : ScopeId} {s : Scope} (hs : a.get? id = some s) :
    id ∈ a.chain id := by
  obtain ⟨rest, hrest⟩ := hA.chain_cons hs
  rw [hrest]
  exact List.mem_cons_self

theorem mem_chain_of_parent {x id p : ScopeId} {s : Scope} (hs : a.get? id = some s)
    (hp : s.parent = some p) (hx : x ∈ a.chain p) : x ∈ a.chain id := by
  rw [hA.chain_of_parent hs hp]
  exact List.mem_cons_of_mem _ hx

/-- What is on a chain is the scope itself, or on the chain of its parent. -/
theorem mem_chain_cases {x id : ScopeId} (hx : x ∈ a.chain id) :
    ∃ s, a.get? id = some s ∧ (x = id ∨ ∃ p, s.parent = some p ∧ x ∈ a.chain p) := by
  cases hs : a.get? id with
  | none => rw [hA.chain_of_none hs] at hx; cases hx
  | some s =>
    refine ⟨s, rfl, ?_⟩
    cases hp : s.parent with
    | none =>
      rw [hA.chain_of_noParent hs hp] at hx
      exact Or.inl (List.mem_singleton.mp hx)
    | some p =>
      rw [hA.chain_of_parent hs hp] at hx
      exact (List.mem_cons.mp hx).imp_right fun h => ⟨p, rfl, h⟩

/-- **Induction from the parent to the scope.** What holds of a scope if it holds of its parent
holds of every scope. -/
theorem induction {motive : ScopeId → Prop}
    (step : ∀ k, (∀ s p, a.get? k = some s → s.parent = some p → motive p) → motive k)
    (k : ScopeId) : motive k := by
  induction hn : (a.chain k).length using Nat.strongRecOn generalizing k with
  | ind n ih =>
    refine step k fun s p hs hp => ih (a.chain p).length ?_ p rfl
    rw [← hn, hA.chain_of_parent hs hp, List.length_cons]
    exact Nat.lt_succ_self _

/-- On the chain of a scope are the scopes that are there and are reached from it. -/
theorem mem_chain_iff {x id : ScopeId} :
    x ∈ a.chain id ↔ (∃ s, a.get? x = some s) ∧ Relation.ReflTransGen a.Inside id x := by
  refine ⟨of_mem_chainUpTo, ?_⟩
  rintro ⟨⟨s, hs⟩, hreach⟩
  induction hreach using Relation.ReflTransGen.head_induction_on with
  | refl => exact hA.mem_chain_self hs
  | head hin _ ih =>
    obtain ⟨t, ht, hp⟩ := hin
    exact hA.mem_chain_of_parent ht hp ih

theorem mem_chain_trans {x y z : ScopeId} (hxy : x ∈ a.chain y) (hyz : y ∈ a.chain z) :
    x ∈ a.chain z := by
  rw [hA.mem_chain_iff] at hxy hyz ⊢
  exact ⟨hxy.1, hyz.2.trans hxy.2⟩

/-- A chain is a line: of two scopes on it one is around the other. -/
theorem mem_chain_linear {x y z : ScopeId} (hx : x ∈ a.chain z) (hy : y ∈ a.chain z) :
    x ∈ a.chain y ∨ y ∈ a.chain x := by
  induction z using hA.induction with
  | step z ih =>
    obtain ⟨s, hs, rfl | ⟨p, hp, hxp⟩⟩ := hA.mem_chain_cases hx
    · exact Or.inr hy
    · obtain ⟨t, ht, rfl | ⟨q, hq, hyq⟩⟩ := hA.mem_chain_cases hy
      · exact Or.inl hx
      · cases hs.symm.trans ht
        cases hp.symm.trans hq
        exact ih s p hs hp hxp hyq

/-- A chain depends on the links along it. -/
theorem chain_congr (hA' : b.Acyclic) {P : ScopeId → Prop}
    (hsame : ∀ j, P j → (b.get? j).map (·.parent) = (a.get? j).map (·.parent))
    (hup : ∀ j p, P j → a.Inside j p → P p) {k : ScopeId} (hk : P k) :
    b.chain k = a.chain k := by
  induction k using hA.induction with
  | step k ih =>
    have hlink := hsame k hk
    cases hs : a.get? k with
    | none =>
      rw [hs, Option.map_none, Option.map_eq_none_iff] at hlink
      rw [hA.chain_of_none hs, hA'.chain_of_none hlink]
    | some s =>
      rw [hs, Option.map_some, Option.map_eq_some_iff] at hlink
      obtain ⟨t, ht, hpt⟩ := hlink
      cases hp : s.parent with
      | none => rw [hA.chain_of_noParent hs hp, hA'.chain_of_noParent ht (hpt.trans hp)]
      | some p =>
        rw [hA.chain_of_parent hs hp, hA'.chain_of_parent ht (hpt.trans hp),
          ih s p hs hp (hup k p hk ⟨s, hs, hp⟩)]

end Acyclic

/-- Chains are the business of the scopes alone. -/
theorem chain_of_scopes {a b : Arena} (h : b.scopes = a.scopes) (k : ScopeId) :
    b.chain k = a.chain k := by
  have hget (j : ScopeId) : b.get? j = a.get? j := by rw [get?, get?, h]
  have hup (n : Nat) : b.chainUpTo n k = a.chainUpTo n k := by
    induction n generalizing k with
    | zero => rfl
    | succ n ih => simp only [chainUpTo, hget, ih]
  rw [chain, chain, size, size, h, hup]

end ScopeStack.Arena
