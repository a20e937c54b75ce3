import ScopeStack.ProcessTable

/-!
# Process ids

Ids are handed out round and round. As long as one of them is not in use, the one that is handed out
is not in use, because among one more ids than the table has entries there is a free one, or else all
ids have been looked at.

* `nthPid`: the ids that are looked at, in turn.
* `ProcessTable.HasRoom`: some id is not in use.
* `ProcessTable.allocate_free`: **the id that is handed out is free and not that of process 0.**
-/

namespace ScopeStack

/-- The `i`-th id that comes up after another. -/
def nthPid (pid : Int) (i : Nat) : Int := (pid + i) % 0x7fffffffffffffff + 1

/-- An id, or what comes before the first one. -/
def PidInRange (pid : Int) : Prop := 0 ≤ pid ∧ pid ≤ 0x7fffffffffffffff

theorem nextPid_eq {pid : Int} (h : PidInRange pid) : nextPid pid = nthPid pid 0 := by
  obtain ⟨h₀, h₁⟩ := h
  unfold nextPid nthPid
  by_cases hm : pid = maxPid
  · rw [if_pos hm, hm]
    rfl
  · have hm' : ¬ pid = 0x7fffffffffffffff := hm
    rw [if_neg hm]
    show pid + 1 = _
    omega

theorem nthPid_range (pid : Int) (i : Nat) : 1 ≤ nthPid pid i ∧ PidInRange (nthPid pid i) := by
  unfold nthPid PidInRange
  omega

theorem nthPid_nthPid (pid : Int) (i : Nat) : nthPid (nthPid pid 0) i = nthPid pid (i + 1) := by
  unfold nthPid
  omega

/-- Every id comes up. -/
theorem exists_nthPid (pid : Int) {p : Int} (hp : 1 ≤ p ∧ PidInRange p) :
    ∃ i : Nat, i < 0x7fffffffffffffff ∧ nthPid pid i = p := by
  refine ⟨((p - 1 - pid) % 0x7fffffffffffffff).toNat, ?_⟩
  unfold nthPid
  obtain ⟨h₁, h₀, hm⟩ := hp
  omega

/-- No id comes up again before all have come up. -/
theorem nthPid_injective (pid : Int) {i j : Nat} (hi : i < 0x7fffffffffffffff)
    (hj : j < 0x7fffffffffffffff) (h : nthPid pid i = nthPid pid j) : i = j := by
  unfold nthPid at h
  omega

namespace ProcessTable

variable {t : ProcessTable}

theorem contains_eq (t : ProcessTable) (pid : Pid) : t.contains pid = (t.get? pid).isSome := by
  simp only [contains, get?, Std.TreeMap.contains_eq_isSome_getElem?]

theorem get?_insert (t : ProcessTable) (pid p : Pid) (scope : Nat) :
    (t.insert pid scope).get? p = if p = pid then some scope else t.get? p := by
  simp only [insert, get?, Std.TreeMap.getElem?_insert, Std.LawfulEqCmp.compare_eq_iff_eq]
  by_cases h : p = pid
  · simp [h]
  · simp [h, Ne.symm h]

theorem get?_erase (t : ProcessTable) (pid p : Pid) :
    (t.erase pid).get? p = if p = pid then none else t.get? p := by
  simp only [erase, get?, Std.TreeMap.getElem?_erase, Std.LawfulEqCmp.compare_eq_iff_eq]
  by_cases h : p = pid
  · simp [h]
  · simp [h, Ne.symm h]

/-- Some id is not in use. -/
def HasRoom (t : ProcessTable) : Prop :=
  ∃ pid : Int, (1 ≤ pid ∧ PidInRange pid) ∧ t.contains pid = false

theorem freeAfter_range (n : Nat) {pid : Int} (h : PidInRange pid) :
    1 ≤ t.freeAfter n pid ∧ PidInRange (t.freeAfter n pid) := by
  induction n generalizing pid with
  | zero =>
    rw [freeAfter, nextPid_eq h]
    exact nthPid_range pid 0
  | succ n ih =>
    rw [freeAfter, nextPid_eq h]
    split
    · exact ih (nthPid_range pid 0).2
    · exact nthPid_range pid 0

/-- If the id that is found is in use, so are all that have been looked at. -/
theorem contains_nthPid {n : Nat} {pid : Int} (h : PidInRange pid)
    (hused : t.contains (t.freeAfter n pid) = true) {i : Nat} (hi : i ≤ n) :
    t.contains (nthPid pid i) = true := by
  induction n generalizing pid i with
  | zero =>
    rw [Nat.le_zero.mp hi, ← nextPid_eq h]
    exact hused
  | succ n ih =>
    rw [freeAfter, nextPid_eq h] at hused
    split at hused
    · rename_i hfirst
      cases i with
      | zero => exact hfirst
      | succ i =>
        rw [← nthPid_nthPid]
        exact ih (nthPid_range pid 0).2 hused (Nat.le_of_succ_le_succ hi)
    · rename_i hfirst
      exact absurd hused hfirst

/-- **The id that is handed out is free, and not that of process 0.** -/
theorem allocate_free (hlast : PidInRange t.last) (hroom : t.HasRoom) :
    t.contains t.allocate.1 = false ∧ 1 ≤ t.allocate.1 ∧ PidInRange t.allocate.1 := by
  refine ⟨?_, freeAfter_range _ hlast⟩
  rw [← Bool.not_eq_true]
  intro hused
  have hall {i : Nat} (hi : i ≤ t.entries.size) : t.contains (nthPid t.last i) = true :=
    contains_nthPid hlast hused hi
  by_cases hsize : t.entries.size + 1 < 0x7fffffffffffffff
  · -- the ids that were looked at are different keys, and more than there are
    have hnodup : ((List.range (t.entries.size + 1)).map (nthPid t.last)).Nodup := by
      refine List.pairwise_map.mpr (List.nodup_range.imp_of_mem fun hi hj hne he => hne ?_)
      have hi := List.mem_range.mp hi
      have hj := List.mem_range.mp hj
      exact nthPid_injective t.last (by omega) (by omega) he
    have hsub : (List.range (t.entries.size + 1)).map (nthPid t.last) ⊆ t.entries.keys := by
      intro pid hm
      obtain ⟨i, hi, rfl⟩ := List.mem_map.mp hm
      exact Std.TreeMap.mem_keys.mpr (hall (Nat.le_of_lt_succ (List.mem_range.mp hi)))
    have hle := hnodup.length_le_of_subset hsub
    rw [List.length_map, List.length_range, Std.TreeMap.length_keys] at hle
    omega
  · obtain ⟨p, hp, hfree⟩ := hroom
    obtain ⟨i, hi, rfl⟩ := exists_nthPid t.last hp
    rw [hall (by omega)] at hfree
    cases hfree

end ProcessTable

end ScopeStack
