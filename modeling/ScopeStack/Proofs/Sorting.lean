import ScopeStack.Proofs.Integers
import ScopeStack.Proofs.OwnStack
import ScopeStack.Proofs.SortOrder

/-!
# Sorted lists of values

Sorting is by insertion where the list is short, else by merging two sorted halves. On values that
can be sorted together both give the list in order, and both keep values that are equal in their
order: insertion puts a value behind those that equal it, and a merge takes from the front half first.
Searching halves the part in which the key can be.

* `Value.Ordered`, `Value.SortedFrom`: a list in order, and a list sorted stably.
* `sortValues_sortedFrom`: **values that can be sorted are sorted stably.**
* `narrowSearch_splits`: the halving ends at the last position that is not beyond the key.
* `Places`: a number tells where a key is, or where it would go. `binarySearch_places`: **the search
  finds such a number.**
* `Ensemble.Reachable.sort_search`: **sorting and searching a stack of integers or of strings.**
-/

namespace ScopeStack

open ScopeStack.Action

namespace Value

/-! ## 1. Lists in order -/

/-- No value is greater than one behind it. -/
def Ordered (vs : List Value) : Prop := vs.Pairwise fun a b => (sortOrder a b).isLE

/-- Does the value equal this one, as far as sorting goes? -/
def levelWith (v w : Value) : Bool := sortOrder v w == .eq

/-- The second list has the values of the first in order, and those that are equal as they were. -/
structure SortedFrom (vs ws : List Value) : Prop where
  perm : ws.Perm vs
  ordered : Ordered ws
  stable : ∀ v ∈ vs, ws.filter (levelWith v) = vs.filter (levelWith v)

variable {vs us xs ys : List Value} {v w x y z : Value} {p : Value → Bool}

theorem isLE_of_ne_lt (h : sortOrder v w ≠ .lt) : (sortOrder w v).isLE := by
  rw [sortOrder_swap]
  cases ho : sortOrder v w with
  | lt => exact absurd ho h
  | eq | gt => rfl

theorem isLE_of_eq_lt (h : sortOrder v w = .lt) : (sortOrder v w).isLE := by
  rw [h]
  rfl

theorem sortOrder_self (v : Value) : sortOrder v v = .eq := by
  have h := sortOrder_swap v v
  cases ho : sortOrder v v with
  | eq => rfl
  | lt | gt => rw [ho] at h; cases h

namespace Consistent

theorem subset (h : Consistent us) (hsub : vs ⊆ us) : Consistent vs := fun a ha b hb c hc =>
  h a (hsub ha) b (hsub hb) c (hsub hc)

/-- What lies above a greater value is greater. -/
theorem lt_of_lt_of_le (h : Consistent us) (hy : y ∈ us) (hx : x ∈ us) (hz : z ∈ us)
    (hyx : sortOrder y x = .lt) (hxz : (sortOrder x z).isLE) : sortOrder y z = .lt := by
  refine Decidable.byContradiction fun hno => ?_
  have hxy := h x hx z hz y hy hxz (isLE_of_ne_lt hno)
  rw [sortOrder_swap, hyx] at hxy
  cases hxy

/-- Values that equal a third one are equal. -/
theorem eq_of_level (h : Consistent us) (hv : v ∈ us) (hx : x ∈ us) (hy : y ∈ us)
    (hvx : levelWith v x = true) (hvy : levelWith v y = true) : sortOrder x y = .eq := by
  have hvx : sortOrder v x = .eq := eq_of_beq hvx
  have hvy : sortOrder v y = .eq := eq_of_beq hvy
  have hxv := sortOrder_eq_comm.mpr hvx
  have hyv := sortOrder_eq_comm.mpr hvy
  exact sortOrder_antisymm (h x hx v hv y hy (by rw [hxv]; rfl) (by rw [hvy]; rfl))
    (h y hy v hv x hx (by rw [hyv]; rfl) (by rw [hvx]; rfl))

end Consistent

/-- All values that have the property are equal. -/
def Level (us : List Value) (p : Value → Bool) : Prop :=
  ∀ x ∈ us, ∀ y ∈ us, p x = true → p y = true → sortOrder x y = .eq

/-- If one of two values has the property and they are not equal, the other does not have it. -/
theorem Level.not_of_lt (hp : Level us p) (hx : x ∈ us) (hy : y ∈ us) (hpx : p x = true)
    (hlt : sortOrder x y = .lt ∨ sortOrder y x = .lt) : p y = false := by
  refine Bool.eq_false_iff.mpr fun hpy => ?_
  have heq := hp x hx y hy hpx hpy
  rcases hlt with hlt | hlt
  · rw [heq] at hlt
    cases hlt
  · rw [sortOrder_swap, heq] at hlt
    cases hlt

end Value

open Value

variable {vs us xs ys : List Value} {v w : Value} {p : Value → Bool}

/-! ## 2. Insertion -/

theorem insertFalling_perm (v : Value) (vs : List Value) :
    (insertFalling v vs).Perm (v :: vs) := by
  induction vs with
  | nil => exact .refl _
  | cons w rest ih =>
    rw [insertFalling]
    split
    · exact (ih.cons w).trans (.swap v w rest)
    · exact .refl _

/-- A list that falls goes on falling. -/
theorem insertFalling_falls (hC : Consistent us) (hv : v ∈ us) (hsub : vs ⊆ us)
    (h : vs.Pairwise fun a b => (sortOrder b a).isLE) :
    (insertFalling v vs).Pairwise fun a b => (sortOrder b a).isLE := by
  induction vs with
  | nil => exact List.pairwise_singleton _ _
  | cons w rest ih =>
    obtain ⟨hw, hrest⟩ := List.pairwise_cons.mp h
    obtain ⟨hmem, hsub⟩ := List.cons_subset.mp hsub
    rw [insertFalling]
    split
    · rename_i hlt
      refine List.pairwise_cons.mpr ⟨fun x hx => ?_, ih hsub hrest⟩
      rcases List.mem_cons.mp ((insertFalling_perm v rest).mem_iff.mp hx) with rfl | hx
      · exact isLE_of_eq_lt (eq_of_beq hlt)
      · exact hw x hx
    · rename_i hno
      have hwv : (sortOrder w v).isLE := isLE_of_ne_lt fun hlt => hno (beq_iff_eq.mpr hlt)
      refine List.pairwise_cons.mpr ⟨fun x hx => ?_, h⟩
      rcases List.mem_cons.mp hx with rfl | hx
      · exact hwv
      · exact hC x (hsub hx) w hmem v hv (hw x hx) hwv

/-- The value comes in front of those that equal it. -/
theorem filter_insertFalling (hp : Level us p) (hv : v ∈ us) (hsub : vs ⊆ us) :
    (insertFalling v vs).filter p = (v :: vs).filter p := by
  induction vs with
  | nil => rfl
  | cons w rest ih =>
    obtain ⟨hmem, hsub⟩ := List.cons_subset.mp hsub
    rw [insertFalling]
    split
    · rename_i hlt
      rw [List.filter_cons, ih hsub]
      cases hpv : p v with
      | false => simp [List.filter_cons, hpv]
      | true =>
        have hpw := hp.not_of_lt hv hmem hpv (Or.inl (eq_of_beq hlt))
        simp [hpv, hpw]
    · rfl

/-- What insertion makes of some values, put into a list that falls. -/
theorem foldl_insertFalling (hC : Consistent us) (hvs : vs ⊆ us) (hxs : xs ⊆ us)
    (h : xs.Pairwise fun a b => (sortOrder b a).isLE) :
    (vs.foldl (fun sorted v => insertFalling v sorted) xs).Perm (vs.reverse ++ xs) ∧
    (vs.foldl (fun sorted v => insertFalling v sorted) xs).Pairwise
      (fun a b => (sortOrder b a).isLE) ∧
    ∀ p, Level us p → (vs.foldl (fun sorted v => insertFalling v sorted) xs).filter p =
      (vs.reverse ++ xs).filter p := by
  induction vs generalizing xs with
  | nil => exact ⟨.refl _, h, fun _ _ => rfl⟩
  | cons v rest ih =>
    obtain ⟨hv, hrest⟩ := List.cons_subset.mp hvs
    have hperm := insertFalling_perm v xs
    have hsub : insertFalling v xs ⊆ us := fun x hx =>
      List.cons_subset.mpr ⟨hv, hxs⟩ (hperm.mem_iff.mp hx)
    obtain ⟨hfold, hfalls, hstable⟩ := ih hrest hsub (insertFalling_falls hC hv hxs h)
    refine ⟨?_, hfalls, fun p hp => ?_⟩
    · rw [List.foldl_cons, List.reverse_cons, List.append_assoc]
      exact hfold.trans (hperm.append_left _)
    · rw [List.foldl_cons, hstable p hp, List.reverse_cons, List.append_assoc, List.filter_append,
        filter_insertFalling hp hv hxs, ← List.filter_append]
      rfl

theorem insertValues_sorts (hC : Consistent vs) :
    (insertValues vs).Perm vs ∧ Ordered (insertValues vs) ∧
      ∀ p, Level vs p → (insertValues vs).filter p = vs.filter p := by
  obtain ⟨hperm, hfalls, hstable⟩ :=
    foldl_insertFalling hC (List.Subset.refl vs) (List.nil_subset vs) .nil
  rw [List.append_nil] at hperm hstable
  refine ⟨?_, List.pairwise_reverse.mpr hfalls, fun p hp => ?_⟩
  · exact (List.reverse_perm _).trans (hperm.trans (List.reverse_perm _))
  · rw [insertValues, List.filter_reverse, hstable p hp, ← List.filter_reverse, List.reverse_reverse]

/-! ## 3. Merging -/

/-- Which of two values a merge takes first: that of the front half, unless the other is less. -/
def takesFirst (v w : Value) : Bool := sortOrder w v != .lt

theorem takesFirst_eq_true : takesFirst v w = true ↔ sortOrder w v ≠ .lt := bne_iff_ne

theorem takesFirst_eq_false : takesFirst v w = false ↔ sortOrder w v = .lt := by
  rw [takesFirst, bne_eq_false_iff_eq]

/-- What comes before the first of a list in order comes before all of it. -/
theorem Value.Ordered.above (hC : Consistent us) (hv : v ∈ us) (hxs : w :: xs ⊆ us)
    (h : Ordered (w :: xs)) (hvw : (sortOrder v w).isLE) : ∀ z ∈ w :: xs, (sortOrder v z).isLE := by
  intro z hz
  rcases List.mem_cons.mp hz with rfl | hmem
  · exact hvw
  · exact hC v hv w (hxs List.mem_cons_self) z (hxs hz) hvw ((List.pairwise_cons.mp h).1 z hmem)

/-- A merge of lists in order is in order. -/
theorem merge_ordered (hC : Consistent us) (hxs : xs ⊆ us) (hys : ys ⊆ us) (hx : Ordered xs)
    (hy : Ordered ys) : Ordered (xs.merge ys takesFirst) := by
  fun_induction List.merge xs ys takesFirst with
  | case1 ys => exact hy
  | case2 xs => exact hx
  | case3 x xs y ys hfirst ih =>
    obtain ⟨hxmem, hxsub⟩ := List.cons_subset.mp hxs
    have hxy : (sortOrder x y).isLE := isLE_of_ne_lt (takesFirst_eq_true.mp hfirst)
    refine List.pairwise_cons.mpr ⟨fun z hz => ?_, ih hxsub hys hx.of_cons hy⟩
    rcases List.mem_merge.mp hz with hz | hz
    · exact (List.pairwise_cons.mp hx).1 z hz
    · exact hy.above hC hxmem hys hxy z hz
  | case4 x xs y ys hsecond ih =>
    obtain ⟨hymem, hysub⟩ := List.cons_subset.mp hys
    have hyx : (sortOrder y x).isLE :=
      isLE_of_eq_lt (takesFirst_eq_false.mp (Bool.not_eq_true _ ▸ hsecond))
    refine List.pairwise_cons.mpr ⟨fun z hz => ?_, ih hxs hysub hx hy.of_cons⟩
    rcases List.mem_merge.mp hz with hz | hz
    · exact hx.above hC hymem hxs hyx z hz
    · exact (List.pairwise_cons.mp hy).1 z hz

/-- Of equal values those of the front list come first. -/
theorem filter_merge (hC : Consistent us) (hp : Level us p) (hxs : xs ⊆ us) (hys : ys ⊆ us)
    (hx : Ordered xs) : (xs.merge ys takesFirst).filter p = xs.filter p ++ ys.filter p := by
  fun_induction List.merge xs ys takesFirst with
  | case1 ys => rfl
  | case2 xs => simp
  | case3 x xs y ys hfirst ih =>
    have hhead : (x :: xs).filter p = if p x then x :: xs.filter p else xs.filter p := List.filter_cons
    rw [List.filter_cons, ih (List.cons_subset.mp hxs).2 hys hx.of_cons, hhead]
    split <;> rfl
  | case4 x xs y ys hsecond ih =>
    obtain ⟨hymem, hysub⟩ := List.cons_subset.mp hys
    have hyx : sortOrder y x = .lt := takesFirst_eq_false.mp (Bool.not_eq_true _ ▸ hsecond)
    have hhead : (y :: ys).filter p = if p y then y :: ys.filter p else ys.filter p := List.filter_cons
    rw [List.filter_cons, ih hxs hysub hx, hhead]
    split
    · rename_i hpy
      -- all of the front list lies above the value taken, so none of it equals it
      have hnone : (x :: xs).filter p = [] := by
        refine List.filter_eq_nil_iff.mpr fun z hz => Bool.eq_false_iff.mp ?_
        have hxmem := hxs List.mem_cons_self
        have hxz := hx.above hC hxmem hxs (by rw [sortOrder_self]; rfl) z hz
        exact hp.not_of_lt hymem (hxs hz) hpy
          (Or.inl (hC.lt_of_lt_of_le hymem hxmem (hxs hz) hyx hxz))
      rw [hnone]
      rfl
    · rfl

/-! ## 4. Sorting -/

theorem sortValues_sorts (hC : Consistent vs) :
    (sortValues vs).Perm vs ∧ Ordered (sortValues vs) ∧
      ∀ p, Level vs p → (sortValues vs).filter p = vs.filter p := by
  fun_induction sortValues vs with
  | case1 vs hshort => exact insertValues_sorts hC
  | case2 vs hlong half ihFront ihBack =>
    have hfront : vs.take half ⊆ vs := List.take_subset _ _
    have hback : vs.drop half ⊆ vs := List.drop_subset _ _
    obtain ⟨hperm, hordered, hstable⟩ := ihFront (hC.subset hfront)
    obtain ⟨hperm', hordered', hstable'⟩ := ihBack (hC.subset hback)
    have hsub : sortValues (vs.take half) ⊆ vs := fun x hx => hfront (hperm.mem_iff.mp hx)
    have hsub' : sortValues (vs.drop half) ⊆ vs := fun x hx => hback (hperm'.mem_iff.mp hx)
    refine ⟨?_, merge_ordered hC hsub hsub' hordered hordered', fun p hp => ?_⟩
    · have hboth := (List.merge_perm_append takesFirst).trans (hperm.append hperm')
      rw [List.take_append_drop] at hboth
      exact hboth
    · have hlevel {xs : List Value} (hxs : xs ⊆ vs) : Level xs p := fun x hx y hy =>
        hp x (hxs hx) y (hxs hy)
      refine (filter_merge hC hp hsub hsub' hordered).trans ?_
      rw [hstable p (hlevel hfront), hstable' p (hlevel hback), ← List.filter_append,
        List.take_append_drop]

/-- **Values that can be sorted are sorted stably.** -/
theorem sortValues_sortedFrom (hC : Consistent vs) : SortedFrom vs (sortValues vs) := by
  obtain ⟨hperm, hordered, hstable⟩ := sortValues_sorts hC
  exact ⟨hperm, hordered, fun v hv => hstable _ fun x hx y hy => hC.eq_of_level hv hx hy⟩

/-! ## 5. Searching -/

/-- **The halving ends at the last position that is not beyond the key**, or at the first position. -/
theorem narrowSearch_splits {order : Nat → Ordering}
    (hmono : ∀ i j, i ≤ j → order i = .gt → order j = .gt) {fuel base size : Nat}
    (hfuel : size ≤ fuel + 1) (hsize : 0 < size) (hlow : base = 0 ∨ order base ≠ .gt)
    (hhigh : order (base + size) = .gt) :
    (narrowSearch order fuel base size = 0 ∨ order (narrowSearch order fuel base size) ≠ .gt) ∧
      order (narrowSearch order fuel base size + 1) = .gt := by
  induction fuel generalizing base size with
  | zero =>
    have hone : size = 1 := by omega
    rw [hone] at hhigh
    exact ⟨hlow, hhigh⟩
  | succ fuel ih =>
    rw [narrowSearch]
    split
    · have hone : size = 1 := by omega
      rw [hone] at hhigh
      exact ⟨hlow, hhigh⟩
    · dsimp only
      split
      · rename_i hgt
        exact ih (by omega) (by omega) hlow (hmono _ _ (by omega) (eq_of_beq hgt))
      · rename_i hno
        refine ih (by omega) (by omega) (Or.inr fun hgt => hno (beq_iff_eq.mpr hgt)) ?_
        rw [show base + size / 2 + (size - size / 2) = base + size by omega]
        exact hhigh

/-- How the value at a position is to the key; what is beyond the list is greater. -/
def orderAt (vs : List Value) (key : Value) (i : Nat) : Ordering :=
  match vs[i]? with
  | some v => sortOrder v key
  | none => .gt

theorem orderAt_of_lt {key : Value} {i : Nat} (h : i < vs.length) :
    orderAt vs key i = sortOrder vs[i] key := by
  rw [orderAt, List.getElem?_eq_getElem h]

theorem orderAt_of_le {key : Value} {i : Nat} (h : vs.length ≤ i) : orderAt vs key i = .gt := by
  rw [orderAt, List.getElem?_eq_none h]

section InOrder

variable {key : Value} {i j : Nat} (hC : Consistent (key :: vs)) (hvs : Ordered vs) (hij : i ≤ j)
include hC hvs hij

/-- In a list in order, what is behind a value beyond the key is beyond it too. -/
theorem orderAt_gt (h : orderAt vs key i = .gt) : orderAt vs key j = .gt := by
  by_cases hj : j < vs.length
  · have hi : i < vs.length := by omega
    rw [orderAt_of_lt hi] at h
    rw [orderAt_of_lt hj, sortOrder_swap, Ordering.swap_eq_gt]
    rw [sortOrder_swap, Ordering.swap_eq_gt] at h
    obtain rfl | hlt := Nat.eq_or_lt_of_le hij
    · exact h
    · exact hC.lt_of_lt_of_le List.mem_cons_self (List.mem_cons_of_mem _ (List.getElem_mem hi))
        (List.mem_cons_of_mem _ (List.getElem_mem hj)) h
        (List.pairwise_iff_getElem.mp hvs i j hi hj hlt)
  · exact orderAt_of_le (by omega)

/-- What is in front of a value below the key is below it too. -/
theorem orderAt_lt (h : orderAt vs key j = .lt) : orderAt vs key i = .lt := by
  have hj : j < vs.length := by
    refine Nat.lt_of_not_le fun hle => ?_
    rw [orderAt_of_le hle] at h
    cases h
  have hi : i < vs.length := by omega
  rw [orderAt_of_lt hj] at h
  rw [orderAt_of_lt hi]
  obtain rfl | hlt := Nat.eq_or_lt_of_le hij
  · exact h
  · refine Decidable.byContradiction fun hno => ?_
    have hle := hC _ List.mem_cons_self _ (List.mem_cons_of_mem _ (List.getElem_mem hi)) _
      (List.mem_cons_of_mem _ (List.getElem_mem hj)) (isLE_of_ne_lt hno)
      (List.pairwise_iff_getElem.mp hvs i j hi hj hlt)
    rw [sortOrder_swap, h] at hle
    cases hle

end InOrder

/-- The number tells where the key is, or if no value equals it, where it would go. -/
inductive Places (vs : List Value) (key : Value) : Int → Prop where
  | found {i : Nat} {v : Value} : vs[i]? = some v → sortOrder v key = .eq → Places vs key i
  | between {p : Nat} : p ≤ vs.length → (∀ v ∈ vs.take p, sortOrder v key = .lt) →
      (∀ v ∈ vs.drop p, sortOrder v key = .gt) → Places vs key (-p - 1)

theorem Places.of_orderAt {key : Value} {p : Nat} (hp : p ≤ vs.length)
    (hbelow : ∀ i, i < p → orderAt vs key i = .lt) (habove : ∀ i, p ≤ i → orderAt vs key i = .gt) :
    Places vs key (-p - 1) := by
  refine .between hp (fun v hv => ?_) fun v hv => ?_
  · obtain ⟨i, hi, rfl⟩ := List.mem_take_iff_getElem.mp hv
    have hlt := hbelow i (by omega)
    rwa [orderAt_of_lt (by omega)] at hlt
  · obtain ⟨i, hi, rfl⟩ := List.mem_drop_iff_getElem.mp hv
    have hgt := habove (p + i) (by omega)
    rwa [orderAt_of_lt (by omega)] at hgt

/-- What the search says when it ends at a position. -/
def searchAnswer (order : Nat → Ordering) (base : Nat) : Int :=
  match order base with
  | .eq => base
  | .lt => -((base : Int) + 1) - 1
  | .gt => -(base : Int) - 1

theorem binarySearch_eq (vs : List Value) (key : Value) :
    binarySearch vs key = if vs.isEmpty then -1 else
      searchAnswer (orderAt vs key) (narrowSearch (orderAt vs key) vs.length 0 vs.length) := rfl

/-- **The search finds the key, or where it would go.** -/
theorem binarySearch_places {key : Value} (hC : Consistent (key :: vs)) (hvs : Ordered vs) :
    Places vs key (binarySearch vs key) := by
  rw [binarySearch_eq]
  split
  · rename_i hempty
    rw [List.isEmpty_iff] at hempty
    subst hempty
    exact .between (p := 0) (Nat.le_refl 0) (by simp) (by simp)
  · rename_i hne
    have hlen : 0 < vs.length := List.length_pos_iff.mpr fun h => hne (List.isEmpty_iff.mpr h)
    have hmono (i j : Nat) (hij : i ≤ j) : orderAt vs key i = .gt → orderAt vs key j = .gt :=
      orderAt_gt hC hvs hij
    generalize hbase : narrowSearch (orderAt vs key) vs.length 0 vs.length = base
    obtain ⟨hlow, hhigh⟩ : (base = 0 ∨ orderAt vs key base ≠ .gt) ∧ orderAt vs key (base + 1) = .gt := by
      rw [← hbase]
      exact narrowSearch_splits hmono (by omega) hlen (Or.inl rfl) (orderAt_of_le (by omega))
    have habove (i : Nat) (hi : base + 1 ≤ i) : orderAt vs key i = .gt :=
      orderAt_gt hC hvs hi hhigh
    have hthere (ho : orderAt vs key base ≠ .gt) : base < vs.length :=
      Nat.lt_of_not_le fun hle => ho (orderAt_of_le hle)
    unfold searchAnswer
    cases ho : orderAt vs key base with
    | eq =>
      have hbase : base < vs.length := hthere (by rw [ho]; decide)
      exact .found (List.getElem?_eq_getElem hbase) ((orderAt_of_lt hbase).symm.trans ho)
    | lt =>
      have hbase : base < vs.length := hthere (by rw [ho]; decide)
      exact .of_orderAt (p := base + 1) hbase
        (fun i hi => orderAt_lt hC hvs (Nat.le_of_lt_succ hi) ho) habove
    | gt =>
      have hzero : base = 0 := hlow.resolve_right fun hno => hno ho
      subst hzero
      refine .of_orderAt (p := 0) (by omega) (fun i hi => absurd hi (Nat.not_lt_zero i)) fun i hi => ?_
      exact orderAt_gt hC hvs hi ho

/-- The number is a position, or it is negative and tells one. -/
theorem Places.bounds {key : Value} {i : Int} (h : Places vs key i) :
    -(vs.length : Int) - 1 ≤ i ∧ i < vs.length := by
  cases h with
  | found hv _ =>
    obtain ⟨hlt, -⟩ := List.getElem?_eq_some_iff.mp hv
    omega
  | between hp _ _ => omega

/-- The number fits a machine word if the length of the list does. -/
theorem Places.ofInt_word {key : Value} {i : Int} (h : Places vs key i)
    (hlength : (vs.length : Int) ≤ maxMachineInt) : ∃ n, Value.ofInt i = .int n := by
  have hbounds := h.bounds
  refine (canonical_ofInt i).word_iff.mpr ⟨?_, by omega⟩
  unfold minMachineInt
  unfold maxMachineInt at hlength
  omega

/-! ## 6. In a running environment -/

/-- All values are integers, however they are held, or all are strings. -/
def Value.OneFamily (vs : List Value) : Prop :=
  (∀ v ∈ vs, v.toInt?.isSome = true) ∨ ∀ v ∈ vs, v.isString = true

namespace Value.OneFamily

theorem plain (h : OneFamily vs) : ∀ v ∈ vs, v.isDouble = false := by
  intro v hv
  rcases h with h | h
  · have hsome := h v hv
    cases v <;> first | rfl | cases hsome
  · have hstring := h v hv
    cases v <;> first | rfl | cases hstring

/-- Values of one family can be sorted. -/
theorem consistent (h : OneFamily vs) : Consistent vs := by
  have hnumber : ∀ v ∈ vs, v.isNotANumber = false := fun v hv =>
    isNotANumber_of_isDouble (h.plain v hv)
  rcases h with h | h
  · refine .of_rule (r := .integers) (fun a ha b hb => ?_) hnumber
    have hkinds {v : Value} (hv : v ∈ vs) : v.isNumeric = true ∧ v.isDouble = false := by
      obtain ⟨n, hn⟩ := Option.isSome_iff_exists.mp (h v hv)
      exact ⟨(kinds_of_toInt? hn).1, (kinds_of_toInt? hn).2.1⟩
    exact rule_eq_integers.mpr ⟨⟨(hkinds ha).1, (hkinds hb).1⟩, (hkinds ha).2, (hkinds hb).2⟩
  · refine .of_rule (r := .texts) (fun a ha b hb => ?_) hnumber
    have hstring := h a ha
    cases a with
    | str text => rfl
    | bool | int | big | double | word | block => cases hstring

end Value.OneFamily

section Lists

variable {pool : List Value} {target : Option Pid} {p : ScopeId} {c : Context} {m : Machine}

theorem Lists.sort (hm : Lists pool target p c m vs) (hC : Consistent vs) :
    (ListWord.sort.perform c).Ends m
      (fun _ m' => ∃ ws, SortedFrom vs ws ∧ Lists pool target p c m' ws) fun _ _ => False := by
  have hsorted := sortValues_sortedFrom hC
  refine (ends_bind_of_run hm.stackValues).mpr ?_
  refine (hm.setStackValues fun v hv => hm.among (hsorted.perm.mem_iff.mp hv)).mono ?_ fun _ _ h => h
  intro _ m' hm'
  exact ⟨_, hsorted, hm'⟩

/-- The key is popped, and what the search finds is pushed. -/
theorem Lists.search {key : Value} (hm : Lists pool target p c m (vs ++ [key])) :
    ∃ m', c.pop.run m = .ok key m' ∧ Lists pool target p c m' vs ∧
      (ListWord.search.perform c).run m = (c.push (.ofInt (binarySearch vs key))).run m' := by
  obtain ⟨m', hpop, hm'⟩ := hm.pop
  refine ⟨m', hpop, hm', ?_⟩
  show (c.pop >>= fun key => c.stackValues >>= fun values =>
    c.push (.ofInt (binarySearch values key))).run m = _
  rw [EStateM.run_bind, hpop]
  show (c.stackValues >>= fun values => c.push (.ofInt (binarySearch values key))).run m' = _
  rw [EStateM.run_bind, hm'.stackValues]

end Lists

namespace Ensemble

variable {w : Ensemble} {c : Context}

/-- **Sorting and searching agree.** In any state of a running environment, take a context in which
code may run, and let the innermost stack have values of one family. Sorting leaves them in order, and
equal ones as they were. If the top is a key and the others are in order, a search takes the key and
pushes a number that tells where among the others it is, or where it would go; the others stay. -/
theorem Reachable.sort_search (hw : w.Reachable) (hc : w.Hosts c) {vs : List Value}
    (hvs : c.stackValues.outcome w.machine = (.ok vs, w.machine)) (hfamily : OneFamily vs) :
    (∃ ws m', (ListWord.sort.perform c).outcome w.machine = (.ok (), m') ∧
      c.stackValues.outcome m' = (.ok ws, m') ∧ SortedFrom vs ws) ∧
    ∀ us key, vs = us ++ [key] → Ordered us → ∃ i m₁, Places us key i ∧
      c.pop.outcome w.machine = (.ok key, m₁) ∧ c.stackValues.outcome m₁ = (.ok us, m₁) ∧
      (ListWord.search.perform c).outcome w.machine = (c.push (.ofInt i)).outcome m₁ ∧
      ((∀ r, w.machine.arena.get? c.process = some r → r.pushTarget = none) →
        (us.length : Int) ≤ maxMachineInt →
        ∃ m₂, (ListWord.search.perform c).outcome w.machine = (.ok (), m₂) ∧
          c.stackValues.outcome m₂ = (.ok (us ++ [.ofInt i]), m₂)) := by
  have hS := hw.starts hc
  obtain ⟨s, hs, -⟩ := hS.head.get? hS.regular.tree
  have hm : Lists vs s.pushTarget c.process c w.machine vs :=
    .of_stackValues hS (fun r hr => by cases hs.symm.trans hr; rfl) hvs hfamily.plain
  refine ⟨?_, ?_⟩
  · obtain ⟨_, m', hrun, ws, hsorted, hm'⟩ := (hm.sort hfamily.consistent).run_eq_ok
    exact ⟨ws, m', by rw [outcome, hrun], hm'.outcome, hsorted⟩
  · intro us key he hordered
    subst he
    obtain ⟨m₁, hpop, hm₁, hsearch⟩ := hm.search
    have hC : Consistent (key :: us) := hfamily.consistent.subset (by simp)
    have hplaces := binarySearch_places hC hordered
    refine ⟨_, m₁, hplaces, by rw [outcome, hpop], hm₁.outcome,
      by rw [outcome, outcome, hsearch], fun hsession hlength => ?_⟩
    rw [hsession s hs] at hm₁
    -- a machine word needs no table, so it can be pushed
    obtain ⟨n, hn⟩ := hplaces.ofInt_word hlength
    have hm₂ := hm₁.add [.int n] fun v hv => by
      cases List.mem_singleton.mp hv
      exact ⟨rfl, Or.inl ⟨.int n, rfl⟩⟩
    obtain ⟨_, m₂, hrun, hm₂⟩ := (hm₂.push (v := .int n) (by simp)).run_eq_ok
    rw [hn] at hsearch ⊢
    exact ⟨m₂, by rw [outcome, hsearch, hrun], hm₂.outcome⟩

/-- 1, an integer that fits no machine word, and 2: the stack is sorted, or 2 is looked for. -/
theorem Reachable.sort_search_mixed : ∃ (w : Ensemble) (ws : List Value) (i : Int) (m m' : Machine),
    w.Reachable ∧ w.Hosts .top ∧
    (ListWord.sort.perform .top).outcome w.machine = (.ok (), m) ∧
    Context.top.stackValues.outcome m = (.ok ws, m) ∧
    SortedFrom [.int 1, .big 0x8000000000000000, .int 2] ws ∧
    (ListWord.search.perform .top).outcome w.machine = (.ok (), m') ∧
    Context.top.stackValues.outcome m' =
      (.ok [.int 1, .big 0x8000000000000000, .ofInt i], m') ∧
    Places [.int 1, .big 0x8000000000000000] (.int 2) i := by
  obtain ⟨w, hw, hm⟩ :=
    exists_lists [.int 1, .big 0x8000000000000000, .int 2] (by simp [isDouble]) (by simp)
  have hordered : Ordered [.int 1, .big 0x8000000000000000] :=
    .cons (fun v hv => by cases List.mem_singleton.mp hv; decide +kernel) (List.pairwise_singleton _ _)
  obtain ⟨⟨ws, m, hsort, hws, hsorted⟩, hsearch⟩ :=
    hw.sort_search (Or.inl rfl) hm.outcome (Or.inl (by simp [toInt?]))
  obtain ⟨i, m₁, hplaces, -, -, -, hpushed⟩ := hsearch _ _ rfl hordered
  obtain ⟨m', hfound, hleft⟩ := hpushed (fun r hr => hm.session hr) (by decide)
  exact ⟨w, ws, i, m, m', hw, Or.inl rfl, hsort, hws, hsorted, hfound, hleft, hplaces⟩

end Ensemble

end ScopeStack
