/-!
# Numbers and their digits

In a radix a number is a list of digits, the most significant first. Reading joins neighbouring
digits into digits of the squared radix until one is left; writing splits a number the other way
round. Both work on halves, so they take little time for numbers of many digits too.

* `numberOf`, `digitsOf`: reading and writing.
* `numberOf_nil`, `numberOf_concat`: positional notation, digit by digit.
* `numberOf_digitsOf`: a number reads back from its digits. `lt_of_mem_digitsOf`: they are digits of
  the radix. `head?_digitsOf`: the first one is zero only for zero.
* `decimalText`, `integerText`: the decimal text of a number.
-/

namespace ScopeStack

/-! ## 1. Positional notation -/

/-- The number that digits denote, the least significant first. -/
def positional (radix : Nat) : List Nat → Nat
  | [] => 0
  | d :: ds => d + radix * positional radix ds

theorem positional_concat_zero (radix : Nat) (ds : List Nat) :
    positional radix (ds ++ [0]) = positional radix ds := by
  induction ds with
  | nil => simp [positional]
  | cons d ds ih => simp [positional, ih]

/-! ## 2. Reading -/

/-- Join every two neighbours into one digit of the squared radix. -/
def joinPairs (radix : Nat) : List Nat → List Nat
  | d :: e :: ds => (d + radix * e) :: joinPairs radix ds
  | ds => ds

theorem positional_joinPairs (radix : Nat) (ds : List Nat) :
    positional (radix * radix) (joinPairs radix ds) = positional radix ds := by
  fun_induction joinPairs radix ds with
  | case1 d e ds ih =>
    simp only [positional, ih, Nat.mul_add, Nat.mul_assoc]
    omega
  | case2 ds h =>
    match ds with
    | [] => rfl
    | [d] => rfl
    | d :: e :: rest => exact absurd rfl (h d e rest)

theorem length_joinPairs_le (radix : Nat) (ds : List Nat) :
    (joinPairs radix ds).length ≤ ds.length := by
  fun_induction joinPairs radix ds with
  | case1 d e ds ih => simp only [List.length_cons]; omega
  | case2 ds _ => exact Nat.le_refl _

/-- Join digits, the least significant first, into one number. -/
def joinDigits (radix : Nat) (ds : List Nat) : Nat :=
  match ds with
  | [] => 0
  | [d] => d
  | d :: e :: rest => joinDigits (radix * radix) ((d + radix * e) :: joinPairs radix rest)
termination_by ds.length
decreasing_by
  have := length_joinPairs_le radix rest
  simp only [List.length_cons]
  omega

theorem joinDigits_eq (radix : Nat) (ds : List Nat) :
    joinDigits radix ds = positional radix ds := by
  fun_induction joinDigits radix ds with
  | case1 => rfl
  | case2 => simp [positional]
  | case3 radix d e rest ih =>
    rw [ih]
    exact positional_joinPairs radix (d :: e :: rest)

/-- The number that digits denote. -/
def numberOf (radix : Nat) (ds : List Nat) : Nat := joinDigits radix ds.reverse

theorem numberOf_eq (radix : Nat) (ds : List Nat) :
    numberOf radix ds = positional radix ds.reverse := joinDigits_eq radix _

@[simp] theorem numberOf_nil (radix : Nat) : numberOf radix [] = 0 := by
  simp [numberOf_eq, positional]

/-- One more digit multiplies by the radix and adds the digit. -/
theorem numberOf_concat (radix : Nat) (ds : List Nat) (d : Nat) :
    numberOf radix (ds ++ [d]) = numberOf radix ds * radix + d := by
  simp only [numberOf_eq, List.reverse_append, List.reverse_cons, List.reverse_nil,
    List.nil_append, List.singleton_append, positional]
  rw [Nat.mul_comm]
  omega

/-- A zero in front changes nothing. -/
theorem numberOf_zero_cons (radix : Nat) (ds : List Nat) :
    numberOf radix (0 :: ds) = numberOf radix ds := by
  simp [numberOf_eq, positional_concat_zero]

theorem numberOf_dropWhile_zero (radix : Nat) (ds : List Nat) :
    numberOf radix (ds.dropWhile (· == 0)) = numberOf radix ds := by
  induction ds with
  | nil => rfl
  | cons d ds ih =>
    rw [List.dropWhile_cons]
    split
    · rename_i h
      have hd : d = 0 := by simpa using h
      rw [ih, hd, numberOf_zero_cons]
    · rfl

/-! ## 3. Writing -/

/-- Split every digit of the squared radix into two. -/
def splitPairs (radix : Nat) (ds : List Nat) : List Nat :=
  ds.flatMap fun d => [d % radix, d / radix]

theorem positional_splitPairs (radix : Nat) (ds : List Nat) :
    positional radix (splitPairs radix ds) = positional (radix * radix) ds := by
  induction ds with
  | nil => rfl
  | cons d ds ih =>
    have hd := Nat.mod_add_div d radix
    have hs : splitPairs radix (d :: ds) = d % radix :: d / radix :: splitPairs radix ds := rfl
    simp only [hs, positional, ih, Nat.mul_add, Nat.mul_assoc]
    omega

theorem lt_of_mem_splitPairs {radix : Nat} {ds : List Nat} (hr : 0 < radix)
    (h : ∀ d ∈ ds, d < radix * radix) : ∀ d ∈ splitPairs radix ds, d < radix := by
  intro d hd
  simp only [splitPairs, List.mem_flatMap, List.mem_cons, List.not_mem_nil, or_false] at hd
  obtain ⟨e, he, rfl | rfl⟩ := hd
  · exact Nat.mod_lt _ hr
  · exact Nat.div_lt_of_lt_mul (h e he)

/-- The digits of a number, the least significant first, and perhaps zeros behind them. The radix is
squared until the number is a digit, at most a number of times. -/
def splitNumber : (fuel radix n : Nat) → List Nat
  | 0, _, n => [n]
  | fuel + 1, radix, n =>
    if n < radix then [n] else splitPairs radix (splitNumber fuel (radix * radix) n)

theorem positional_splitNumber (fuel radix n : Nat) :
    positional radix (splitNumber fuel radix n) = n := by
  fun_induction splitNumber fuel radix n with
  | case1 => simp [positional]
  | case2 => simp [positional]
  | case3 fuel radix n _ ih => rw [positional_splitPairs, ih]

theorem lt_of_mem_splitNumber {fuel radix n : Nat} (hr : 2 ≤ radix) (hf : n < radix + fuel) :
    ∀ d ∈ splitNumber fuel radix n, d < radix := by
  fun_induction splitNumber fuel radix n with
  | case1 => simpa using hf
  | case2 => simp_all
  | case3 fuel radix n _ ih =>
    have hsq : 2 * radix ≤ radix * radix := Nat.mul_le_mul_right radix hr
    exact lt_of_mem_splitPairs (by omega) (ih (by omega) (by omega))

/-- The digits of a number. Zero has one digit. -/
def digitsOf (radix n : Nat) : List Nat :=
  if n = 0 then [0] else (splitNumber n radix n).reverse.dropWhile (· == 0)

/-- **A number reads back from its digits.** -/
theorem numberOf_digitsOf (radix n : Nat) : numberOf radix (digitsOf radix n) = n := by
  unfold digitsOf
  split
  · rename_i h
    rw [h, numberOf_zero_cons, numberOf_nil]
  · rw [numberOf_dropWhile_zero, numberOf_eq, List.reverse_reverse, positional_splitNumber]

/-- Digits are less than the radix. -/
theorem lt_of_mem_digitsOf {radix n : Nat} (hr : 2 ≤ radix) :
    ∀ d ∈ digitsOf radix n, d < radix := by
  unfold digitsOf
  split
  · simp only [List.mem_singleton, forall_eq]
    omega
  · intro d hd
    have hm := (List.dropWhile_sublist _).mem hd
    exact lt_of_mem_splitNumber hr (by omega) d (List.mem_reverse.mp hm)

/-- A number other than zero starts with a digit other than zero. -/
theorem head?_digitsOf {radix n : Nat} (hn : n ≠ 0) :
    ∃ d, d ≠ 0 ∧ (digitsOf radix n).head? = some d := by
  have hne : digitsOf radix n ≠ [] := by
    intro h
    have := numberOf_digitsOf radix n
    rw [h, numberOf_nil] at this
    exact hn this.symm
  refine ⟨(digitsOf radix n).head hne, ?_, List.head?_eq_some_head hne⟩
  simp only [digitsOf, if_neg hn] at hne ⊢
  have := List.head_dropWhile_not (· == 0) hne
  simpa using this

/-! ## 4. Decimal text -/

/-- A number in decimal. -/
def decimalText (n : Nat) : String := String.ofList ((digitsOf 10 n).map Nat.digitChar)

/-- An integer in decimal. -/
def integerText (n : Int) : String :=
  if n < 0 then "-" ++ decimalText n.natAbs else decimalText n.natAbs

end ScopeStack
