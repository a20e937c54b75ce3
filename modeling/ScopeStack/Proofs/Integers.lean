import Mathlib.Algebra.Order.Group.Unbundled.Int
import ScopeStack.Proofs.Action
import ScopeStack.Word.Values

/-!
# Exact arithmetic on integers

An integer is held in two ways, as a machine word or without a bound, and it is calculated with in
two ways. Neither is to be seen in a result: it is the exact integer, and a machine word where it
fits one.

* `ArithOp.toInt_onWords`: **what machine words give is exact.** `ArithOp.add_onWords`: which sums they
  give.
* `Value.Canonical`: the one value that an integer is held as; `ArithOp.apply_integers`: operations
  give it, whatever their operands are held as.
* `ArithWord.integers_exact`: **words that calculate are exact, and refuse a zero divisor.**
-/

namespace ScopeStack

open ScopeStack.Action

/-! ## 1. Machine words -/

namespace ArithOp

theorem toInt_quotient {a b : Int64} (h : ¬ (b = 0 ∨ a = Int64.minValue ∧ b = -1)) :
    (a / b).toInt = a.toInt.tdiv b.toInt := by
  by_cases ha : a = Int64.minValue
  · exact Int64.toInt_div_of_ne_right a b fun hb => h (Or.inr ⟨ha, hb⟩)
  · exact Int64.toInt_div_of_ne_left a b ha

/-- **What machine words give is exact.** -/
theorem toInt_onWords {op : ArithOp} {a b n : Int64} (h : op.onWords a b = some n) :
    n.toInt = op.onInts a.toInt b.toInt := by
  cases op with
  | add =>
    obtain ⟨hfits, he⟩ := Option.ite_none_left_eq_some.mp h
    cases he
    exact BitVec.toInt_add_of_not_saddOverflow hfits
  | subtract =>
    obtain ⟨hfits, he⟩ := Option.ite_none_left_eq_some.mp h
    cases he
    exact BitVec.toInt_sub_of_not_ssubOverflow hfits
  | multiply =>
    obtain ⟨hfits, he⟩ := Option.ite_none_left_eq_some.mp h
    cases he
    exact BitVec.toInt_mul_of_not_smulOverflow hfits
  | divide =>
    obtain ⟨hfits, he⟩ := Option.ite_none_left_eq_some.mp h
    cases he
    exact toInt_quotient hfits
  | modulo =>
    obtain ⟨-, he⟩ := Option.ite_none_left_eq_some.mp h
    cases he
    exact Int64.toInt_mod a b

/-- **The sum of two machine words is one, unless the exact sum is past their range.** -/
theorem add_onWords (a b : Int64) : add.onWords a b = machineInt? (a.toInt + b.toInt) := by
  cases hsum : add.onWords a b with
  | some n =>
    have hexact : n.toInt = a.toInt + b.toInt := toInt_onWords hsum
    rw [← hexact, machineInt?_toInt]
  | none =>
    have hover : a.toBitVec.saddOverflow b.toBitVec = true := by
      by_contra hfits
      rw [onWords, if_neg hfits] at hsum
      cases hsum
    have hpast : a.toInt + b.toInt ≥ 2 ^ 63 ∨ a.toInt + b.toInt < -2 ^ 63 := by
      simpa [BitVec.saddOverflow] using hover
    refine (Option.not_isSome_iff_eq_none.mp fun h => ?_).symm
    obtain ⟨hmin, hmax⟩ := (machineInt?_isSome _).mp h
    unfold minMachineInt at hmin
    unfold maxMachineInt at hmax
    omega

end ArithOp

/-! ## 2. Integers as values -/

namespace Value

/-- The value is the integer, and a machine word just if the integer fits one. -/
structure Canonical (v : Value) (n : Int) : Prop where
  toInt : v.toInt? = some n
  word_iff : (∃ w, v = .int w) ↔ minMachineInt ≤ n ∧ n ≤ maxMachineInt

theorem canonical_ofInt (n : Int) : (ofInt n).Canonical n := by
  have hfits := machineInt?_isSome n
  unfold ofInt
  cases hw : machineInt? n with
  | some w =>
    rw [hw] at hfits
    exact ⟨congrArg some (machineInt?_eq_some hw), fun _ => hfits.mp rfl, fun _ => ⟨w, rfl⟩⟩
  | none =>
    rw [hw] at hfits
    exact ⟨rfl, fun ⟨_, he⟩ => (by cases he), fun h => absurd (hfits.mpr h) (by decide)⟩

variable {v : Value} {n : Int}

theorem ofInt_toInt (w : Int64) : ofInt w.toInt = .int w := by
  rw [ofInt, machineInt?_toInt]

theorem asInt_of_toInt? (h : v.toInt? = some n) : v.asInt = .ok n := by
  rw [asInt, h]

/-- An integer is a number, and neither a double nor a string. -/
theorem kinds_of_toInt? (h : v.toInt? = some n) :
    v.isNumeric = true ∧ v.isDouble = false ∧ v.isString = false := by
  cases v with
  | int | big => exact ⟨rfl, rfl, rfl⟩
  | bool | double | str | word | block => cases h

theorem isZero_iff_of_toInt? (h : v.toInt? = some n) : v.isZero = true ↔ n = 0 := by
  cases v with
  | int w =>
    cases h
    show (w == 0) = true ↔ _
    rw [beq_iff_eq, ← Int64.toInt_inj]
    rfl
  | big m =>
    cases h
    exact beq_iff_eq
  | bool | double | str | word | block => cases h

end Value

/-! ## 3. Operations -/

section Operations

variable {op : ArithOp} {a b : Value} {x y : Int}

/-- The machine words that are tried first give what the integers give. -/
theorem ArithOp.ofInt_onInts {n : Int64} (hx : a.toInt? = some x) (hy : b.toInt? = some y)
    (h : op.byWords? a b = some n) : Value.ofInt (op.onInts x y) = .int n := by
  unfold byWords? at h
  split at h
  · cases hx
    cases hy
    rw [← toInt_onWords h, Value.ofInt_toInt]
  · cases h

/-- **Operations on integers are exact**, whatever the operands are held as. -/
theorem ArithOp.apply_integers (op : ArithOp) (hx : a.toInt? = some x) (hy : b.toInt? = some y) :
    op.apply a b = .ok (.ofInt (op.onInts x y)) := by
  have hnumeric : ¬ (!(a.isNumeric && b.isNumeric)) = true := by
    simp [Value.kinds_of_toInt? hx, Value.kinds_of_toInt? hy]
  have hexact : ¬ (a.isDouble || b.isDouble) = true := by
    simp [Value.kinds_of_toInt? hx, Value.kinds_of_toInt? hy]
  rw [apply, if_neg hnumeric, if_neg hexact]
  split
  · rename_i n hn
    rw [ArithOp.ofInt_onInts hx hy hn]
  · rw [Value.asInt_of_toInt? hx, Value.asInt_of_toInt? hy]
    rfl

theorem addValues_integers (hx : a.toInt? = some x) (hy : b.toInt? = some y) :
    addValues a b = .ok (.ofInt (x + y)) := by
  have hno : ¬ (a.isString || b.isString) = true := by
    simp [Value.kinds_of_toInt? hx, Value.kinds_of_toInt? hy]
  rw [addValues, if_neg hno]
  exact ArithOp.add.apply_integers hx hy

theorem dividing_integers (op : ArithOp) (hx : a.toInt? = some x) (hy : b.toInt? = some y) :
    dividing op a b =
      if y = 0 then .error .divisionByZero else .ok (.ofInt (op.onInts x y)) := by
  unfold dividing checkDivisor
  simp only [Value.isZero_iff_of_toInt? hy, op.apply_integers hx hy]
  split <;> rfl

end Operations

/-! ## 4. Words -/

namespace ArithWord

/-- What a word makes of two values, in the order in which it is pushed. -/
def results : ArithWord → Value → Value → Except Fault (List Value)
  | .add, a, b => return [← addValues a b]
  | .subtract, a, b => return [← ArithOp.subtract.apply a b]
  | .multiply, a, b => return [← ArithOp.multiply.apply a b]
  | .divide, a, b => return [← dividing .divide a b]
  | .modulo, a, b => return [← dividing .modulo a b]
  | .divideModulo, a, b => return [← dividing .modulo a b, ← dividing .divide a b]

/-- What a word makes of two integers, in the order in which it is pushed. -/
def onInts : ArithWord → Int → Int → List Int
  | .add, x, y => [x + y]
  | .subtract, x, y => [x - y]
  | .multiply, x, y => [x * y]
  | .divide, x, y => [x.tdiv y]
  | .modulo, x, y => [x.tmod y]
  | .divideModulo, x, y => [x.tmod y, x.tdiv y]

/-- Does the word divide by its right operand? -/
def divides : ArithWord → Bool
  | .add | .subtract | .multiply => false
  | .divide | .modulo | .divideModulo => true

/-- **A word that calculates takes two values and pushes what it makes of them.** -/
theorem perform_eq (c : Context) (w : ArithWord) :
    w.perform c = (do
      let b ← c.pop
      let a ← c.pop
      let vs ← ofExcept (w.results a b)
      vs.forM c.push) := by
  have hone {r : Except Fault Value} : (do c.push (← ofExcept r) : Action Unit) =
      (do
        let vs ← ofExcept (do return [← r])
        vs.forM c.push) := by
    cases r with
    | error e => rfl
    | ok v => exact (bind_pure (c.push v)).symm
  have htwo {r q : Except Fault Value} : (do
        let v ← ofExcept r
        let w ← ofExcept q
        c.push v
        c.push w : Action Unit) =
      (do
        let vs ← ofExcept (do return [← r, ← q])
        vs.forM c.push) := by
    cases r with
    | error e => rfl
    | ok v =>
      cases q with
      | error e => rfl
      | ok w => exact bind_congr fun _ => (bind_pure (c.push w)).symm
  cases w with
  | add | subtract | multiply | divide | modulo =>
    exact bind_congr fun b => bind_congr fun a => hone
  | divideModulo => exact bind_congr fun b => bind_congr fun a => htwo

theorem results_integers {a b : Value} {x y : Int} (hx : a.toInt? = some x)
    (hy : b.toInt? = some y) (w : ArithWord) :
    w.results a b =
      if w.divides = true ∧ y = 0 then .error .divisionByZero
      else .ok ((w.onInts x y).map Value.ofInt) := by
  cases w with
  | add => rw [results, addValues_integers hx hy]; rfl
  | subtract => rw [results, ArithOp.subtract.apply_integers hx hy]; rfl
  | multiply => rw [results, ArithOp.multiply.apply_integers hx hy]; rfl
  | divide | modulo | divideModulo =>
    simp only [results, dividing_integers _ hx hy, divides, true_and]
    split <;> rfl

/-- **Words that calculate are exact on integers**, whatever these are held as. Let two integers be
taken from the stack, `y` from the top. With a zero divisor the word fails there and then. Otherwise
it pushes the sum, the difference, the product, the quotient rounded towards zero, the remainder, or
the remainder and then the quotient, each as a machine word just if it fits one; machine words, where
they give a result, give that one. -/
theorem integers_exact {c : Context} {m m₁ m₂ : Machine} {a b : Value} {x y : Int}
    (hb : c.pop.run m = .ok b m₁) (ha : c.pop.run m₁ = .ok a m₂)
    (hx : a.toInt? = some x) (hy : b.toInt? = some y) :
    (∀ w : ArithWord, w.divides = true → y = 0 →
      (w.perform c).run m = .error ⟨.divisionByZero, none⟩ m₂ ∧
        Fault.divisionByZero.kind = .runtime) ∧
    (∀ w : ArithWord, (w.divides = true → y ≠ 0) →
      (w.perform c).run m = (((w.onInts x y).map Value.ofInt).forM c.push).run m₂ ∧
        ∀ n ∈ w.onInts x y, (Value.ofInt n).Canonical n) ∧
    (y ≠ 0 → x = x.tdiv y * y + x.tmod y ∧ |x.tmod y| < |y| ∧ 0 ≤ x.tmod y * x) ∧
    ∀ op n, ArithOp.byWords? op a b = some n → Value.ofInt (op.onInts x y) = .int n := by
  have hrun (w : ArithWord) :
      (w.perform c).run m = (do
        let vs ← ofExcept (w.results a b)
        vs.forM c.push : Action Unit).run m₂ := by
    rw [perform_eq, EStateM.run_bind, hb]
    dsimp only
    rw [EStateM.run_bind, ha]
  refine ⟨fun w hw hzero => ⟨?_, rfl⟩, fun w hw => ⟨?_, fun n _ => Value.canonical_ofInt n⟩,
    fun hne => ⟨?_, ?_, ?_⟩, fun op n => ArithOp.ofInt_onInts hx hy⟩
  · rw [hrun, results_integers hx hy, if_pos ⟨hw, hzero⟩]
    rfl
  · rw [hrun, results_integers hx hy, if_neg fun h => hw h.1 h.2]
    rfl
  · exact (Int.tdiv_mul_add_tmod x y).symm
  · rw [Int.abs_eq_natAbs, Int.abs_eq_natAbs, Int.natAbs_tmod]
    exact Int.ofNat_lt.mpr (Nat.mod_lt _ (Int.natAbs_pos.mpr hne))
  · rcases Int.le_total 0 x with hpos | hneg
    · exact Int.mul_nonneg (Int.tmod_nonneg y hpos) hpos
    · have hfalls := Int.tmod_nonneg y (Int.neg_nonneg_of_nonpos hneg)
      rw [Int.neg_tmod] at hfalls
      exact Int.mul_nonneg_of_nonpos_of_nonpos (Int.neg_nonneg.mp hfalls) hneg

/-- The least machine word divided by minus one: the quotient fits no machine word, the remainder
does. -/
theorem integers_exact_least : ∃ (c : Context) (m m₁ m₂ : Machine),
    c.pop.run m = .ok (.int (-1)) m₁ ∧ c.pop.run m₁ = .ok (.int Int64.minValue) m₂ ∧
    (divide.perform c).run m = ([Value.big 0x8000000000000000].forM c.push).run m₂ ∧
    (divideModulo.perform c).run m =
      ([Value.int 0, Value.big 0x8000000000000000].forM c.push).run m₂ := by
  let c : Context := ⟨1, 1, 0, [1], none⟩
  let a : Arena := ({} : Arena).setStack 1 [.int (-1), .int Int64.minValue]
  have hb : c.pop.run { arena := a } = .ok (.int (-1)) { arena := a.popCell 1 } := rfl
  have ha : c.pop.run { arena := a.popCell 1 } =
      .ok (.int Int64.minValue) { arena := (a.popCell 1).popCell 1 } := rfl
  obtain ⟨-, hexact, -⟩ := integers_exact hb ha (x := -0x8000000000000000) (y := -1) rfl rfl
  exact ⟨c, _, _, _, hb, ha, (hexact .divide fun _ => by decide).1,
    (hexact .divideModulo fun _ => by decide).1⟩

end ArithWord

end ScopeStack
