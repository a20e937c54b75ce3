import ScopeStack.Source.Literal

/-!
# Doubles that equal themselves

A double is equal to itself unless it is not a number, and that can be told from its bits: the
exponent is the largest one and the fraction is not zero. Rounding never gives such bits, and the
name of what is not a number has no point in it, so no literal is one.

* `BitsOfNumber`: the bits of a number; `beq_ofBits`: such a double equals itself.
* `nearestDouble_beq`: **rounding gives a number.** A mantissa that is rounded has at most 53 bits,
  or is the least one with 54 (`quotient_lt`).
* `Literal.number_beq`: **the number of a literal equals itself.**
-/

namespace ScopeStack

open Float.Model
open Float.Model.UnpackedFloat (unpackExponent unpackMantissa packedInfinity packedZero)

/-! ## 1. Bits -/

/-- With the largest exponent there is no fraction. -/
def BitsOfNumber (b : BitVec Format.binary64.numBits) : Prop :=
  unpackExponent b = (-1#_) → unpackMantissa b = 0#_

theorem unpack_ne_notANumber_iff {b : BitVec Format.binary64.numBits} :
    UnpackedFloat.unpack Format.binary64 b ≠ .notANumber ↔ BitsOfNumber b := by
  constructor
  · intro h hexp
    refine Decidable.byContradiction fun hm => h ?_
    exact (if_pos hexp).trans (if_neg hm)
  · intro h he
    by_cases hexp : unpackExponent b = (-1#_)
    · cases he.symm.trans ((if_pos hexp).trans (if_pos (h hexp)))
    · by_cases hzero : unpackExponent b = 0#_
      · by_cases hm : unpackMantissa b = 0#_
        · cases he.symm.trans ((if_neg hexp).trans ((if_pos hzero).trans (dif_pos hm)))
        · cases he.symm.trans ((if_neg hexp).trans ((if_pos hzero).trans (dif_neg hm)))
      · cases he.symm.trans ((if_neg hexp).trans (if_neg hzero))

theorem bitsOfNumber_pack {f : UnpackedFloat} (hf : f ≠ .notANumber) :
    BitsOfNumber (UnpackedFloat.pack Format.binary64 f) := by
  unfold BitsOfNumber
  fun_cases UnpackedFloat.pack with
  | case1 => exact absurd rfl hf
  | case2 s => simp [packedInfinity]
  | case3 s => simp [packedZero]
  | case4 s m e hm biased h => simp [packedInfinity]
  | case5 s m e hm bits biased h₁ h₂ =>
    intro h
    rw [UnpackedFloat.unpackExponent_packComponents, BitVec.neg_one_eq_allOnes, ← BitVec.toNat_inj,
      BitVec.toNat_ofNat, BitVec.toNat_allOnes, Nat.mod_eq_of_lt (by omega)] at h
    omega
  | case6 s m e hm bits biased h₁ h₂ =>
    intro h
    rw [UnpackedFloat.unpackExponent_packComponents] at h
    exact absurd h (by decide)

theorem compare_self {u : UnpackedFloat} (hu : u ≠ .notANumber) : u.compare u = some .eq := by
  cases u with
  | notANumber => exact absurd rfl hu
  | infinity s => cases s <;> rfl
  | zero s => rfl
  | finite s m e hm =>
    have hself : (compare e e).then (compare m m) = .eq := by
      rw [Std.ReflOrd.compare_self, Std.ReflOrd.compare_self]
      rfl
    cases s with
    | negative => exact congrArg (fun o => some (Ordering.swap o)) hself
    | positive => exact congrArg some hself

/-- **The bits of a number give a double that equals itself.** -/
theorem beq_ofBits {b : UInt64} (h : BitsOfNumber b.toBitVec) :
    (Float.ofBits b == Float.ofBits b) = true := by
  have hu : (Float.ofBits b).toModel.unpack ≠ .notANumber :=
    unpack_ne_notANumber_iff.mpr (bitsOfNumber_pack (unpack_ne_notANumber_iff.mpr h))
  show ((Float.ofBits b).toModel.unpack.compare (Float.ofBits b).toModel.unpack == some .eq) = true
  rw [compare_self hu]
  rfl

theorem bitsOfNumber_ofNat {n : Nat} (he : n / hiddenBit % 2048 ≠ 2047) :
    BitsOfNumber (UInt64.ofNat n).toBitVec := by
  intro h
  rw [← BitVec.toNat_inj] at h
  simp [unpackExponent, BitVec.extractLsb, Nat.shiftRight_eq_div_pow] at h
  unfold hiddenBit at he
  omega

/-! ## 2. Rounding -/

theorem infinity_beq (negative : Bool) : (infinity negative == infinity negative) = true := by
  unfold infinity
  cases negative
  all_goals
    refine beq_ofBits ?_
    unfold BitsOfNumber
    decide

/-- A mantissa of at most 53 bits, or the least one with 54, gives a number. -/
theorem packDouble_beq (negative : Bool) {mantissa : Nat} (hm : mantissa ≤ 2 * hiddenBit)
    (exponent : Int) :
    (packDouble negative mantissa exponent == packDouble negative mantissa exponent) = true := by
  unfold packDouble
  generalize hme : (if mantissa = 2 * hiddenBit then (hiddenBit, exponent + 1)
    else (mantissa, exponent)) = me
  obtain ⟨m, e⟩ := me
  have hlt : m < 2 * hiddenBit := by
    split at hme <;> cases hme
    · decide
    · omega
  dsimp only
  generalize hbiased : (if m < hiddenBit then 0 else (e + 1075).toNat) = biased
  split
  · exact infinity_beq negative
  · rename_i hfits
    refine beq_ofBits (bitsOfNumber_ofNat ?_)
    unfold hiddenBit signBit at *
    split <;> split <;> omega

/-- A quotient of about 53 bits. -/
theorem quotient_lt (num den : Nat) (e : Int)
    (he : (num.log2 : Int) - den.log2 - 52 ≤ e) :
    (scaleQuotient num den e).1 / (scaleQuotient num den e).2 < 2 * hiddenBit := by
  have hn : num < 2 ^ (num.log2 + 1) := Nat.lt_log2_self
  have hhidden : 2 * hiddenBit = 2 ^ 53 := by decide
  by_cases hd : den = 0
  · subst hd
    unfold scaleQuotient
    split <;> simp [hiddenBit]
  · have hden : 2 ^ den.log2 ≤ den := Nat.log2_self_le hd
    unfold scaleQuotient twoTo
    rw [hhidden]
    split
    · have hpos : 0 < den * 2 ^ e.toNat :=
        Nat.mul_pos (Nat.pos_of_ne_zero hd) (Nat.pow_pos (by omega))
      show num / (den * 2 ^ e.toNat) < 2 ^ 53
      rw [Nat.div_lt_iff_lt_mul hpos]
      calc num < 2 ^ (num.log2 + 1) := hn
        _ ≤ 2 ^ (53 + (den.log2 + e.toNat)) := Nat.pow_le_pow_right (by omega) (by omega)
        _ = 2 ^ 53 * (2 ^ den.log2 * 2 ^ e.toNat) := by rw [Nat.pow_add, Nat.pow_add]
        _ ≤ 2 ^ 53 * (den * 2 ^ e.toNat) :=
          Nat.mul_le_mul_left _ (Nat.mul_le_mul_right _ hden)
    · show num * 2 ^ (-e).toNat / den < 2 ^ 53
      rw [Nat.div_lt_iff_lt_mul (Nat.pos_of_ne_zero hd)]
      calc num * 2 ^ (-e).toNat < 2 ^ (num.log2 + 1) * 2 ^ (-e).toNat :=
          Nat.mul_lt_mul_of_pos_right hn (Nat.pow_pos (by omega))
        _ = 2 ^ (num.log2 + 1 + (-e).toNat) := (Nat.pow_add ..).symm
        _ ≤ 2 ^ (53 + den.log2) := Nat.pow_le_pow_right (by omega) (by omega)
        _ = 2 ^ 53 * 2 ^ den.log2 := by rw [Nat.pow_add]
        _ ≤ 2 ^ 53 * den := Nat.mul_le_mul_left _ hden

theorem roundHalfEven_le (num den : Nat) : roundHalfEven num den ≤ num / den + 1 := by
  unfold roundHalfEven
  dsimp only
  split <;> omega

/-- **Rounding gives a number.** -/
theorem nearestDouble_beq (negative : Bool) (num den : Nat) :
    (nearestDouble negative num den == nearestDouble negative num den) = true := by
  unfold nearestDouble
  split
  · exact packDouble_beq negative (by decide) _
  · dsimp only
    generalize hguess : (num.log2 : Int) - den.log2 - 53 = guess
    refine packDouble_beq negative ?_ _
    refine Nat.le_trans (roundHalfEven_le _ _) ?_
    -- the exponent is the guess, with which the quotient was seen to fit, or at least one more
    split
    · rename_i hfits
      rcases Int.le_total (-1074) guess with hle | hle
      · rw [Int.max_eq_left hle]
        omega
      · rw [Int.max_eq_right hle]
        rcases Int.lt_or_eq_of_le hle with hlt | rfl
        · have := quotient_lt num den (-1074) (by omega)
          omega
        · omega
    · have := quotient_lt num den (max (guess + 1) (-1074)) (by omega)
      omega

/-! ## 3. Literals -/

theorem doubleOfDecimal_beq (negative : Bool) (digits : List Nat) (exponent : Int) :
    (doubleOfDecimal negative digits exponent == doubleOfDecimal negative digits exponent) =
      true := by
  unfold doubleOfDecimal
  dsimp only
  split
  · exact packDouble_beq negative (by decide) _
  · split
    · exact infinity_beq negative
    · split
      · exact nearestDouble_beq ..
      · exact nearestDouble_beq ..

/-- What is read from a text with a point is a number. -/
theorem readDouble?_beq {cs : List Char} {x : Float} (hx : readDouble? cs = some x)
    (hpoint : '.' ∈ cs) : (x == x) = true := by
  have hbody : '.' ∈ (splitSign cs).2 := by
    unfold splitSign
    split
    · simpa using hpoint
    · simpa using hpoint
    · exact hpoint
  unfold readDouble? at hx
  dsimp only at hx
  split at hx
  · cases hx
    exact doubleOfDecimal_beq ..
  · split at hx
    · cases hx
      exact infinity_beq _
    · split at hx
      · rename_i hname
        have hmem : '.' ∈ (String.ofList ((splitSign cs).2.map Char.toLower)).toList := by
          rw [String.toList_ofList]
          exact List.mem_map.mpr ⟨'.', hbody, by decide⟩
        rw [hname] at hmem
        exact absurd hmem (by decide)
      · cases hx

theorem readBigNumber?_beq {text : String} {n : Number} (hn : readBigNumber? text = some n) :
    (n == n) = true := by
  have hread (cs : List Char) (h : (if cs.contains '.' then (readDouble? cs).map Number.double
      else (readBigInt? cs).map .big) = some n) : (n == n) = true := by
    split at h
    · rename_i hpoint
      obtain ⟨x, hx, rfl⟩ := Option.map_eq_some_iff.mp h
      exact readDouble?_beq hx (List.contains_iff_mem.mp hpoint)
    · obtain ⟨m, -, rfl⟩ := Option.map_eq_some_iff.mp h
      exact beq_self_eq_true (α := Int) m
  unfold readBigNumber? at hn
  dsimp only at hn
  split at hn
  · cases hn
  · split at hn
    · cases hn
    · exact hread _ hn

/-- **The number of a literal equals itself.** -/
theorem Literal.number_beq {t : Token} {n : Number}
    (ht : Literal.ofToken t = .atom (.number n)) : (n == n) = true := by
  unfold Literal.ofToken at ht
  split at ht
  · cases ht
  · cases ht
  · unfold Literal.ofWord at ht
    split at ht
    · rename_i literal hl
      rw [ht] at hl
      unfold delimiter? at hl
      split at hl <;> cases hl
    · split at ht
      · cases ht
      · split at ht
        · rename_i hn
          cases ht
          exact readBigNumber?_beq hn
        · split at ht
          · cases ht
          · split at ht <;> cases ht

end ScopeStack
