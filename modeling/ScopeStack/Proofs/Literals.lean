import ScopeStack.Proofs.Numerals
import ScopeStack.Value

/-!
# Literals of integers

`ScopeStack.Proofs.Numerals` reads numerals. Here nothing else is read: what the reader of machine
words accepts is a numeral. Then integers are printed as numerals, so they are literals of themselves.

* `readDigits?_eq_some_iff`: digits are all that is read as digits.
* `readMachineInt?_accepts`: **the reader of machine words accepts the numerals whose integer fits, and
  nothing else.**
* `Numeral.ofInt`: the numeral that an integer is printed as.
* `Literal.ofToken_text_ofInt`: **an integer is printed as a literal that reads back**, in the form it
  had.
-/

namespace ScopeStack

/-! ## 1. What is read as digits -/

namespace Digit

variable {radix : Nat}

/-- A digit is one of the first characters. -/
theorem toNat_lt_of_radixDigit? {c : Char} {v : Nat} (h : radixDigit? 16 c = some v) :
    c.toNat < 128 := by
  by_contra hlarge
  have hnot {d : Char} (hd : d.toNat < 128) : ¬ c ≤ d := by
    intro hle
    have : c.toNat ≤ d.toNat := hle
    omega
  have hnine := hnot (d := '9') (by decide)
  have hsmall := hnot (d := 'f') (by decide)
  have hupper := hnot (d := 'F') (by decide)
  simp [radixDigit?, hnine, hsmall, hupper] at h

/-- A character that is read as a digit spells it. -/
theorem spelled_of_radixDigit? (hr : radix ≤ 16) {c : Char} {v : Nat}
    (h : radixDigit? radix c = some v) : v < radix ∧ (c = v.digitChar ∨ c = v.digitChar.toUpper) := by
  have hbound (n : Nat) (hn : (if n < radix then some n else none) = some v) :
      v < radix ∧ (if n < 16 then some n else none) = some v := by
    split at hn
    · rename_i hlt
      cases hn
      exact ⟨hlt, if_pos (Nat.lt_of_lt_of_le hlt hr)⟩
    · cases hn
  have hall : ∀ k < 128, (radixDigit? 16 (Char.ofNat k)).all (fun n =>
      decide (Char.ofNat k = n.digitChar ∨ Char.ofNat k = n.digitChar.toUpper)) = true := by
    decide +kernel
  obtain ⟨hlt, hhex⟩ := hbound _ h
  have hhex : radixDigit? 16 c = some v := hhex
  have hc := hall c.toNat (toNat_lt_of_radixDigit? hhex)
  rw [Char.ofNat_toNat, hhex] at hc
  exact ⟨hlt, of_decide_eq_true hc⟩

/-- Characters that are read one by one are those of digits. -/
theorem spell_of_mapM (hr : radix ≤ 16) {cs : List Char} {vs : List Nat}
    (h : cs.mapM (radixDigit? radix) = some vs) :
    ∃ ds : List (Digit radix), cs = spell ds ∧ vs = ds.map (·.value) := by
  induction cs generalizing vs with
  | nil =>
    cases h
    exact ⟨[], rfl, rfl⟩
  | cons c cs ih =>
    rw [List.mapM_cons] at h
    obtain ⟨v, hv, h⟩ := Option.bind_eq_some_iff.mp h
    obtain ⟨rest, hrest, h⟩ := Option.bind_eq_some_iff.mp h
    cases h
    obtain ⟨hlt, hspelled⟩ := spelled_of_radixDigit? hr hv
    obtain ⟨ds, rfl, rfl⟩ := ih hrest
    exact ⟨⟨v, c, hlt, hspelled⟩ :: ds, rfl, rfl⟩

end Digit

/-- **Digits are all that is read as digits**, and there must be one. -/
theorem readDigits?_eq_some_iff {radix : Nat} (hr : radix ≤ 16) {cs : List Char} {n : Nat} :
    readDigits? radix cs = some n ↔
      ∃ ds : List (Digit radix), ds ≠ [] ∧ cs = Digit.spell ds ∧ Digit.number radix ds = n := by
  constructor
  · intro h
    unfold readDigits? at h
    split at h
    · cases h
    · rename_i hne
      obtain ⟨vs, hvs, hn⟩ := Option.map_eq_some_iff.mp h
      obtain ⟨ds, rfl, rfl⟩ := Digit.spell_of_mapM hr hvs
      refine ⟨ds, ?_, rfl, by rw [← Digit.numberOf_values, hn]⟩
      intro hnil
      subst hnil
      exact hne rfl
  · intro ⟨ds, hne, hcs, hn⟩
    rw [hcs, Digit.readDigits?_spell hr hne, hn]

/-! ## 2. What is read as a machine word -/

/-- What the sign is taken off from. -/
theorem splitMinus_append (cs : List Char) :
    cs = signChars (splitMinus cs).1 ++ (splitMinus cs).2 := by
  unfold splitMinus
  split <;> rfl

/-- What the mark is taken off from. Behind no mark a zero stands alone. -/
theorem splitRadix_append (cs : List Char) : ∃ r : Radix,
    (splitRadix cs).1 = r.base ∧ cs = r.mark ++ (splitRadix cs).2 ∧
      (r = .decimal → ∀ rest, (splitRadix cs).2 = '0' :: rest → rest = []) := by
  unfold splitRadix
  split
  · exact ⟨.hexadecimal, rfl, rfl, nofun⟩
  · exact ⟨.octal, rfl, rfl, nofun⟩
  · rename_i hoctal
    refine ⟨.decimal, rfl, rfl, fun _ rest hrest => ?_⟩
    cases rest with
    | nil => rfl
    | cons d rest => exact absurd hrest (hoctal d rest)

/-- A machine word has the integer it is made for, which fits. -/
theorem machineInt?_eq_some_iff {n : Int} {w : Int64} :
    machineInt? n = some w ↔ minMachineInt ≤ n ∧ n ≤ maxMachineInt ∧ w.toInt = n := by
  constructor
  · intro h
    obtain ⟨hmin, hmax⟩ := (machineInt?_isSome n).mp (by rw [h]; rfl)
    exact ⟨hmin, hmax, machineInt?_eq_some h⟩
  · intro ⟨_, _, hw⟩
    rw [← hw, machineInt?_toInt]

namespace Numeral

/-- What is read as a machine word is a numeral. -/
theorem exists_of_readMachineInt? {text : String} {w : Int64} (h : readMachineInt? text = some w) :
    ∃ x : Numeral, text = x.text ∧ machineInt? x.value = some w := by
  have hsign := splitMinus_append text.toList
  obtain ⟨r, hbase, hmark, hlead⟩ := splitRadix_append (splitMinus text.toList).2
  have h : (readDigits? (splitRadix (splitMinus text.toList).2).1
      (splitRadix (splitMinus text.toList).2).2).bind
        (fun n => machineInt? (signed (splitMinus text.toList).1 n)) = some w := h
  obtain ⟨n, hn, hw⟩ := Option.bind_eq_some_iff.mp h
  rw [hbase] at hn
  obtain ⟨ds, hne, hspell, rfl⟩ := (readDigits?_eq_some_iff r.base_le).mp hn
  rw [hspell] at hmark hlead
  refine ⟨⟨(splitMinus text.toList).1, r, ds, hne, ?_⟩, ?_, hw⟩
  · intro hr d rest hds hd
    subst hds
    have hzero : d.char = '0' := by
      rcases d.spelled with hc | hc
      · rw [hc, hd]
        rfl
      · rw [hc, hd]
        rfl
    exact List.map_eq_nil_iff.mp (hlead hr (Digit.spell rest) (by rw [← hzero]; rfl))
  · rw [Numeral.text, body, ← hmark, ← hsign, String.ofList_toList]

end Numeral

/-- **The reader of machine words accepts the numerals whose integer fits, and reads them as that
integer.** It refuses every other text. -/
theorem readMachineInt?_accepts (text : String) :
    (∀ n : Int64, readMachineInt? text = some n ↔
      ∃ x : Numeral, text = x.text ∧ minMachineInt ≤ x.value ∧ x.value ≤ maxMachineInt ∧
        n.toInt = x.value) ∧
    (readMachineInt? text = none ↔
      ¬ ∃ x : Numeral, text = x.text ∧ minMachineInt ≤ x.value ∧ x.value ≤ maxMachineInt) := by
  have hsome (n : Int64) : readMachineInt? text = some n ↔
      ∃ x : Numeral, text = x.text ∧ minMachineInt ≤ x.value ∧ x.value ≤ maxMachineInt ∧
        n.toInt = x.value := by
    constructor
    · intro h
      obtain ⟨x, htext, hx⟩ := Numeral.exists_of_readMachineInt? h
      exact ⟨x, htext, machineInt?_eq_some_iff.mp hx⟩
    · intro ⟨x, htext, hx⟩
      rw [htext, x.readMachineInt?_text]
      exact machineInt?_eq_some_iff.mpr hx
  refine ⟨hsome, ?_, ?_⟩
  · intro hnone ⟨x, htext, hfits⟩
    rw [htext, x.readMachineInt?_text] at hnone
    have hisSome := (machineInt?_isSome x.value).mpr hfits
    rw [hnone] at hisSome
    cases hisSome
  · intro hno
    refine Option.eq_none_iff_forall_ne_some.mpr fun n hn => ?_
    obtain ⟨x, htext, hmin, hmax, -⟩ := (hsome n).mp hn
    exact hno ⟨x, htext, hmin, hmax⟩

/-- Two signs, no digits, a large mark, a separator, a digit beyond the radix, and a number beyond
machine words. -/
example : ["--1", "-", "0x", "0X1", "1_0", "08", "9223372036854775808"].map readMachineInt? =
    List.replicate 7 none := by decide +kernel

/-! ## 3. What integers are printed as -/

namespace Numeral

/-- The numeral that an integer is printed as. -/
def ofInt (n : Int) : Numeral where
  negative := decide (n < 0)
  radix := .decimal
  digits := Digit.ofNat n.natAbs
  nonempty := Digit.ofNat_ne_nil n.natAbs
  lead _ d ds hds hd := by
    by_cases hn : n.natAbs = 0
    · rw [hn] at hds
      exact (List.cons.inj hds).2.symm
    · obtain ⟨e, he, hhead⟩ : ∃ d, d ≠ 0 ∧ (digitsOf 10 n.natAbs).head? = some d := head?_digitsOf hn
      rw [← Digit.values_ofNat, hds] at hhead
      exact absurd (Option.some.inj hhead ▸ hd) he

theorem value_ofInt (n : Int) : (ofInt n).value = n := by
  show signed (decide (n < 0)) (Digit.number 10 (Digit.ofNat n.natAbs)) = n
  rw [Digit.number_ofNat, signed_natAbs]

theorem text_ofInt (n : Int) : (ofInt n).text = integerText n := by
  show String.ofList (signChars (decide (n < 0)) ++ Digit.spell (Digit.ofNat n.natAbs)) = _
  rw [← toList_integerText, String.ofList_toList]

/-- It means the integer, as it is decimal. -/
theorem ofWord_ofInt (n : Int) : Literal.ofWord (ofInt n).text = .ofInteger n := by
  have hvalue := value_ofInt n
  by_cases hin : minMachineInt ≤ (ofInt n).value ∧ (ofInt n).value ≤ maxMachineInt
  · rw [(ofInt n).ofWord_fitting hin, hvalue]
  · rw [((ofInt n).ofWord_beyond_iff hin).mpr rfl, hvalue]

end Numeral

/-- An integer is printed in decimal, whichever form its value has. -/
theorem Value.text_ofInt (n : Int) : (Value.ofInt n).text = integerText n := by
  unfold Value.ofInt
  split
  · rename_i w hw
    rw [Value.text, machineInt?_eq_some hw]
  · rfl

/-- **An integer is printed as a literal that reads back**, as a machine word where it is one and as a
big number where it is one. -/
theorem Literal.ofToken_text_ofInt (l : Location) (n : Int) :
    (minMachineInt ≤ n ∧ n ≤ maxMachineInt ∧ ∃ w : Int64, w.toInt = n ∧ Value.ofInt n = .int w ∧
      Literal.ofToken ⟨l, .word, (Value.ofInt n).text⟩ = .atom (.int w)) ∨
    ((n < minMachineInt ∨ maxMachineInt < n) ∧ Value.ofInt n = .big n ∧
      Literal.ofToken ⟨l, .word, (Value.ofInt n).text⟩ = .atom (.number (.big n))) := by
  have hmeans : Literal.ofToken ⟨l, .word, (Value.ofInt n).text⟩ = .ofInteger n := by
    rw [Literal.ofToken, Value.text_ofInt, ← Numeral.text_ofInt]
    exact Numeral.ofWord_ofInt n
  rw [hmeans]
  unfold Value.ofInt Literal.ofInteger
  cases hw : machineInt? n with
  | some w =>
    obtain ⟨hmin, hmax, hint⟩ := machineInt?_eq_some_iff.mp hw
    exact Or.inl ⟨hmin, hmax, w, hint, rfl, rfl⟩
  | none =>
    have hout : ¬ (minMachineInt ≤ n ∧ n ≤ maxMachineInt) := by
      rw [← machineInt?_isSome, hw]
      decide
    exact Or.inr ⟨by omega, rfl, rfl⟩

end ScopeStack
