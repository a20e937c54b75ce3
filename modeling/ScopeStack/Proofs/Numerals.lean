import Mathlib.Data.Nat.Digits.Defs
import ScopeStack.Source.Literal

/-!
# Numerals and what they denote

An integer is written with a sign, a mark that tells the radix, and digits. A reader of machine words
knows all three radices. Where a numeral does not fit a word, the reader of big numbers is asked next,
and that one knows the decimal radix only.

* `Digit`, `Numeral`: how an integer is written, and `Numeral.value`, what that denotes.
* `Numeral.readMachineInt?_text`: **the reader of machine words reads a numeral if its integer fits.**
* `readBigNumber?_of_digits`: the reader of big numbers takes digits for decimal ones.
* `Numeral.ofToken_iff`: **a numeral keeps its meaning where it fits a machine word or is decimal.** One
  that is octal and does not fit means another integer, and one that is hexadecimal means a name.
-/

namespace ScopeStack

/-! ## 1. Digits -/

/-- A digit of a radix: `0` to `9`, then letters, large or small. -/
structure Digit (radix : Nat) where
  value : Nat
  char : Char
  lt : value < radix
  spelled : char = value.digitChar ∨ char = value.digitChar.toUpper

namespace Digit

variable {radix base : Nat}

/-- Digits of a smaller radix are digits of a larger one. -/
def widen (h : radix ≤ base) (d : Digit radix) : Digit base :=
  ⟨d.value, d.char, Nat.lt_of_lt_of_le d.lt h, d.spelled⟩

/-- What holds of both ways to spell each value holds of the character of a digit. -/
theorem forall_char {P : Nat → Char → Prop} {base : Nat}
    (h : ∀ n < base, P n n.digitChar ∧ P n n.digitChar.toUpper) (d : Digit radix)
    (hr : radix ≤ base) : P d.value d.char := by
  obtain ⟨hsmall, hlarge⟩ := h d.value (Nat.lt_of_lt_of_le d.lt hr)
  rcases d.spelled with hc | hc
  · rw [hc]
    exact hsmall
  · rw [hc]
    exact hlarge

/-- A digit is read as its value. -/
theorem radixDigit?_char (d : Digit radix) (hr : radix ≤ 16) :
    radixDigit? radix d.char = some d.value := by
  have hread := forall_char (P := fun n c => radixDigit? 16 c = some n) (by decide) d hr
  have hbound (v : Nat) (h : (if v < 16 then some v else none) = some d.value) :
      (if v < radix then some v else none) = some d.value := by
    split at h
    · cases h
      exact if_pos d.lt
    · cases h
  exact hbound _ hread

/-- Signs, marks and separators are no digits. -/
theorem char_ne (d : Digit radix) (hr : radix ≤ 16) {c : Char} (hc : c ∈ ['-', 'x', 'L', '_', '.']) :
    d.char ≠ c := by
  have hno := forall_char (P := fun _ x => x ∉ ['-', 'x', 'L', '_', '.']) (by decide) d hr
  intro h
  exact hno (h ▸ hc)

theorem char_isDigit (d : Digit radix) (hr : radix ≤ 10) : d.char.isDigit = true :=
  forall_char (P := fun _ c => c.isDigit = true) (by decide) d hr

theorem char_eq_zero (d : Digit radix) (hr : radix ≤ 16) (h : d.char = '0') : d.value = 0 :=
  forall_char (P := fun n c => c = '0' → n = 0) (by decide) d hr h

/-- The characters of digits. -/
def spell (ds : List (Digit radix)) : List Char := ds.map (·.char)

theorem not_mem_spell {ds : List (Digit radix)} (hr : radix ≤ 16) {c : Char}
    (hc : c ∈ ['-', 'x', 'L', '_', '.']) : c ∉ spell ds := by
  intro h
  obtain ⟨d, -, hd⟩ := List.mem_map.mp h
  exact d.char_ne hr hc hd

theorem filter_spell (ds : List (Digit 10)) : (spell ds).filter (· != '_') = spell ds := by
  refine List.filter_eq_self.mpr fun c hc => bne_iff_ne.mpr ?_
  intro h
  subst h
  exact not_mem_spell (by decide) (by decide) hc

/-- What digits denote in a radix, the first one being the most significant. -/
def number (base : Nat) (ds : List (Digit radix)) : Nat := Nat.ofDigits base (ds.map (·.value)).reverse

theorem numberOf_values (base : Nat) (ds : List (Digit radix)) :
    numberOf base (ds.map (·.value)) = number base ds := by
  rw [numberOf_eq, number]
  generalize (ds.map (·.value)).reverse = xs
  induction xs with
  | nil => rfl
  | cons x xs ih => rw [positional, ih, Nat.ofDigits_cons]

/-- **Digits are read as the number they denote.** -/
theorem readDigits?_spell {ds : List (Digit radix)} (hr : radix ≤ 16) (hne : ds ≠ []) :
    readDigits? radix (spell ds) = some (number radix ds) := by
  have hread : (spell ds).mapM (radixDigit? radix) = some (ds.map (·.value)) := by
    clear hne
    induction ds with
    | nil => rfl
    | cons d ds ih =>
      show ((d.char :: spell ds).mapM (radixDigit? radix)) = _
      rw [List.mapM_cons, d.radixDigit?_char hr, ih]
      rfl
  rw [readDigits?, if_neg (by simpa [spell] using hne), hread, Option.map_some, numberOf_values]

theorem spell_widen (h : radix ≤ base) (ds : List (Digit radix)) :
    spell (ds.map (widen h)) = spell ds := by
  rw [spell, List.map_map]
  rfl

theorem number_widen (h : radix ≤ base) (ds : List (Digit radix)) :
    number base (ds.map (widen h)) = number base ds := by
  rw [number, List.map_map]
  rfl

/-- The decimal digits of a number, as they are printed. -/
def ofNat (n : Nat) : List (Digit 10) :=
  (digitsOf 10 n).pmap (fun d hd => ⟨d, d.digitChar, hd, Or.inl rfl⟩) (lt_of_mem_digitsOf (by decide))

theorem spell_ofNat (n : Nat) : spell (ofNat n) = (decimalText n).toList := by
  rw [spell, ofNat, List.map_pmap, List.pmap_eq_map, decimalText, String.toList_ofList]

theorem values_ofNat (n : Nat) : (ofNat n).map (·.value) = digitsOf 10 n := by
  rw [ofNat, List.map_pmap, List.pmap_eq_map, List.map_id']

theorem number_ofNat (n : Nat) : number 10 (ofNat n) = n := by
  rw [← numberOf_values, values_ofNat, numberOf_digitsOf]

theorem ofNat_ne_nil (n : Nat) : ofNat n ≠ [] := by
  intro h
  have hzero := number_ofNat n
  rw [h] at hzero
  subst hzero
  cases h

/-- What has more than one octal digit denotes more in the decimal radix. -/
theorem number_eight_lt {ds : List (Digit 8)} (h : 8 ≤ number 8 ds) : number 8 ds < number 10 ds := by
  unfold number at h ⊢
  have hlt : ∀ x ∈ (ds.map (·.value)).reverse, x < 8 := by
    intro x hx
    obtain ⟨d, -, rfl⟩ := List.mem_map.mp (List.mem_reverse.mp hx)
    exact d.lt
  generalize (ds.map (·.value)).reverse = xs at h hlt ⊢
  cases xs with
  | nil => simp at h
  | cons x xs =>
    have hx := hlt x List.mem_cons_self
    have hmono : Nat.ofDigits 8 xs ≤ Nat.ofDigits 10 xs := Nat.ofDigits_monotone xs (by decide)
    rw [Nat.ofDigits_cons] at h ⊢
    rw [Nat.ofDigits_cons]
    omega

end Digit

/-! ## 2. Numerals -/

/-- The radices that an integer can be written in. -/
inductive Radix where
  | hexadecimal
  | octal
  | decimal
deriving DecidableEq

namespace Radix

def base : Radix → Nat
  | .hexadecimal => 16
  | .octal => 8
  | .decimal => 10

/-- What comes in front of the digits. -/
def mark : Radix → List Char
  | .hexadecimal => ['0', 'x']
  | .octal => ['0']
  | .decimal => []

theorem base_le (r : Radix) : r.base ≤ 16 := by
  cases r <;> decide

end Radix

/-- An integer as it is written: perhaps a minus sign, the mark of a radix, and digits. A decimal one
has no zero in front of other digits. -/
structure Numeral where
  negative : Bool
  radix : Radix
  digits : List (Digit radix.base)
  nonempty : digits ≠ []
  lead : radix = .decimal → ∀ d ds, digits = d :: ds → d.value = 0 → ds = []

/-- The minus sign, if there is one. -/
def signChars (negative : Bool) : List Char := if negative then ['-'] else []

/-- The integer with a sign and a size. -/
def signed (negative : Bool) (n : Nat) : Int := if negative then -(n : Int) else n

namespace Numeral

/-- What stands behind the sign. -/
def body (x : Numeral) : List Char := x.radix.mark ++ Digit.spell x.digits

def text (x : Numeral) : String := String.ofList (signChars x.negative ++ x.body)

/-- The integer that the digits denote in a radix. -/
def valueIn (base : Nat) (x : Numeral) : Int := signed x.negative (Digit.number base x.digits)

/-- The integer that is meant. -/
def value (x : Numeral) : Int := x.valueIn x.radix.base

end Numeral

/-! ## 3. Machine words -/

theorem ne_of_isDigit {c d : Char} (hc : c.isDigit = true) (hd : d.isDigit = false) : c ≠ d := by
  intro h
  rw [h, hd] at hc
  cases hc

theorem splitMinus_signed {c : Char} (hc : c ≠ '-') (negative : Bool) (rest : List Char) :
    splitMinus (signChars negative ++ c :: rest) = (negative, c :: rest) := by
  cases negative with
  | true => rfl
  | false =>
    show splitMinus (c :: rest) = _
    unfold splitMinus
    split
    · rename_i h
      cases h
      exact absurd rfl hc
    · rfl

namespace Numeral

/-- The body starts with a decimal digit. -/
theorem body_eq (x : Numeral) : ∃ c rest, x.body = c :: rest ∧ c.isDigit = true := by
  obtain ⟨negative, radix, digits, hne, -⟩ := x
  cases radix with
  | hexadecimal => exact ⟨'0', 'x' :: Digit.spell digits, rfl, rfl⟩
  | octal => exact ⟨'0', Digit.spell digits, rfl, rfl⟩
  | decimal =>
    obtain ⟨d, ds, rfl⟩ := List.exists_cons_of_ne_nil hne
    exact ⟨d.char, Digit.spell ds, rfl, d.char_isDigit (Nat.le_refl _)⟩

/-- The mark tells the radix. -/
theorem splitRadix_body (x : Numeral) : splitRadix x.body = (x.radix.base, Digit.spell x.digits) := by
  obtain ⟨negative, radix, digits, hne, hlead⟩ := x
  obtain ⟨d, ds, rfl⟩ := List.exists_cons_of_ne_nil hne
  cases radix with
  | hexadecimal => rfl
  | octal =>
    show splitRadix ('0' :: d.char :: Digit.spell ds) = (8, d.char :: Digit.spell ds)
    have hx : d.char ≠ 'x' := d.char_ne (by decide) (by decide)
    unfold splitRadix
    split
    · rename_i h
      exact absurd (List.cons.inj (List.cons.inj h).2).1 hx
    · rename_i h
      rw [(List.cons.inj h).2]
    · rename_i h
      exact absurd rfl (h _ _)
  | decimal =>
    show splitRadix (d.char :: Digit.spell ds) = (10, d.char :: Digit.spell ds)
    have hmore {rest : List Char} (h : d.char :: Digit.spell ds = '0' :: rest) : rest = [] := by
      obtain ⟨hd, hrest⟩ := List.cons.inj h
      rw [← hrest, hlead rfl d ds rfl (d.char_eq_zero (by decide) hd)]
      rfl
    unfold splitRadix
    split
    · rename_i h
      cases hmore h
    · rename_i h
      cases hmore h
    · rfl

/-- **The reader of machine words reads a numeral** if its integer fits. -/
theorem readMachineInt?_text (x : Numeral) : readMachineInt? x.text = machineInt? x.value := by
  obtain ⟨c, rest, hbody, hc⟩ := x.body_eq
  unfold readMachineInt?
  rw [text, String.toList_ofList, hbody, splitMinus_signed (ne_of_isDigit hc rfl)]
  dsimp only
  rw [← hbody, splitRadix_body]
  dsimp only
  rw [Digit.readDigits?_spell x.radix.base_le x.nonempty]
  rfl

end Numeral

/-! ## 4. Big numbers -/

theorem readBigInt?_signed {negative : Bool} {c : Char} {rest : List Char} (hc : c.isDigit = true) :
    readBigInt? (signChars negative ++ c :: rest) =
      (readDigits? 10 ((c :: rest).filter (· != '_'))).map fun n => signed negative n := by
  unfold readBigInt?
  rw [splitMinus_signed (ne_of_isDigit hc rfl)]
  dsimp only
  split
  · rename_i h
    cases h
  · rename_i h
    exact absurd (List.cons.inj h).1 (ne_of_isDigit hc rfl)
  · cases readDigits? 10 ((c :: rest).filter (· != '_')) <;> rfl

/-- Decimal digits behind a sign. -/
theorem readBigInt?_spell {negative : Bool} {ds : List (Digit 10)} (hds : ds ≠ []) :
    readBigInt? (signChars negative ++ Digit.spell ds) =
      some (signed negative (Digit.number 10 ds)) := by
  obtain ⟨d, rest, rfl⟩ := List.exists_cons_of_ne_nil hds
  show readBigInt? (signChars negative ++ d.char :: Digit.spell rest) = _
  rw [readBigInt?_signed (d.char_isDigit (Nat.le_refl _))]
  show (readDigits? 10 ((Digit.spell (d :: rest)).filter (· != '_'))).map _ = _
  rw [Digit.filter_spell, Digit.readDigits?_spell (by decide) hds, Option.map_some]

/-- An integer is its sign and its size. -/
theorem signed_natAbs (n : Int) : signed (decide (n < 0)) n.natAbs = n := by
  rw [signed]
  by_cases hn : n < 0
  · rw [if_pos (decide_eq_true hn)]
    omega
  · rw [if_neg (by simpa using hn)]
    omega

/-- An integer is printed as decimal digits behind its sign. -/
theorem toList_integerText (n : Int) : (integerText n).toList =
    signChars (decide (n < 0)) ++ Digit.spell (Digit.ofNat n.natAbs) := by
  rw [Digit.spell_ofNat, integerText, signChars]
  by_cases hn : n < 0
  · rw [if_pos hn, if_pos (decide_eq_true hn), String.toList_append]
    rfl
  · rw [if_neg hn, if_neg (by simpa using hn)]
    rfl

/-- **An integer reads back from its decimal text.** -/
theorem readBigInt?_integerText (n : Int) : readBigInt? (integerText n).toList = some n := by
  rw [toList_integerText, readBigInt?_spell (Digit.ofNat_ne_nil _), Digit.number_ofNat,
    signed_natAbs]

/-- Without a point a big number is an integer. In front of it nothing is left out but the letter that
asks for a big number. -/
theorem readBigNumber?_eq {text : String} {first : Char} {behind : List Char}
    (htext : text.toList = first :: behind) (hL : first ≠ 'L') (hstarts : startsNumber first = true)
    (hpoint : '.' ∉ text.toList) :
    readBigNumber? text = (readBigInt? text.toList).map .big := by
  have hnone : text.toList.contains '.' = false :=
    Bool.eq_false_iff.mpr fun h => hpoint (List.contains_iff_mem.mp h)
  unfold readBigNumber?
  rw [htext]
  dsimp only
  split
  · rename_i h
    split at h
    · rename_i he
      exact absurd (List.cons.inj he).1 hL
    · cases h
  · rename_i h
    rw [h]
    split at h
    · rename_i he
      exact absurd (List.cons.inj he).1 hL
    · cases h
      rw [hstarts, ← htext, hnone]
      rfl

/-- **The reader of big numbers takes all digits for decimal ones**, behind a sign, and looks past
underscores. -/
theorem readBigNumber?_of_digits {text : String} {negative : Bool} {c : Char} {rest : List Char}
    (htext : text.toList = signChars negative ++ c :: rest) (hc : c.isDigit = true)
    (hpoint : '.' ∉ rest) :
    readBigNumber? text = (readDigits? 10 ((c :: rest).filter (· != '_'))).map fun n =>
      .big (signed negative n) := by
  have hnone : '.' ∉ text.toList := by
    rw [htext, List.mem_append, List.mem_cons]
    intro h
    rcases h with h | h | h
    · cases negative with
      | true => exact absurd (List.mem_singleton.mp h) (by decide)
      | false => cases h
    · exact ne_of_isDigit hc rfl h.symm
    · exact hpoint h
  have hstart : ∃ first behind, text.toList = first :: behind ∧ first ≠ 'L' ∧
      startsNumber first = true := by
    rw [htext]
    cases negative with
    | true => exact ⟨'-', c :: rest, rfl, by decide, rfl⟩
    | false => exact ⟨c, rest, rfl, ne_of_isDigit hc rfl, by rw [startsNumber, hc]; rfl⟩
  obtain ⟨first, behind, hfirst, hL, hstarts⟩ := hstart
  rw [readBigNumber?_eq hfirst hL hstarts hnone, htext, readBigInt?_signed hc, Option.map_map]
  rfl

namespace Numeral

/-- The reader of big numbers on an octal or decimal numeral. -/
theorem readBigNumber?_text (x : Numeral) (hx : x.radix ≠ .hexadecimal) :
    readBigNumber? x.text = some (.big (x.valueIn 10)) := by
  obtain ⟨negative, radix, digits, hne, hlead⟩ := x
  -- all of the body are decimal digits, as the mark of an octal numeral is a zero
  obtain ⟨ds, hspell, hnumber, hds⟩ : ∃ ds : List (Digit 10),
      radix.mark ++ Digit.spell digits = Digit.spell ds ∧
      Digit.number 10 ds = Digit.number 10 digits ∧ ds ≠ [] := by
    cases radix with
    | hexadecimal => exact absurd rfl hx
    | octal =>
      refine ⟨⟨0, '0', by decide, Or.inl rfl⟩ :: digits.map (Digit.widen (by decide)), ?_, ?_, by simp⟩
      · show '0' :: Digit.spell digits = '0' :: Digit.spell (digits.map (Digit.widen _))
        rw [Digit.spell_widen]
      · rw [Digit.number, List.map_cons, List.reverse_cons, Nat.ofDigits_append_zero]
        exact Digit.number_widen (by decide) digits
    | decimal => exact ⟨digits, rfl, rfl, hne⟩
  obtain ⟨d, rest, rfl⟩ := List.exists_cons_of_ne_nil hds
  have hpoint : '.' ∉ Digit.spell (d :: rest) := Digit.not_mem_spell (by decide) (by decide)
  have htext : (text ⟨negative, radix, digits, hne, hlead⟩).toList =
      signChars negative ++ d.char :: Digit.spell rest := by
    rw [text, String.toList_ofList, body, hspell]
    rfl
  have hfilter : (d.char :: Digit.spell rest).filter (· != '_') = Digit.spell (d :: rest) :=
    Digit.filter_spell (d :: rest)
  rw [readBigNumber?_of_digits htext (d.char_isDigit (Nat.le_refl _)) fun h =>
    hpoint (List.mem_cons_of_mem _ h), hfilter, Digit.readDigits?_spell (by decide) hds, hnumber]
  rfl

/-- It does not know the hexadecimal mark. -/
theorem readBigNumber?_hexadecimal (x : Numeral) (hx : x.radix = .hexadecimal) :
    readBigNumber? x.text = none := by
  obtain ⟨negative, radix, digits, hne, hlead⟩ := x
  cases hx
  have hpoint : '.' ∉ 'x' :: Digit.spell digits := by
    intro h
    rcases List.mem_cons.mp h with h | h
    · exact absurd h (by decide)
    · exact Digit.not_mem_spell (by decide) (by decide) h
  have htext : (text ⟨negative, .hexadecimal, digits, hne, hlead⟩).toList =
      signChars negative ++ '0' :: 'x' :: Digit.spell digits := by
    rw [text, String.toList_ofList]
    rfl
  rw [readBigNumber?_of_digits htext rfl hpoint]
  rfl

end Numeral

/-! ## 5. Tokens -/

/-- The meaning of an integer: a machine word where it fits, else a big number. -/
def Literal.ofInteger (n : Int) : Literal :=
  match machineInt? n with
  | some w => .atom (.int w)
  | none => .atom (.number (.big n))

namespace Numeral

/-- A numeral starts with a digit or a minus sign. -/
theorem text_ne (x : Numeral) {name : String} {c : Char} {rest : List Char}
    (hname : name.toList = c :: rest) (hc : c ≠ '-') (hdigit : c.isDigit = false) : x.text ≠ name := by
  intro h
  subst h
  obtain ⟨d, behind, hbody, hd⟩ := x.body_eq
  rw [text, String.toList_ofList, hbody] at hname
  cases hnegative : x.negative with
  | true =>
    rw [hnegative] at hname
    exact hc (List.cons.inj hname).1.symm
  | false =>
    rw [hnegative] at hname
    rw [← (List.cons.inj hname).1, hd] at hdigit
    cases hdigit

theorem delimiter?_text (x : Numeral) : delimiter? x.text = none := by
  unfold delimiter?
  split
  · rename_i h
    exact absurd h (x.text_ne (show "[".toList = ['['] from rfl) (by decide) rfl)
  · rename_i h
    exact absurd h (x.text_ne (show "]".toList = [']'] from rfl) (by decide) rfl)
  · rename_i h
    exact absurd h (x.text_ne (show "\x7b".toList = ['\x7b'] from rfl) (by decide) rfl)
  · rename_i h
    exact absurd h (x.text_ne (show "\x7d".toList = ['\x7d'] from rfl) (by decide) rfl)
  · rfl

/-- **What a numeral means.** -/
theorem ofWord_text (x : Numeral) : Literal.ofWord x.text =
    match machineInt? x.value with
    | some n => .atom (.int n)
    | none => if x.radix = .hexadecimal then .atom (.word x.text)
      else .atom (.number (.big (x.valueIn 10))) := by
  rw [Literal.ofWord, delimiter?_text, readMachineInt?_text]
  dsimp only
  cases machineInt? x.value with
  | some n => rfl
  | none =>
    by_cases hx : x.radix = .hexadecimal
    · rw [x.readBigNumber?_hexadecimal hx, if_pos hx]
      dsimp only
      rw [if_neg (x.text_ne (show "true".toList = ['t', 'r', 'u', 'e'] from rfl) (by decide) rfl),
        if_neg (x.text_ne (show "false".toList = ['f', 'a', 'l', 's', 'e'] from rfl) (by decide) rfl)]
    · rw [x.readBigNumber?_text hx, if_neg hx]

/-- An octal numeral beyond machine words denotes another integer in the decimal radix. -/
theorem valueIn_ten_ne (x : Numeral) (hx : x.radix = .octal)
    (hout : ¬ (minMachineInt ≤ x.value ∧ x.value ≤ maxMachineInt)) : x.valueIn 10 ≠ x.value := by
  obtain ⟨negative, radix, digits, hne, hlead⟩ := x
  cases hx
  have hlt : 8 ≤ Digit.number 8 digits → Digit.number 8 digits < Digit.number 10 digits :=
    Digit.number_eight_lt
  show signed negative (Digit.number 10 digits) ≠ signed negative (Digit.number 8 digits)
  change ¬ (minMachineInt ≤ signed negative (Digit.number 8 digits) ∧
    signed negative (Digit.number 8 digits) ≤ maxMachineInt) at hout
  unfold signed minMachineInt maxMachineInt at *
  split at hout <;> omega

/-- A numeral that fits a machine word keeps its meaning. -/
theorem ofWord_fitting (x : Numeral) (hin : minMachineInt ≤ x.value ∧ x.value ≤ maxMachineInt) :
    Literal.ofWord x.text = .ofInteger x.value := by
  obtain ⟨n, hn⟩ := Option.isSome_iff_exists.mp ((machineInt?_isSome x.value).mpr hin)
  rw [ofWord_text, Literal.ofInteger, hn]

section Beyond

variable (x : Numeral) (hout : ¬ (minMachineInt ≤ x.value ∧ x.value ≤ maxMachineInt))
include hout

theorem machineInt?_value : machineInt? x.value = none :=
  Option.not_isSome_iff_eq_none.mp fun h => hout ((machineInt?_isSome x.value).mp h)

theorem ofInteger_value : Literal.ofInteger x.value = .atom (.number (.big x.value)) := by
  rw [Literal.ofInteger, x.machineInt?_value hout]

/-- Beyond machine words an octal or decimal numeral is read in the decimal radix. -/
theorem ofWord_beyond (hx : x.radix ≠ .hexadecimal) :
    Literal.ofWord x.text = .atom (.number (.big (x.valueIn 10))) := by
  rw [ofWord_text, x.machineInt?_value hout]
  exact if_neg hx

/-- There a hexadecimal numeral is taken for a name. -/
theorem ofWord_hexadecimal (hx : x.radix = .hexadecimal) :
    Literal.ofWord x.text = .atom (.word x.text) := by
  rw [ofWord_text, x.machineInt?_value hout]
  exact if_pos hx

/-- **Beyond machine words a numeral keeps its meaning just if it is decimal.** -/
theorem ofWord_beyond_iff : Literal.ofWord x.text = .ofInteger x.value ↔ x.radix = .decimal := by
  rw [x.ofInteger_value hout]
  cases hx : x.radix with
  | hexadecimal =>
    rw [x.ofWord_hexadecimal hout hx]
    simp
  | octal =>
    rw [x.ofWord_beyond hout (by rw [hx]; decide)]
    simpa using x.valueIn_ten_ne hx hout
  | decimal =>
    have hsame : x.valueIn 10 = x.value := by
      rw [value, hx]
      rfl
    rw [x.ofWord_beyond hout (by rw [hx]; decide), hsame]
    simp

end Beyond

/-- **A numeral keeps its meaning just if its integer fits a machine word or it is decimal.** Beyond
machine words an octal numeral means what its digits denote in the decimal radix, which is another
integer, and a hexadecimal one is taken for a name. -/
theorem ofToken_iff (x : Numeral) {t : Token} (ht : t.style = .word) (htext : t.text = x.text) :
    (Literal.ofToken t = .ofInteger x.value ↔
      (minMachineInt ≤ x.value ∧ x.value ≤ maxMachineInt) ∨ x.radix = .decimal) ∧
    (¬ (minMachineInt ≤ x.value ∧ x.value ≤ maxMachineInt) →
      (x.radix = .octal → Literal.ofToken t = .atom (.number (.big (x.valueIn 10))) ∧
        x.valueIn 10 ≠ x.value) ∧
      (x.radix = .hexadecimal → Literal.ofToken t = .atom (.word x.text))) := by
  have hmeans : Literal.ofToken t = Literal.ofWord x.text := by
    rw [Literal.ofToken, ht, htext]
  rw [hmeans]
  refine ⟨?_, fun hout => ⟨fun hx => ?_, x.ofWord_hexadecimal hout⟩⟩
  · by_cases hin : minMachineInt ≤ x.value ∧ x.value ≤ maxMachineInt
    · exact ⟨fun _ => Or.inl hin, fun _ => x.ofWord_fitting hin⟩
    · rw [x.ofWord_beyond_iff hin]
      exact ⟨Or.inr, fun h => h.resolve_left hin⟩
  · exact ⟨x.ofWord_beyond hout (by rw [hx]; decide), x.valueIn_ten_ne hx hout⟩

/-- The octal numeral of two to the power of 63, the first integer beyond machine words. -/
def octalOverflow : Numeral where
  negative := false
  radix := .octal
  digits := ⟨1, '1', by decide, Or.inl rfl⟩ :: List.replicate 21 ⟨0, '0', by decide, Or.inl rfl⟩
  nonempty := by simp
  lead := nofun

/-- It means ten to the power of 21. -/
theorem ofToken_iff_octal : Token.style ⟨.start "", .word, "01000000000000000000000"⟩ = .word ∧
    "01000000000000000000000" = octalOverflow.text ∧ octalOverflow.value = 2 ^ 63 ∧
    Literal.ofToken ⟨.start "", .word, "01000000000000000000000"⟩ =
      .atom (.number (.big (10 ^ 21))) := by
  have htext : "01000000000000000000000" = octalOverflow.text := by decide +kernel
  have hvalue : octalOverflow.value = 2 ^ 63 := by decide +kernel
  have hten : octalOverflow.valueIn 10 = 10 ^ 21 := by decide +kernel
  obtain ⟨-, hout⟩ := octalOverflow.ofToken_iff
    (t := ⟨.start "", .word, "01000000000000000000000"⟩) rfl htext
  rw [hvalue] at hout
  obtain ⟨hmeans, -⟩ := (hout (by decide)).1 rfl
  rw [hten] at hmeans
  exact ⟨rfl, htext, hvalue, hmeans⟩

/-- So not all numerals keep their meaning. -/
theorem not_ofToken_ofInteger : ¬ ∀ (x : Numeral) (t : Token), t.style = .word → t.text = x.text →
    Literal.ofToken t = .ofInteger x.value := by
  intro h
  have hout : ¬ (minMachineInt ≤ octalOverflow.value ∧ octalOverflow.value ≤ maxMachineInt) := by
    decide +kernel
  have hmeans := h octalOverflow ⟨.start "", .word, octalOverflow.text⟩ rfl rfl
  cases (octalOverflow.ofWord_beyond_iff hout).mp hmeans

end Numeral

end ScopeStack
