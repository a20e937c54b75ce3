import ScopeStack.Digits
import ScopeStack.Double.Binary

/-!
# Doubles in decimal

Writing: a double without a fraction is written out exactly and ends in `.0`; any other one with
the fewest places that read back as the same double, never with an exponent. Of two such decimals
the nearer is written, and the upper one if both are equally near.

Reading: an optional sign, digits with at most one point among them, and an optional exponent; or
one of the names of infinity and of what is not a number, in any case. The nearest double is taken.
The digits of an exponent count until it is large; those that follow are passed over.

* `fewestPlaces`, `doubleText`: writing. The places are counted from where a decimal can first read
  back (`onGrid_of_le_tooFewPlaces`).
* `decimalOf?`, `doubleOfDecimal`, `readDouble?`: reading.
-/

namespace ScopeStack

/-- A power of ten. -/
def tenTo (n : Nat) : Nat := Nat.pow 10 n

/-! ## 1. Writing -/

/-- The reals that read back as one double, as whole multiples of `1 / den`: the value itself and
the ends of the interval, which belong to it or not. -/
structure Neighbourhood where
  low : Nat
  value : Nat
  high : Nat
  den : Nat
  closed : Bool

/-- The neighbourhood of `mantissa · 2 ^ exponent` for a negative exponent. Below a power of two
the doubles lie twice as dense. -/
def neighbourhoodOf (mantissa : Nat) (exponent : Int) : Neighbourhood where
  low := 4 * mantissa - if mantissa = hiddenBit ∧ -1074 < exponent then 1 else 2
  value := 4 * mantissa
  high := 4 * mantissa + 2
  den := twoTo (2 - exponent).toNat
  closed := mantissa % 2 == 0

/-- Does `digits / grid` lie in the neighbourhood? -/
def Neighbourhood.holds (n : Neighbourhood) (grid digits : Nat) : Bool :=
  if n.closed then n.low * grid ≤ digits * n.den && digits * n.den ≤ n.high * grid
  else n.low * grid < digits * n.den && digits * n.den < n.high * grid

/-- The neighbour of the value on a decimal grid that reads back as it, if there is one. -/
def Neighbourhood.onGrid (n : Neighbourhood) (grid : Nat) : Option Nat :=
  let below := n.value * grid / n.den
  let upper := n.den ≤ 2 * (n.value * grid % n.den)
  match n.holds grid below, n.holds grid (below + 1) with
  | true, true => some (if upper then below + 1 else below)
  | true, false => some below
  | false, true => some (below + 1)
  | false, false => none

/-- The first grid of `10 ^ places`, `10 ^ (places + 1)`, … that has such a neighbour: its digits
and its number of places. -/
def fewestPlaces (n : Neighbourhood) : (fuel places : Nat) → Nat × Nat
  | 0, places => (n.value * tenTo places / n.den, places)
  | fuel + 1, places =>
    match n.onGrid (tenTo places) with
    | some digits => (digits, places)
    | none => fewestPlaces n fuel (places + 1)

/-- A number of places with which even `1 / 10 ^ places` lies above the neighbourhood: three for
each ten bits by which the denominator is longer. -/
def tooFewPlaces (n : Neighbourhood) : Nat := 3 * (n.den.log2 - (n.high.log2 + 1)) / 10

/-- Ten to the power of three tenths of a number is no more than two to the power of it. -/
theorem tenTo_le_twoTo {p k : Nat} (h : 10 * p ≤ 3 * k) : tenTo p ≤ twoTo k := by
  have h10 : (10 ^ p) ^ 10 ≤ (2 ^ k) ^ 10 := by
    calc (10 ^ p) ^ 10 = 10 ^ (10 * p) := by rw [← Nat.pow_mul, Nat.mul_comm]
      _ ≤ 10 ^ (3 * k) := Nat.pow_le_pow_right (by omega) h
      _ = 1000 ^ k := by rw [Nat.pow_mul]
      _ ≤ 1024 ^ k := Nat.pow_le_pow_left (by omega) k
      _ = (2 ^ k) ^ 10 := by rw [← Nat.pow_mul, Nat.mul_comm, Nat.pow_mul]
  exact (Nat.pow_le_pow_iff_left (by omega)).mp h10

/-- With so few places, or fewer, no decimal reads back. -/
theorem onGrid_of_le_tooFewPlaces {n : Neighbourhood} {places : Nat} (hlow : 0 < n.low)
    (hvalue : n.value ≤ n.high) (h : 0 < tooFewPlaces n) (hp : places ≤ tooFewPlaces n) :
    n.onGrid (tenTo places) = none := by
  have hk : 10 * places ≤ 3 * (n.den.log2 - (n.high.log2 + 1)) := by
    unfold tooFewPlaces at *
    omega
  have hgap : n.high.log2 + 1 ≤ n.den.log2 := by
    unfold tooFewPlaces at h
    omega
  have hden : n.den ≠ 0 := by
    intro h0
    rw [h0] at hgap
    simp at hgap
  have hpos : 0 < tenTo places := Nat.pow_pos (by omega)
  have hlt : n.high * tenTo places < n.den := by
    calc n.high * tenTo places ≤ n.high * twoTo (n.den.log2 - (n.high.log2 + 1)) :=
          Nat.mul_le_mul_left _ (tenTo_le_twoTo hk)
      _ < 2 ^ (n.high.log2 + 1) * 2 ^ (n.den.log2 - (n.high.log2 + 1)) :=
          Nat.mul_lt_mul_of_pos_right Nat.lt_log2_self (Nat.pow_pos (by omega))
      _ = 2 ^ n.den.log2 := by rw [← Nat.pow_add, Nat.add_sub_cancel' hgap]
      _ ≤ n.den := Nat.log2_self_le hden
  have hbelow : n.value * tenTo places / n.den = 0 :=
    Nat.div_eq_of_lt (Nat.lt_of_le_of_lt (Nat.mul_le_mul_right _ hvalue) hlt)
  have hl : 0 < n.low * tenTo places := Nat.mul_pos hlow hpos
  have h0 : n.holds (tenTo places) 0 = false := by
    unfold Neighbourhood.holds
    split
    all_goals
      simp only [Bool.and_eq_false_iff, decide_eq_false_iff_not]
      omega
  have h1 : n.holds (tenTo places) 1 = false := by
    unfold Neighbourhood.holds
    split
    all_goals
      simp only [Bool.and_eq_false_iff, decide_eq_false_iff_not]
      omega
  simp [Neighbourhood.onGrid, hbelow, h0, h1]

/-- The number `digits / 10 ^ places` in positional notation, for at least one place. -/
def positionalText (digits places : Nat) : String :=
  let ds := (Nat.toDigits 10 digits)
  let padded := List.replicate (places + 1 - ds.length) '0' ++ ds
  let whole := padded.take (padded.length - places)
  let fraction := padded.drop (padded.length - places)
  String.ofList (whole ++ '.' :: fraction)

/-- A finite magnitude in decimal. A double is a multiple of `2 ^ -1074`, so it has at most 1074
places. -/
def magnitudeText (mantissa : Nat) (exponent : Int) : String :=
  if 0 ≤ exponent then s!"{mantissa * twoTo exponent.toNat}.0"
  else
    let unit := twoTo (-exponent).toNat
    if mantissa % unit = 0 then s!"{mantissa / unit}.0"
    else
      let n := neighbourhoodOf mantissa exponent
      let (digits, places) := fewestPlaces n 1074 (tooFewPlaces n + 1)
      positionalText digits places

/-- A double in decimal. -/
def doubleText (x : Float) : String :=
  match shapeOf x with
  | .notANumber => "NaN"
  | .infinite negative => if negative then "-inf" else "inf"
  | .finite negative mantissa exponent =>
    (if negative then "-" else "") ++ magnitudeText mantissa exponent

/-! ## 2. Reading -/

/-- The value of a decimal digit. -/
def digitValue (c : Char) : Nat := c.toNat - '0'.toNat

/-- The double nearest to the number that digits denote, times `10 ^ exponent`. Magnitudes far out
of range are settled first, so that no large power is computed for them. -/
def doubleOfDecimal (negative : Bool) (digits : List Nat) (exponent : Int) : Float :=
  let significant := digits.dropWhile (· == 0)
  let size : Int := significant.length + exponent
  if significant.isEmpty || size < -330 then packDouble negative 0 (-1074)
  else if 310 < size then infinity negative
  else
    let number := numberOf 10 significant
    if 0 ≤ exponent then nearestDouble negative (number * tenTo exponent.toNat) 1
    else nearestDouble negative number (tenTo (-exponent).toNat)

/-- Take a sign off the front; the flag says whether it was a minus. -/
def splitSign : List Char → Bool × List Char
  | '-' :: rest => (true, rest)
  | '+' :: rest => (false, rest)
  | cs => (false, cs)

/-- An exponent this large is not read any further. -/
def largeExponent : Nat := 0x10000

/-- The number that the digits of an exponent denote, up to the one that makes it large. -/
def exponentOfDigits (ds : List Char) : Nat :=
  ds.foldl (fun n c => if n < largeExponent then 10 * n + digitValue c else n) 0

/-- The exponent that ends a decimal: nothing, or `e` and digits with an optional sign. -/
def exponentOf? : List Char → Option Int
  | [] => some 0
  | c :: rest =>
    if c = 'e' || c = 'E' then
      let (negative, ds) := splitSign rest
      if ds.isEmpty || !ds.all Char.isDigit then none
      else some (if negative then -(exponentOfDigits ds : Int) else exponentOfDigits ds)
    else none

/-- A decimal without its sign as digits and a power of ten. -/
def decimalOf? (cs : List Char) : Option (List Nat × Int) :=
  let whole := cs.takeWhile Char.isDigit
  let rest := cs.dropWhile Char.isDigit
  let (fraction, tail) :=
    match rest with
    | '.' :: more => (more.takeWhile Char.isDigit, more.dropWhile Char.isDigit)
    | _ => ([], rest)
  if whole.isEmpty && fraction.isEmpty then none
  else
    (exponentOf? tail).map fun e => ((whole ++ fraction).map digitValue, e - fraction.length)

/-- The double a text denotes. -/
def readDouble? (cs : List Char) : Option Float :=
  let (negative, body) := splitSign cs
  match decimalOf? body with
  | some (digits, exponent) => some (doubleOfDecimal negative digits exponent)
  | none =>
    let name := String.ofList (body.map Char.toLower)
    if name = "inf" || name = "infinity" then some (infinity negative)
    else if name = "nan" then some notANumber
    else none

end ScopeStack
