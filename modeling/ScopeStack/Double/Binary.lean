/-!
# Doubles as whole numbers and powers of two

Everything about doubles that must be exact is done here in whole numbers.

* `DoubleShape`, `shapeOf`: a double taken apart: a finite one is `mantissa · 2 ^ exponent`.
* `nearestDouble`: the double nearest to a quotient of whole numbers; of two that are equally near,
  the one with the even mantissa.
* `doubleOfInt`: the double for a whole number, which is rounded from its leading 64 bits.
* `remainderDouble`: the exact remainder of a division that rounds towards zero.
-/

namespace ScopeStack

/-- A power of two. -/
def twoTo (n : Nat) : Nat := Nat.pow 2 n

/-- The least mantissa of a double that does not go with the least exponent. Its bit is not
stored. -/
def hiddenBit : Nat := 0x10000000000000

/-- The bit of the sign. -/
def signBit : Nat := 0x8000000000000000

/-- A double taken apart. -/
inductive DoubleShape where
  /-- The value `mantissa · 2 ^ exponent`, with a sign that zero has too. -/
  | finite (negative : Bool) (mantissa : Nat) (exponent : Int)
  | infinite (negative : Bool)
  | notANumber
deriving DecidableEq

/-- Take a double apart. -/
def shapeOf (x : Float) : DoubleShape :=
  let bits := x.toBits.toNat
  let negative := bits / signBit == 1
  let biased : Nat := bits / hiddenBit % 2048
  let fraction := bits % hiddenBit
  if biased = 2047 then
    if fraction = 0 then .infinite negative else .notANumber
  else if biased = 0 then .finite negative fraction (-1074)
  else .finite negative (hiddenBit + fraction) ((biased : Int) - 1075)

/-- The double that is not a number. -/
def notANumber : Float := Float.ofBits 0x7ff8000000000000

/-- The infinite double of a sign. -/
def infinity (negative : Bool) : Float :=
  Float.ofBits (if negative then 0xfff0000000000000 else 0x7ff0000000000000)

/-- Put a double together from a mantissa of at most 53 bits. A mantissa below `hiddenBit` goes with
the least exponent; an exponent past the largest gives infinity. -/
def packDouble (negative : Bool) (mantissa : Nat) (exponent : Int) : Float :=
  let (m, e) := if mantissa = 2 * hiddenBit then (hiddenBit, exponent + 1) else (mantissa, exponent)
  let biased := if m < hiddenBit then 0 else (e + 1075).toNat
  if 2047 ≤ biased then infinity negative
  else
    let magnitude := if m < hiddenBit then m else biased * hiddenBit + (m - hiddenBit)
    Float.ofBits (UInt64.ofNat ((if negative then signBit else 0) + magnitude))

/-- The quotient `num / (den · 2 ^ e)` as a fraction of whole numbers. -/
def scaleQuotient (num den : Nat) (e : Int) : Nat × Nat :=
  if 0 ≤ e then (num, den * twoTo e.toNat) else (num * twoTo (-e).toNat, den)

/-- The whole number nearest to a quotient; a half goes to the even neighbour. -/
def roundHalfEven (num den : Nat) : Nat :=
  let q := num / den
  let r := num % den
  if den < 2 * r || (2 * r == den && q % 2 == 1) then q + 1 else q

/-- The double nearest to `num / den`. -/
def nearestDouble (negative : Bool) (num den : Nat) : Float :=
  if num = 0 then packDouble negative 0 (-1074)
  else
    let guess : Int := (num.log2 : Int) - den.log2 - 53
    let (n, d) := scaleQuotient num den guess
    let fitted := if n / d < 2 * hiddenBit then guess else guess + 1
    let e := max fitted (-1074)
    let (n, d) := scaleQuotient num den e
    packDouble negative (roundHalfEven n d) e

/-- The bits of a word. -/
def wordSize : Nat := 64

/-- How many bits a number has; zero has none. -/
def bitCount (n : Nat) : Nat := if n = 0 then 0 else n.log2 + 1

/-- Is something left behind the leading word of a number? Of each word below the top one only as
many low bits are looked at as the top word has. -/
def leavesRest (n : Nat) : Bool :=
  let last := bitCount n - 1
  (List.range (last / wordSize)).any fun i =>
    n / twoTo (wordSize * i) % twoTo (last % wordSize + 1) != 0

/-- The leading word of a number, and how many bits come behind it. The last bit of the word is set
if something is left of these. -/
def leadingWord (n : Nat) : Nat × Nat :=
  let behind := bitCount n - wordSize
  let word := n / twoTo behind
  (if word % 2 = 0 && leavesRest n then word + 1 else word, behind)

/-- The bits from which on a number is past every finite double. -/
def bitRange : Nat := 1024

/-- The double for a whole number, rounded from its leading word. Up to two words that is the
nearest double; beyond, a number that is hardly past the middle between two doubles can count as
the middle itself. Of a number with more bits than any double only the sign is looked at. -/
def doubleOfInt (n : Int) : Float :=
  if bitRange < bitCount n.natAbs then infinity (n < 0)
  else
    let (word, behind) := leadingWord n.natAbs
    nearestDouble (n < 0) (word * twoTo behind) 1

/-- The exact remainder of a division that rounds towards zero. It has the sign of the dividend,
also where it is zero. -/
def remainderDouble (a b : Float) : Float :=
  match shapeOf a, shapeOf b with
  | .finite negative ma ea, .finite _ mb eb =>
    if mb = 0 then notANumber
    else
      let e := min ea eb
      let r := (ma * twoTo (ea - e).toNat) % (mb * twoTo (eb - e).toNat)
      if 0 ≤ e then nearestDouble negative (r * twoTo e.toNat) 1
      else nearestDouble negative r (twoTo (-e).toNat)
  | .finite _ _ _, .infinite _ => a
  | _, _ => notANumber

end ScopeStack
