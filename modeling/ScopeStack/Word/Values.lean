import ScopeStack.Arithmetic
import ScopeStack.Machine.Stack
import ScopeStack.Text.Blank
import ScopeStack.Text.Case
import ScopeStack.Text.Search

/-!
# Words that only work on values

Printing, stack, arithmetic, comparison and string words. Each one is a single action: it pops
what it needs, the top first, and pushes what it leaves. What it has popped before it fails stays
popped.
-/

namespace ScopeStack

open ScopeStack.Action

/-! ## 1. Printing -/

/-- The character of a code, if it is one. -/
def charOfCode? (code : Int) : Option Char :=
  if h : 0 ≤ code ∧ code.toNat.isValidChar then some (Char.ofNatAux code.toNat h.2) else none

/-- Print. -/
def OutputWord.perform (c : Context) : OutputWord → Action Unit
  | .print => do write ((← c.pop).text ++ " ")
  | .printTight => do write (← c.pop).text
  | .printStack => do
    let values ← c.stackValues
    write (String.join (values.map (·.text ++ " ")) ++ "\n")
  | .emit => do
    let code := (← c.popInt).toInt
    let char ← ofOption (.notACharacter code) (charOfCode? code)
    write (String.singleton char)
  | .newline => write "\n"
  | .space => write " "

/-! ## 2. The stack -/

/-- A list with two of its entries swapped, if both are there. -/
def swapEntries? {α : Type} (xs : List α) (i j : Nat) : Option (List α) :=
  match xs[i]?, xs[j]? with
  | some x, some y => some ((xs.set i y).set j x)
  | _, _ => none

/-- Move values about. -/
def StackWord.perform (c : Context) : StackWord → Action Unit
  | .depth => do c.push (.ofNat (← c.stackSize))
  | .swap => do
    let b ← c.pop
    let a ← c.pop
    c.push b
    c.push a
  | .swapAt => do
    let j ← c.popNat
    let i ← c.popNat
    let values ← c.stackValues
    let swapped ← ofOption (.swapOutOfRange i j values.length) (swapEntries? values i j)
    c.setStackValues swapped
  | .dup => do c.push (← c.peek)
  | .over => do
    let b ← c.pop
    let a ← c.pop
    c.push a
    c.push b
    c.push a
  | .rot => do
    let z ← c.pop
    let y ← c.pop
    let x ← c.pop
    c.push y
    c.push z
    c.push x
  | .drop => do let _ ← c.pop
  | .swapPairs => do
    let z ← c.pop
    let y ← c.pop
    let b ← c.pop
    let a ← c.pop
    c.push y
    c.push z
    c.push a
    c.push b
  | .dupPair => do
    let b ← c.pop
    let a ← c.pop
    c.push a
    c.push b
    c.push a
    c.push b
  | .overPair => do
    let z ← c.pop
    let y ← c.pop
    let b ← c.pop
    let a ← c.pop
    c.push a
    c.push b
    c.push y
    c.push z
    c.push a
    c.push b
  | .dropPair => do
    let _ ← c.pop
    let _ ← c.pop
  | .clear => do let _ ← c.drainStack

/-! ## 3. Arithmetic -/

/-- Take two values and push what an operation makes of them. -/
def pushResult (c : Context) (op : Value → Value → Except Fault Value) : Action Unit := do
  let b ← c.pop
  let a ← c.pop
  c.push (← ofExcept (op a b))

/-- An operation that divides by its right operand. -/
def dividing (op : ArithOp) (a b : Value) : Except Fault Value := do
  checkDivisor b
  op.apply a b

/-- Calculate. -/
def ArithWord.perform (c : Context) : ArithWord → Action Unit
  | .add => pushResult c addValues
  | .subtract => pushResult c ArithOp.subtract.apply
  | .multiply => pushResult c ArithOp.multiply.apply
  | .divide => pushResult c (dividing .divide)
  | .modulo => pushResult c (dividing .modulo)
  | .divideModulo => do
    let b ← c.pop
    let a ← c.pop
    let remainder ← ofExcept (dividing .modulo a b)
    let quotient ← ofExcept (dividing .divide a b)
    c.push remainder
    c.push quotient

/-! ## 4. Comparison and logic -/

/-- Take two values and push whether they pass a test. -/
def pushTest (c : Context) (test : Value → Value → Except Fault Bool) : Action Unit :=
  pushResult c fun a b => return .bool (← test a b)

/-- A test of the order of two values. -/
def ordered (accepts : Ordering → Bool) (a b : Value) : Except Fault Bool :=
  return accepts (← Value.compare a b)

/-- Take two booleans and push what an operation makes of them. -/
def pushLogic (c : Context) (op : Bool → Bool → Bool) : Action Unit := do
  let b ← c.popBool
  let a ← c.popBool
  c.push (.bool (op a b))

/-- Compare. -/
def CompareWord.perform (c : Context) : CompareWord → Action Unit
  | .looseEq => pushTest c fun a b => return Value.looseEq a b
  | .identical => pushTest c fun a b => return Value.identical a b
  | .less => pushTest c (ordered (· == .lt))
  | .greater => pushTest c (ordered (· == .gt))
  | .lessOrEqual => pushTest c (ordered (· != .gt))
  | .greaterOrEqual => pushTest c (ordered (· != .lt))
  | .and => pushLogic c (· && ·)
  | .or => pushLogic c (· || ·)
  | .not => do c.push (.bool !(← c.popBool))

/-! ## 5. Strings -/

/-- Take a text and push what a function makes of it. -/
def pushText (c : Context) (f : String → String) : Action Unit := do
  c.push (.str (f (← c.popText)))

/-- The part of a text between two positions. The end is checked before the start. -/
def substring? (text : String) (start stop : Nat) : Except Fault String :=
  let length := text.length
  if length < stop then .error (.characterOutOfRange stop length)
  else if stop < start then .error (.characterOutOfRange start length)
  else .ok (textBetween text start stop)

/-- The code of a character of a text. -/
def charCodeAt (text : String) (index : Nat) : Except Fault Nat :=
  match charAt? text index with
  | some char => .ok char.toNat
  | none => .error (.characterOutOfRange index text.length)

/-- The position of a text in another, or minus one. -/
def positionIn (search text : String) : Int :=
  match firstIn search text with
  | some o => o.index
  | none => -1

/-- Take a text, what to look for and what to put in its place, and push the text that a function
makes of them. -/
def pushReplaced (c : Context) (f : (needle new text : String) → String) : Action Unit := do
  let new ← c.popText
  let needle ← c.popText
  let text ← c.popText
  c.push (.str (f needle new text))

/-- Work on strings. -/
def TextWord.perform (c : Context) : TextWord → Action Unit
  | .length => do c.push (.ofNat (← c.popText).length)
  | .charAt => do
    let index ← c.popNat
    let text ← c.popText
    c.push (.ofNat (← ofExcept (charCodeAt text index)))
  | .eq => do
    let b ← c.popText
    let a ← c.popText
    c.push (.bool (a == b))
  | .eqIgnoringCase => do
    let b ← c.popText
    let a ← c.popText
    c.push (.bool (lowerText a == lowerText b))
  | .lower => pushText c lowerText
  | .upper => pushText c upperText
  | .trim => pushText c trimBlank
  | .substring => do
    let stop ← c.popNat
    let start ← c.popNat
    let text ← c.popText
    c.push (.str (← ofExcept (substring? text start stop)))
  | .replaceFirst => pushReplaced c replaceFirstText
  | .replaceAll => pushReplaced c replaceAllText
  | .find => do
    let search ← c.popText
    let text ← c.popText
    c.push (.ofInt (positionIn search text))

end ScopeStack
