import ScopeStack.Value

/-!
# Arithmetic

A double on either side makes the result a double. Otherwise two machine words are tried as such;
what does not fit a machine word is calculated without a bound.

* `ArithOp`: the five operations, with their meaning on integers, on machine words and on doubles.
  Integer division rounds towards zero and its remainder has the sign of the dividend.
* `ArithOp.apply`: the operation on values.
* `checkDivisor`: a zero divisor is refused before the kinds are looked at.
-/

namespace ScopeStack

/-- An operation on two numbers. -/
inductive ArithOp where
  | add
  | subtract
  | multiply
  | divide
  | modulo
deriving DecidableEq

namespace ArithOp

/-- The operation on integers. -/
def onInts : ArithOp → Int → Int → Int
  | .add, a, b => a + b
  | .subtract, a, b => a - b
  | .multiply, a, b => a * b
  | .divide, a, b => a.tdiv b
  | .modulo, a, b => a.tmod b

/-- The operation on machine words, if there is a result and it is not past their range. Of the
quotients only that of the least word and minus one is, and the remainder goes with it. -/
def onWords : ArithOp → Int64 → Int64 → Option Int64
  | .add, a, b => if a.toBitVec.saddOverflow b.toBitVec then none else some (a + b)
  | .subtract, a, b => if a.toBitVec.ssubOverflow b.toBitVec then none else some (a - b)
  | .multiply, a, b => if a.toBitVec.smulOverflow b.toBitVec then none else some (a * b)
  | .divide, a, b => if b = 0 ∨ a = Int64.minValue ∧ b = -1 then none else some (a / b)
  | .modulo, a, b => if b = 0 ∨ a = Int64.minValue ∧ b = -1 then none else some (a % b)

/-- The operation on doubles. -/
def onDoubles : ArithOp → Float → Float → Float
  | .add, a, b => a + b
  | .subtract, a, b => a - b
  | .multiply, a, b => a * b
  | .divide, a, b => a / b
  | .modulo, a, b => remainderDouble a b

/-- The operation on two values that are machine words, if that gives one. -/
def byWords? (op : ArithOp) : Value → Value → Option Int64
  | .int a, .int b => op.onWords a b
  | _, _ => none

/-- The operation on two values, the left one first. -/
def apply (op : ArithOp) (a b : Value) : Except Fault Value :=
  if !(a.isNumeric && b.isNumeric) then .error (.mismatch .twoNumbers)
  else if a.isDouble || b.isDouble then do
    return .double (op.onDoubles (← a.asDouble) (← b.asDouble))
  else
    match op.byWords? a b with
    | some n => .ok (.int n)
    | none => do return .ofInt (op.onInts (← a.asInt) (← b.asInt))

end ArithOp

/-- Refuse to divide by zero. -/
def checkDivisor (divisor : Value) : Except Fault Unit :=
  if divisor.isZero then .error .divisionByZero else .ok ()

/-- The sum of two numbers, or the texts one after the other if either value is a string. -/
def addValues (a b : Value) : Except Fault Value :=
  if a.isString || b.isString then .ok (.str (a.text ++ b.text)) else ArithOp.add.apply a b

end ScopeStack
