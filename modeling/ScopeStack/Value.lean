import ScopeStack.Failure
import ScopeStack.Number

/-!
# Values

What operations work with. A cell only holds a handle to a large value; popping a cell looks the
value up, and pushing a value interns it.

* `Value.text`: the text of a value, which is printed, and by which values of different kinds are
  compared.
* `Value.looseEq`: numbers by value, all else by text. `Value.identical`: the same kind with the
  same content.
* `Value.compare`: the order of two numbers, or of the texts where one value is a string.
  `Value.sortOrder` falls back on the texts where there is no such order.
-/

namespace ScopeStack

/-- A value. A block is never copied; its value is the handle. -/
inductive Value where
  | bool (b : Bool)
  | int (n : Int64)
  | big (n : Int)
  | double (x : Float)
  | str (text : String)
  /-- The name of a word, pushed as a value. -/
  | word (name : String)
  | block (handle : Nat)
deriving Inhabited

namespace Value

/-! ## 1. Building values -/

/-- An integer in its canonical form: a machine word where it fits. -/
@[inline] def ofInt (n : Int) : Value :=
  match machineInt? n with
  | some w => .int w
  | none => .big n

/-- A count or a position. -/
def ofNat (n : Nat) : Value := ofInt n

/-- The value of a payload. -/
def ofNumber : Number → Value
  | .big n => .big n
  | .double x => .double x

/-! ## 2. Kinds -/

def isNumeric : Value → Bool
  | .int _ | .big _ | .double _ => true
  | _ => false

def isDouble : Value → Bool
  | .double _ => true
  | _ => false

/-- Is it a string? The name of a word is not. -/
def isString : Value → Bool
  | .str _ => true
  | _ => false

/-- Can a control word run it? -/
def isRunnable : Value → Bool
  | .block _ | .word _ | .str _ => true
  | _ => false

/-- Is it a number equal to zero? -/
def isZero : Value → Bool
  | .int n => n == 0
  | .big n => n == 0
  | .double x => x == 0.0
  | _ => false

/-! ## 3. Text -/

/-- The text of a value. -/
def text : Value → String
  | .bool b => if b then "true" else "false"
  | .int n => integerText n.toInt
  | .big n => integerText n
  | .double x => doubleText x
  | .str t => t
  | .word name => name
  | .block handle => s!"<block {handle}>"

/-! ## 4. As numbers -/

/-- The integer a value is. -/
def toInt? : Value → Option Int
  | .int n => some n.toInt
  | .big n => some n
  | _ => none

/-- A number as a double. -/
def asDouble : Value → Except Fault Float
  | .int n => .ok (doubleOfInt n.toInt)
  | .big n => .ok (doubleOfInt n)
  | .double x => .ok x
  | _ => .error (.mismatch .number)

/-- The integer a value is, without a bound. -/
def asInt (v : Value) : Except Fault Int :=
  match v.toInt? with
  | some n => .ok n
  | none => .error (.mismatch .integer)

/-! ## 5. Equality and order -/

/-- The order of two doubles. What is not a number counts as equal to everything. -/
def compareDoubles (x y : Float) : Ordering :=
  if x < y then .lt else if y < x then .gt else .eq

/-- The order of two numbers: exact for integers, as doubles if one is a double. -/
def compareNumbers (a b : Value) : Except Fault Ordering :=
  if a.isDouble || b.isDouble then do
    return compareDoubles (← a.asDouble) (← b.asDouble)
  else do
    return Ord.compare (← a.asInt) (← b.asInt)

/-- Are two values loosely equal? -/
def looseEq (a b : Value) : Bool :=
  if a.isNumeric && b.isNumeric then
    match compareNumbers a b with
    | .ok .eq => true
    | _ => false
  else a.text == b.text

/-- Are two values of one kind, with the same content? -/
def identical : Value → Value → Bool
  | .bool a, .bool b => a == b
  | .int a, .int b => a == b
  | .big a, .big b => a == b
  | .double a, .double b => a == b
  | .str a, .str b => a == b
  | .word a, .word b => a == b
  | .block a, .block b => a == b
  | _, _ => false

/-- The order of two texts, by code points. -/
def compareTexts (a b : Value) : Ordering :=
  Ord.compare a.text b.text

/-- The order of two values, if they have one. -/
def compare (a b : Value) : Except Fault Ordering :=
  if a.isNumeric && b.isNumeric then compareNumbers a b
  else if a.isString || b.isString then .ok (compareTexts a b)
  else .error (.mismatch .ordered)

/-- The order in which values are sorted. -/
def sortOrder (a b : Value) : Ordering :=
  match compare a b with
  | .ok o => o
  | .error _ => compareTexts a b

end Value

end ScopeStack
