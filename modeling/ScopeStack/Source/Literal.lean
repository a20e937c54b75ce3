import ScopeStack.Number
import ScopeStack.Source.Token

/-!
# What a token means

A token is a string, a block delimiter, a number, a boolean or the name of a word, and the first
of these that fits is what it is.

* `readMachineInt?`: hexadecimal behind `0x`, octal behind any other leading zero, else decimal,
  within 64 bits.
* `readBigNumber?`: decimal integers of any size, with underscores between digits, and doubles,
  which have a point. A leading `L` asks for this reading.
* `Literal.ofToken`: the meaning of a token.
-/

namespace ScopeStack

/-- The two kinds of block. -/
inductive BlockKind where
  /-- Between square brackets: works on its caller's stack. -/
  | sharing
  /-- Between braces: works on a stack of its own and hands back its top value. -/
  | isolated
deriving DecidableEq

/-- Does a call of such a block work on the stack of its caller? -/
def BlockKind.shares : BlockKind → Bool
  | .sharing => true
  | .isolated => false

/-- What a token other than a delimiter stands for. -/
inductive Atom where
  | int (n : Int64)
  | number (n : Number)
  | str (text : String)
  | bool (b : Bool)
  | word (name : String)

/-- What a token means to the compiler. -/
inductive Literal where
  | atom (a : Atom)
  | blockOpen (kind : BlockKind)
  | blockClose (kind : BlockKind)

/-! ## 1. Machine integers -/

/-- The value of a digit in a radix up to sixteen. -/
def radixDigit? (radix : Nat) (c : Char) : Option Nat :=
  let v :=
    if '0' ≤ c ∧ c ≤ '9' then c.toNat - '0'.toNat
    else if 'a' ≤ c ∧ c ≤ 'f' then c.toNat - 'a'.toNat + 10
    else if 'A' ≤ c ∧ c ≤ 'F' then c.toNat - 'A'.toNat + 10
    else 16
  if v < radix then some v else none

/-- The number that one or more digits denote. -/
def readDigits? (radix : Nat) (cs : List Char) : Option Nat :=
  if cs.isEmpty then none else (cs.mapM (radixDigit? radix)).map (numberOf radix)

/-- The radix that an unsigned literal is written in, and its digits. -/
def splitRadix : List Char → Nat × List Char
  | '0' :: 'x' :: ds => (16, ds)
  | '0' :: d :: ds => (8, d :: ds)
  | ds => (10, ds)

/-- Take a minus sign off the front. -/
def splitMinus : List Char → Bool × List Char
  | '-' :: rest => (true, rest)
  | cs => (false, cs)

/-- The machine integer a text denotes. -/
def readMachineInt? (text : String) : Option Int64 :=
  let (negative, body) := splitMinus text.toList
  let (radix, ds) := splitRadix body
  (readDigits? radix ds).bind fun n => machineInt? (if negative then -(n : Int) else n)

/-! ## 2. Big numbers -/

/-- The integer of any size that decimal digits denote, underscores left out. The first character
is a digit. -/
def readBigInt? (cs : List Char) : Option Int :=
  let (negative, ds) := splitMinus cs
  match ds with
  | [] | '_' :: _ => none
  | _ =>
    (readDigits? 10 (ds.filter (· != '_'))).map fun n => if negative then -(n : Int) else n

/-- Can a big number start with this character? -/
def startsNumber (c : Char) : Bool := c.isDigit || c == '-' || c == '.'

/-- The big number a text denotes. -/
def readBigNumber? (text : String) : Option Number :=
  let cs :=
    match text.toList with
    | 'L' :: rest => rest
    | all => all
  match cs with
  | [] => none
  | c :: _ =>
    if !startsNumber c then none
    else if cs.contains '.' then (readDouble? cs).map .double
    else (readBigInt? cs).map .big

/-! ## 3. Tokens -/

/-- The block delimiter a word is, if it is one. -/
def delimiter? : String → Option Literal
  | "[" => some (.blockOpen .sharing)
  | "]" => some (.blockClose .sharing)
  | "\x7b" => some (.blockOpen .isolated)
  | "\x7d" => some (.blockClose .isolated)
  | _ => none

/-- The meaning of a bare word. -/
def Literal.ofWord (text : String) : Literal :=
  match delimiter? text with
  | some literal => literal
  | none =>
    match readMachineInt? text with
    | some n => .atom (.int n)
    | none =>
      match readBigNumber? text with
      | some n => .atom (.number n)
      | none =>
        if text = "true" then .atom (.bool true)
        else if text = "false" then .atom (.bool false)
        else .atom (.word text)

/-- The meaning of a token. -/
def Literal.ofToken (t : Token) : Literal :=
  match t.style with
  | .double | .single => .atom (.str t.text)
  | .word => .ofWord t.text

end ScopeStack
