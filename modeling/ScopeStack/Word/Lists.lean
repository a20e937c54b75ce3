import ScopeStack.Machine.Stack

/-!
# Words that take the stack for a list

The innermost stack is a list of values that counts from the bottom. Values are looked for by loose
equality. The words that change the list read it, change it and write it back as a whole.

* `positionOf`, `setAfterKey`, `sortValues`, `binarySearch`: what the words do to the list.
* `ListWord.perform`: the words.
-/

namespace ScopeStack

open ScopeStack.Action

/-- The position of the first value that is loosely equal to a key. -/
def positionOf (values : List Value) (key : Value) : Option Nat :=
  values.findIdx? (Value.looseEq · key)

/-- The value that follows a key. -/
def valueAfterKey (values : List Value) (key : Value) : Option Value :=
  (positionOf values key).bind fun i => values[i + 1]?

/-- Change the value that follows a key, or append both if no value follows one. -/
def setAfterKey (values : List Value) (key value : Value) : List Value :=
  match positionOf values key with
  | some i => if i + 1 < values.length then values.set (i + 1) value else values ++ [key, value]
  | none => values ++ [key, value]

/-- Put a value into a list that falls, below all values that it is less than. -/
def insertFalling (v : Value) : List Value → List Value
  | [] => [v]
  | w :: rest =>
    if Value.sortOrder v w == .lt then w :: insertFalling v rest else v :: w :: rest

/-- Sort by insertion: each value in turn moves down past the values it is less than. -/
def insertValues (values : List Value) : List Value :=
  (values.foldl (fun sorted v => insertFalling v sorted) []).reverse

/-- The most values that are sorted by insertion. -/
def insertionLimit : Nat := 20

/-- Sort, keeping values that are equal in their order. More than a few values are sorted in two
halves, which are then merged. -/
def sortValues (values : List Value) : List Value :=
  if values.length ≤ insertionLimit then insertValues values
  else
    let half := values.length / 2
    (sortValues (values.take half)).merge (sortValues (values.drop half))
      fun v w => Value.sortOrder w v != .lt
termination_by values.length
decreasing_by
  all_goals
    simp only [insertionLimit, List.length_take, List.length_drop] at *
    omega

/-- Halve the part of a list in which a key can be, `size` values from `base` on, until one value
is left. -/
def narrowSearch (order : Nat → Ordering) : (fuel base size : Nat) → Nat
  | 0, base, _ => base
  | fuel + 1, base, size =>
    if size ≤ 1 then base
    else
      let half := size / 2
      narrowSearch order fuel (if order (base + half) == .gt then base else base + half)
        (size - half)

/-- Look for a key in a sorted list: its position, or `-p - 1` where `p` is the position it would
go to. -/
def binarySearch (values : List Value) (key : Value) : Int :=
  let order (i : Nat) : Ordering :=
    match values[i]? with
    | some v => Value.sortOrder v key
    | none => .gt
  if values.isEmpty then -1
  else
    let base := narrowSearch order values.length 0 values.length
    match order base with
    | .eq => base
    | .lt => -((base : Int) + 1) - 1
    | .gt => -(base : Int) - 1

/-- Take a position on the stack as it is then. -/
def popPosition (c : Context) : Action (Nat × List Value) := do
  let index ← c.popNat
  let values ← c.stackValues
  if values.length ≤ index then fail (.positionOutOfRange index values.length)
  return (index, values)

/-- Work on the stack as a list. -/
def ListWord.perform (c : Context) : ListWord → Action Unit
  | .copyAt => do
    let (index, values) ← popPosition c
    c.push (← ofOption (.positionOutOfRange index values.length) values[index]?)
  | .removeAt => do
    let (index, values) ← popPosition c
    c.setStackValues (values.eraseIdx index)
  | .removeAll => c.setStackValues []
  | .remove => do
    let key ← c.pop
    let values ← c.stackValues
    match positionOf values key with
    | some i => c.setStackValues (values.eraseIdx i)
    | none => return
  | .get => do
    let key ← c.pop
    let values ← c.stackValues
    match valueAfterKey values key with
    | some value => c.push value
    | none => return
  | .set => do
    let value ← c.pop
    let key ← c.pop
    let values ← c.stackValues
    c.setStackValues (setAfterKey values key value)
  | .reverse => do c.setStackValues (← c.stackValues).reverse
  | .sort => do c.setStackValues (sortValues (← c.stackValues))
  | .search => do
    let key ← c.pop
    let values ← c.stackValues
    c.push (.ofInt (binarySearch values key))
  | .replaceFirst => do
    let new ← c.pop
    let old ← c.pop
    let values ← c.stackValues
    match positionOf values old with
    | some i => c.setStackValues (values.set i new)
    | none => return
  | .replaceAll => do
    let new ← c.pop
    let old ← c.pop
    let values ← c.stackValues
    c.setStackValues (values.map fun v => if Value.looseEq v old then new else v)

end ScopeStack
