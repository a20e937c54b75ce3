import ScopeStack.Machine

/-!
# Values on stacks

Pushing a value interns it for the scope that pushes; popping takes a cell and resolves it from the
scope that pops. A push goes to the innermost stack, or to another process while a push session is
open. A pop falls through to the stacks behind while the innermost one is empty.

* `Context.internValue`, `Context.resolveCell`: between values and cells.
* `Context.pushCell`, `Context.push`: pushing.
* `Context.top?`: where a pop looks; `Context.popCell`, `Context.pop`, `Context.peek`.
* `Context.stackValues`, `Context.setStackValues`, `Context.drainStack`: the innermost stack as a
  whole. Values are listed from the bottom up, except that draining gives the top first.
-/

namespace ScopeStack.Arena

/-- The first of these stacks that is not empty, with its top cell. -/
def topOf? (a : Arena) : List StackId → Option (StackId × Cell)
  | [] => none
  | stack :: rest =>
    match a.stackCells stack with
    | cell :: _ => some (stack, cell)
    | [] => a.topOf? rest

/-- The own stack of a scope, or of the nearest ancestor in its process, that is not empty, with its
top cell; looked for at most `n` scopes out. -/
def ownTopUpTo (a : Arena) : Nat → ScopeId → Except Fault (Option (StackId × Cell))
  | 0, _ => .ok none
  | n + 1, id =>
    match a.get? id with
    | none => .error (.scopeGone id)
    | some s =>
      match a.stackCells s.stack with
      | cell :: _ => .ok (some (s.stack, cell))
      | [] =>
        match s.parent, s.spawned with
        | some parent, false => a.ownTopUpTo n parent
        | _, _ => .ok none

end ScopeStack.Arena

namespace ScopeStack.Context

open ScopeStack.Action

/-! ## 1. Between values and cells -/

/-- Intern a payload for a scope. -/
def internPayload {α : Type} [BEq α] [Interned α] (hash : ContentHash → α → Handle) (c : Context)
    (v : α) : Action Handle := do
  let hashes := (← get).hash
  changeArena (·.intern (hash hashes) c.scope v)

def internText (c : Context) (text : String) : Action Handle := internPayload (·.text) c text

def internNumber (c : Context) (n : Number) : Action Handle := internPayload (·.number) c n

/-- The cell of a value, interned for the scope. -/
@[inline] def internValue (c : Context) : Value → Action Cell
  | .bool b => return .bool b
  | .int n => return .int n
  | .big n => return .big (← c.internNumber (.big n))
  | .double x => return .double (← c.internNumber (.double x))
  | .str text => return .str (← c.internText text)
  | .word name => return .word (← c.internText name)
  | .block h => return .block h

/-- The text of a handle. -/
@[inline] def resolveText (c : Context) (h : Handle) : Action String :=
  inArena (·.resolve String c.scope h)

/-- The value of a cell, looked up from the scope outwards. -/
def resolveCell (c : Context) : Cell → Action Value
  | .bool b => return .bool b
  | .int n => return .int n
  | .big h | .double h => return .ofNumber (← inArena (·.resolve Number c.scope h))
  | .str h => return .str (← c.resolveText h)
  | .word h => return .word (← c.resolveText h)
  | .block h => do
    let _ ← inArena (·.resolveBlock c.scope h)
    return .block h

/-! ## 2. Pushing -/

/-- The innermost stack. -/
@[inline] def ownStack (c : Context) : Action StackId :=
  match c.callStacks with
  | stack :: _ => return stack
  | [] => return (← getScope c.scope).stack

/-- Push onto the innermost stack, whether or not a push session is open. -/
def pushLocal (c : Context) (v : Value) : Action Unit := do
  let cell ← c.internValue v
  let stack ← c.ownStack
  modifyArena (·.pushCell stack cell)

/-- Push several values, the first one first, all of them or none. -/
def pushAllLocal (c : Context) (vs : List Value) : Action Unit := do
  let cells ← vs.mapM c.internValue
  let stack ← c.ownStack
  modifyArena fun a => a.setStack stack (cells.reverse ++ a.stackCells stack)

/-- The body of a live process, for reaching its stack. -/
@[inline] def ofPid (c : Context) (pid : Pid) : Action Context := do
  let scope ← ofExcept ((← get).processes.get pid)
  return { c.onScope scope with process := scope }

/-- Push a value onto the stack of another process. -/
@[inline] def sendTo (c : Context) (pid : Pid) (v : Value) : Action Unit := do
  (← c.ofPid pid).pushLocal v

/-- The process that pushes go to, if a push session is open. -/
@[inline] def pushTarget (c : Context) : Action (Option Pid) :=
  return (← getScope c.process).pushTarget

/-- Push a value. -/
def push (c : Context) (v : Value) : Action Unit := do
  match ← c.pushTarget with
  | some pid => c.sendTo pid v
  | none => c.pushLocal v

/-- Push a cell that the scope can resolve. -/
def pushCell (c : Context) (cell : Cell) : Action Unit := do
  match ← c.pushTarget with
  | some pid => c.sendTo pid (← c.resolveCell cell)
  | none =>
    let stack ← c.ownStack
    modifyArena (·.pushCell stack cell)

/-! ## 3. Popping -/

/-- The stack that a pop takes from, the first that is not empty, with its top cell. -/
def top? (c : Context) (a : Arena) : Except Fault (Option (StackId × Cell)) :=
  match a.topOf? c.callStacks with
  | some top => .ok (some top)
  | none =>
    match c.base with
    | some base => a.ownTopUpTo (a.size + 1) base
    | none => .ok none

/-- The stack that a pop takes from, which must be there, with its top cell. -/
@[inline] def topCell (c : Context) : Action (StackId × Cell) := do
  ofOption .emptyStack (← inArena c.top?)

/-- Take the top cell. -/
def popCell (c : Context) : Action Cell := do
  let (stack, cell) ← c.topCell
  modifyArena (·.popCell stack)
  return cell

/-- Take the top value. A cell that does not resolve is gone all the same. -/
def pop (c : Context) : Action Value := do
  c.resolveCell (← c.popCell)

/-- The top value, which stays. -/
def peek (c : Context) : Action Value := do
  c.resolveCell (← c.topCell).2

/-- Take a cell from the innermost stack only. -/
def popLocal (c : Context) : Action Value := do
  let stack ← c.ownStack
  match (← get).arena.stackCells stack with
  | [] => fail .emptyStack
  | cell :: _ =>
    modifyArena (·.popCell stack)
    c.resolveCell cell

/-- Take a machine integer. -/
def popInt (c : Context) : Action Int64 := do
  match ← c.pop with
  | .int n => return n
  | _ => fail (.mismatch .integer)

/-- Take a count or a position. -/
def popNat (c : Context) : Action Nat := do
  let n := (← c.popInt).toInt
  if n < 0 then fail (.negativeCount n) else return n.toNat

/-- Take a boolean. -/
def popBool (c : Context) : Action Bool := do
  match ← c.pop with
  | .bool b => return b
  | _ => fail (.mismatch .boolean)

/-- Take a text: a string or the name of a word. -/
def popText (c : Context) : Action String := do
  match ← c.pop with
  | .str text | .word text => return text
  | _ => fail (.mismatch .text)

/-- Take what a control word can run. -/
def popRunnable (c : Context) : Action Value := do
  let v ← c.pop
  if v.isRunnable then return v else fail (.mismatch .runnable)

/-! ## 4. The innermost stack as a whole -/

/-- How many cells are on the innermost stack. -/
@[inline] def stackSize (c : Context) : Action Nat := do
  let stack ← c.ownStack
  return ((← get).arena.stack stack).size

/-- The values of the innermost stack, the bottom first. -/
def stackValues (c : Context) : Action (List Value) := do
  let stack ← c.ownStack
  ((← get).arena.stackCells stack).reverse.mapM c.resolveCell

/-- Replace the innermost stack. -/
def setStackValues (c : Context) (vs : List Value) : Action Unit := do
  let cells ← vs.mapM c.internValue
  let stack ← c.ownStack
  modifyArena (·.setStack stack cells.reverse)

/-- Empty the innermost stack. The values come back with the top first; if one does not resolve,
the stack is empty all the same. -/
def drainStack (c : Context) : Action (List Value) := do
  let stack ← c.ownStack
  let cells := (← get).arena.stackCells stack
  modifyArena (·.setStack stack [])
  cells.mapM c.resolveCell

end ScopeStack.Context
