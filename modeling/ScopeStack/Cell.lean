import ScopeStack.Location

/-!
# Cells and compiled code

A cell is the unit of stacks and of compiled code. Small values stand in the cell itself; a large
one is a handle that a table of the scope chain resolves.

* `Cell`: the cell; `Instruction`: a cell and the place it was compiled from.
* `CodeBlock`: instructions in order and a cursor for replaying them. A snapshot has the
  instructions as they are now and a cursor at the start.
-/

namespace ScopeStack

/-- A key into the tables of a scope. -/
abbrev Handle := Nat

/-- A unit of a stack or of compiled code. -/
inductive Cell where
  | bool (b : Bool)
  | int (n : Int64)
  | big (handle : Handle)
  | double (handle : Handle)
  | str (handle : Handle)
  | word (handle : Handle)
  /-- A compiled block. Its handle is the id of its scope. -/
  | block (handle : Handle)
deriving DecidableEq, Inhabited

namespace Cell

/-- What a reader calls this kind of cell. -/
def kindName : Cell → String
  | .bool _ => "boolean"
  | .int _ => "integer"
  | .big _ => "big integer"
  | .double _ => "double"
  | .str _ => "string"
  | .word _ => "word"
  | .block _ => "block"

/-- Can a control word run what the cell stands for? -/
def isRunnable : Cell → Bool
  | .block _ | .word _ | .str _ => true
  | _ => false

/-- The handle of a block. -/
def block? : Cell → Option Handle
  | .block h => some h
  | _ => none

/-- The cell as a listing shows it. -/
def trace : Cell → String
  | .bool b => s!"Bool({b})"
  | .int n => s!"Int({n.toInt})"
  | .big h => s!"BigInt({h})"
  | .double h => s!"Double({h})"
  | .str h => s!"Str({h})"
  | .word h => s!"Word({h})"
  | .block h => s!"Block({h})"

end Cell

/-- A compiled cell and the place it came from. -/
structure Instruction where
  location : Option Location
  cell : Cell
deriving DecidableEq

/-- Instructions in order, and the position of the next one to be replayed. -/
structure CodeBlock where
  instructions : Array Instruction := #[]
  cursor : Nat := 0

namespace CodeBlock

/-- Append an instruction. -/
def push (b : CodeBlock) (i : Instruction) : CodeBlock :=
  { b with instructions := b.instructions.push i }

def size (b : CodeBlock) : Nat := b.instructions.size

def isEmpty (b : CodeBlock) : Bool := b.instructions.isEmpty

/-- The instruction at a position. -/
def get? (b : CodeBlock) (i : Nat) : Option Instruction := b.instructions[i]?

/-- The instruction under the cursor, and the block with its cursor behind it. -/
def next (b : CodeBlock) : Option Instruction × CodeBlock :=
  match b.get? b.cursor with
  | some i => (some i, { b with cursor := b.cursor + 1 })
  | none => (none, b)

/-- Put the cursor back to the start. -/
def reset (b : CodeBlock) : CodeBlock := { b with cursor := 0 }

/-- The instructions as they are now, ready to be replayed. -/
def snapshot (b : CodeBlock) : CodeBlock := { b with cursor := 0 }

/-- The instructions in order. -/
def toList (b : CodeBlock) : List Instruction := b.instructions.toList

/-- The cells in order. -/
def cells (b : CodeBlock) : List Cell := b.toList.map (·.cell)

/-- Is there a cell of this kind? -/
def any (b : CodeBlock) (p : Cell → Bool) : Bool := b.instructions.any fun i => p i.cell

theorem any_eq (b : CodeBlock) (p : Cell → Bool) : b.any p = b.cells.any p := by
  simp [any, cells, toList, Function.comp_def]

/-- One line of a listing: the position, four columns wide, and the cell. -/
def listingLine (index : Nat) (i : Instruction) : String :=
  let digits := toString index
  String.ofList (List.replicate (4 - digits.length) ' ') ++ digits ++ "  " ++ i.cell.trace ++ "\n"

/-- The cells, one to a line. -/
def listing (b : CodeBlock) : String :=
  String.join (b.toList.zipIdx.map fun (i, index) => listingLine index i)

@[simp] theorem toList_push (b : CodeBlock) (i : Instruction) :
    (b.push i).toList = b.toList ++ [i] := by
  simp [push, toList]

@[simp] theorem cells_push (b : CodeBlock) (i : Instruction) :
    (b.push i).cells = b.cells ++ [i.cell] := by
  simp [cells]

end CodeBlock

end ScopeStack
