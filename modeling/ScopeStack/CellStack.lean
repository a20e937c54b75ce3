import ScopeStack.Cell

/-!
# Stacks of cells

A stack is a list of cells, the top first, that knows its size.

* `CellStack.push`, `CellStack.pop`: at the top.
* `CellStack.ofList`: a stack from its cells.
-/

namespace ScopeStack

/-- Cells, the top first, and how many they are. -/
structure CellStack where
  cells : List Cell
  size : Nat
  size_eq : size = cells.length

namespace CellStack

/-- A stack of these cells. -/
def ofList (cells : List Cell) : CellStack := ⟨cells, cells.length, rfl⟩

/-- A stack without cells. -/
def empty : CellStack := ofList []

instance : Inhabited CellStack := ⟨empty⟩

/-- Put a cell on top. -/
@[inline] def push (s : CellStack) (cell : Cell) : CellStack :=
  ⟨cell :: s.cells, s.size + 1, by rw [List.length_cons, s.size_eq]⟩

/-- The stack without its top; without cells nothing happens. -/
@[inline] def pop (s : CellStack) : CellStack :=
  ⟨s.cells.tail, s.size - 1, by rw [List.length_tail, s.size_eq]⟩

@[simp] theorem cells_ofList (cells : List Cell) : (ofList cells).cells = cells := rfl

@[simp] theorem cells_empty : empty.cells = [] := rfl

@[simp] theorem cells_push (s : CellStack) (cell : Cell) : (s.push cell).cells = cell :: s.cells :=
  rfl

@[simp] theorem cells_pop (s : CellStack) : s.pop.cells = s.cells.tail := rfl

end CellStack

end ScopeStack
