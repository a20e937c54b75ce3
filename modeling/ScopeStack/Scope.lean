import Std.Data.TreeMap
import Std.Data.TreeSet
import ScopeStack.InternTable
import ScopeStack.Number
import ScopeStack.Operation
import ScopeStack.ProcessTable

/-!
# Scopes

A scope is a block, or the top level. It is a node of a tree: names and handles are looked up from
a scope outwards. What a scope owns is held here; how scopes hang together is the business of
`ScopeStack.Arena`.

`Interned` picks the table of a scope that holds a kind of payload, so that interning and resolving
are said once for texts and numbers.
-/

namespace ScopeStack

/-- Scopes are known by id. The handle of a block is the id of its scope. -/
abbrev ScopeId := Nat

/-- A set of scopes. -/
abbrev ScopeSet := Std.TreeSet ScopeId

/-- Stacks are known by id, so that a block can work on the stack of its caller. -/
abbrev StackId := Nat

/-- Worker pools are known by id. -/
abbrev PoolId := Nat

/-- What a scope owns. -/
structure Scope where
  parent : Option ScopeId
  /-- The scopes inside this one. -/
  children : ScopeSet := {}
  /-- The scope's own stack, used by the top level and by processes. A call has a stack of its
  own or that of its caller. -/
  stack : StackId
  /-- Does a call of this block work on the stack of its caller? -/
  sharesStack : Bool := false
  /-- The stacks of the calls in progress, one entry to a call, the latest first. -/
  calls : List StackId := []
  bindings : Std.TreeMap String Cell := {}
  strings : InternTable String := {}
  numbers : InternTable Number := {}
  operations : OperationTable := {}
  /-- The process that runs, or last ran, this scope as its body. -/
  pid : Pid := rootPid
  /-- Is the scope the body of a process? Pops and definitions do not reach past it. -/
  spawned : Bool := false
  running : Bool := false
  /-- The workers of the processes that this process has spawned. -/
  pool : Option PoolId := none
  /-- The blocks this process has open, the innermost first. -/
  compileStack : List ScopeId := []
  /-- Is the block still open? -/
  compiling : Bool := false
  code : CodeBlock := {}
  /-- The process that pushes go to while a push session is open. -/
  pushTarget : Option Pid := none

instance : Inhabited Scope := ⟨{ parent := none, stack := 0 }⟩

namespace Scope

/-- Add a scope inside this one. -/
def addChild (s : Scope) (id : ScopeId) : Scope := { s with children := s.children.insert id }

/-- Take out a scope inside this one. -/
def removeChild (s : Scope) (id : ScopeId) : Scope := { s with children := s.children.erase id }

theorem mem_children_addChild (s : Scope) (id k : ScopeId) :
    k ∈ (s.addChild id).children ↔ k = id ∨ k ∈ s.children := by
  simp only [addChild, Std.TreeSet.mem_insert, Nat.compare_eq_eq, @eq_comm _ id k]

theorem mem_children_removeChild (s : Scope) (id k : ScopeId) :
    k ∈ (s.removeChild id).children ↔ k ≠ id ∧ k ∈ s.children := by
  simp only [removeChild, Std.TreeSet.mem_erase, ne_eq, Nat.compare_eq_eq, @eq_comm _ id k]

/-- The scope's own stack and the stacks of its calls. -/
def allStacks (s : Scope) : List StackId := s.stack :: s.calls

/-- The cell a variable is bound to in this scope. -/
def binding? (s : Scope) (name : String) : Option Cell := s.bindings[name]?

/-- Is the variable bound in this scope? -/
def binds (s : Scope) (name : String) : Bool := s.bindings.contains name

/-- Bind a variable. -/
def bind (s : Scope) (name : String) (cell : Cell) : Scope :=
  { s with bindings := s.bindings.insert name cell }

/-- Remove a binding. -/
def unbind (s : Scope) (name : String) : Scope :=
  { s with bindings := s.bindings.erase name }

/-- The cells that variables are bound to. -/
def boundCells (s : Scope) : List Cell := s.bindings.toList.map (·.2)

theorem mem_boundCells {s : Scope} {cell : Cell} :
    cell ∈ s.boundCells ↔ ∃ name, s.binding? name = some cell := by
  simp [boundCells, binding?, Std.TreeMap.mem_toList_iff_getElem?_eq_some]

theorem binding?_bind (s : Scope) (name other : String) (cell : Cell) :
    (s.bind name cell).binding? other = if other = name then some cell else s.binding? other := by
  simp only [bind, binding?, Std.TreeMap.getElem?_insert, Std.LawfulEqCmp.compare_eq_iff_eq]
  by_cases h : other = name
  · simp [h]
  · simp [h, Ne.symm h]

theorem binding?_unbind (s : Scope) (name other : String) :
    (s.unbind name).binding? other = if other = name then none else s.binding? other := by
  simp only [unbind, binding?, Std.TreeMap.getElem?_erase, Std.LawfulEqCmp.compare_eq_iff_eq]
  by_cases h : other = name
  · simp [h]
  · simp [h, Ne.symm h]

/-- Append to the code. -/
def append (s : Scope) (i : Instruction) : Scope :=
  { s with code := s.code.push i }

end Scope

/-- A kind of payload that a table of every scope holds. -/
class Interned (α : Type) [BEq α] where
  /-- The table for payloads of this kind. -/
  table : Scope → InternTable α
  /-- Change that table. -/
  modifyTable : (InternTable α → InternTable α) → Scope → Scope

instance : Interned String where
  table := Scope.strings
  modifyTable f s := { s with strings := f s.strings }

instance : Interned Number where
  table := Scope.numbers
  modifyTable f s := { s with numbers := f s.numbers }

end ScopeStack
