import ScopeStack.Machine.Stack
import ScopeStack.Source.Literal

/-!
# Compiling

An opening delimiter creates a scope and makes it the target of compilation for the whole process;
tokens are compiled into it until the matching close. The finished block becomes an instruction of
the scope around it if that is still open itself, and a value on its stack otherwise.

* `Context.compileTarget`: where tokens go now.
* `Context.openBlock`, `Context.closeBlock`: the delimiters.
* `Context.compileAtom`: the cell of what is not a delimiter, interned for the target.
-/

namespace ScopeStack.Context

open ScopeStack.Action

/-- The scope that code is compiled into: the innermost block the process has open, or the scope
itself. -/
def compileTarget (c : Context) : Action ScopeId :=
  return (← getScope c.process).compileStack.headD c.scope

/-- Open a block inside the current target. -/
def openBlock (c : Context) (kind : BlockKind) : Action Unit := do
  let target ← c.compileTarget
  let child ← changeArena (·.createChild target kind.shares)
  let _ ← getScope c.process
  modifyScope c.process fun s => { s with compileStack := child :: s.compileStack }

/-- Finish the innermost open block. It becomes an instruction of the scope around it if that is
open itself. Returns the block and, if it is not, the scope whose stack it goes to. -/
def finishBlock (c : Context) (kind : BlockKind) (location : Location) :
    Action (ScopeId × Option ScopeId) := do
  let child ← ofOption .strayClose (← getScope c.process).compileStack.head?
  if (← getScope child).sharesStack != kind.shares then fail .crossedClose
  modifyScope c.process fun s => { s with compileStack := s.compileStack.tail }
  modifyScope child fun s => { s with compiling := false }
  let parent := (← getScope child).parent.getD c.scope
  changeArena (·.registerBlock child)
  if (← getScope parent).compiling then
    modifyScope parent (·.append ⟨some location, .block child⟩)
    return (child, none)
  else return (child, some parent)

/-- Close the innermost open block. -/
def closeBlock (c : Context) (kind : BlockKind) (location : Location) : Action Unit := do
  match ← c.finishBlock kind location with
  | (_, none) => return
  | (child, some parent) => (c.switchTo parent).pushCell (.block child)

/-- The cell of an atom, interned for the scope. -/
def compileAtom (c : Context) : Atom → Action Cell
  | .int n => return .int n
  | .bool b => return .bool b
  | .number (.big n) => return .big (← c.internNumber (.big n))
  | .number (.double x) => return .double (← c.internNumber (.double x))
  | .str text => return .str (← c.internText text)
  | .word name => return .word (← c.internText name)

end ScopeStack.Context
