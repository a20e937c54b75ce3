import ScopeStack.Machine.Stack

/-!
# Variables

Names are looked up from a scope outwards. A definition changes the nearest binding further out, if
there is one in the same process, and else makes one in the scope itself. Forgetting a variable
removes the nearest binding, and with it what nothing else needs: a payload that no cell uses, or a
block that nothing refers to.
-/

namespace ScopeStack

namespace Arena

/-- The cell a variable is bound to, from a scope outwards. -/
def findVariable (a : Arena) (id : ScopeId) (name : String) : Option Cell :=
  a.search id (·.binding? name)

/-- The operation of a name, from a scope outwards. -/
def findOperation (a : Arena) (id : ScopeId) (name : String) : Option Operation :=
  a.search id (·.operations.find? name)

/-- The first of these scopes that binds the variable. The search ends behind the body of a
process. -/
def boundWithinProcess (a : Arena) (name : String) : List ScopeId → Option ScopeId
  | [] => none
  | id :: rest =>
    match a.get? id with
    | none => none
    | some s =>
      if s.binds name then some id
      else if s.spawned then none
      else a.boundWithinProcess name rest

/-- The scope whose binding a definition in `id` writes. -/
def definingScope (a : Arena) (id : ScopeId) (s : Scope) (name : String) : ScopeId :=
  match s.parent, s.spawned with
  | some parent, false => (a.boundWithinProcess name (a.chain parent)).getD id
  | _, _ => id

/-- Define a variable. A strict definition leaves a binding in the scope itself as it is. -/
def define (a : Arena) (id : ScopeId) (name : String) (cell : Cell) (strict : Bool) :
    Except Fault Arena := do
  let s ← a.get id
  if strict && s.binds name then return a
  else return a.modify (a.definingScope id s name) (·.bind name cell)

/-- The nearest scope that binds a variable. -/
def ownerOf? (a : Arena) (id : ScopeId) (name : String) : Option ScopeId :=
  (a.chain id).find? fun scope => (a.get? scope).any (·.binds name)

/-- Drop what a removed binding held, if nothing else needs it. Returns the pools of the scopes
that went. -/
def releaseCell (a : Arena) (owner : ScopeId) (cell : Cell) : Except Fault (List PoolId × Arena) :=
  match cell with
  | .str h | .word h =>
    if a.isCellInUse cell then .ok ([], a)
    else .ok ([], a.modify owner fun s => { s with strings := s.strings.erase h })
  | .big h | .double h =>
    if a.isCellInUse cell then .ok ([], a)
    else .ok ([], a.modify owner fun s => { s with numbers := s.numbers.erase h })
  | .block h => if a.contains h && !a.isReferenced h then a.discard h else .ok ([], a)
  | .bool _ | .int _ => .ok ([], a)

/-- Forget a variable: `none` if no scope binds it, else the pools of the scopes that went. -/
def forget (a : Arena) (id : ScopeId) (name : String) :
    Except Fault (Option (List PoolId)) × Arena :=
  match a.ownerOf? id name with
  | none => (.ok none, a)
  | some owner =>
    match (a.get? owner).bind (·.binding? name) with
    | none => (.ok none, a)
    | some cell =>
      let unbound := a.modify owner (·.unbind name)
      match unbound.releaseCell owner cell with
      | .ok (pools, released) => (.ok (some pools), released)
      | .error e => (.error e, unbound)

end Arena

namespace Context

open ScopeStack.Action

/-- The cell a variable is bound to. -/
def findVariable (c : Context) (name : String) : Action (Option Cell) :=
  return (← get).arena.findVariable c.scope name

/-- Define a variable. -/
def define (c : Context) (name : String) (cell : Cell) (strict : Bool) : Action Unit := do
  let arena ← inArena (·.define c.scope name cell strict)
  modifyArena fun _ => arena

/-- Forget a variable. -/
def forget (c : Context) (name : String) : Action (Option (List PoolId)) := do
  let (result, arena) := (← get).arena.forget c.scope name
  modifyArena fun _ => arena
  ofExcept result

/-- The operation of a name. -/
def findOperation (c : Context) (name : String) : Action (Option Operation) :=
  return (← get).arena.findOperation c.scope name

/-- The names of all operations in reach, each once, in the order of their code points. -/
def operationNames (c : Context) : Action (List String) := do
  let a := (← get).arena
  let names := (a.chain c.scope).flatMap fun id =>
    ((a.get? id).map (·.operations.names)).getD []
  return (names.mergeSort fun x y => decide (x ≤ y)).eraseReps

/-- Give a word of this scope an operation. -/
def addOperation (c : Context) (op : Operation) : Action Unit :=
  modifyScope c.scope fun s => { s with operations := s.operations.insert op }

end Context

end ScopeStack
