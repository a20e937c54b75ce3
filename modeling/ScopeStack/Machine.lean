import ScopeStack.Arena
import ScopeStack.Config
import ScopeStack.ContentHash
import ScopeStack.Folder
import ScopeStack.Value
import ScopeStack.WorkerPool

/-!
# The machine

The state that all scopes of one environment share, and the actions on it.

* `Machine`: the arena, the process table, the pools, the flags that are set, and the output.
* `Context`: which scope code runs in, for which process, and on which stacks. The stacks of the
  calls in progress come first, innermost first; behind them comes the own stack of `base` and
  those of its ancestors, up to the end of the process.
* `Action`: what changes the machine and may fail. A failing action keeps the changes it has made.
-/

namespace ScopeStack

/-- A process that a worker is to run. -/
structure Task where
  pid : Pid
  scope : ScopeId
  halt : HaltToken
deriving DecidableEq

/-- The state that all scopes of an environment share. -/
structure Machine where
  arena : Arena := {}
  processes : ProcessTable := {}
  pools : Std.TreeMap PoolId (WorkerPool Task) := {}
  /-- The pools in which workers have been started or notified of late. -/
  stirred : Std.TreeSet PoolId := {}
  /-- The id given last to a pool. -/
  lastPool : PoolId := 0
  /-- The flags that are set. -/
  halted : Std.TreeSet HaltToken := {}
  /-- The name given last to a flag. -/
  lastToken : HaltToken := 0
  output : String := ""
  /-- The time in milliseconds since the start. -/
  clock : Nat := 0
  files : FileSource := fun _ => some (.error .missing)
  config : Config := {}
  hash : ContentHash := .standard

instance : Inhabited Machine := ⟨{}⟩

/-- Where code runs. -/
structure Context where
  scope : ScopeId
  /-- The scope that heads the process. -/
  process : ScopeId
  /-- The flag that stops the process. -/
  halt : HaltToken
  /-- The stacks of the calls in progress that pops fall through, innermost first. -/
  callStacks : List StackId
  /-- The scope whose own stack comes behind them, if any does. -/
  base : Option ScopeId
deriving DecidableEq

namespace Context

/-- A scope that heads its own process: the top level, or the body of a process. -/
def ofProcess (scope : ScopeId) (halt : HaltToken) : Context :=
  ⟨scope, scope, halt, [], some scope⟩

/-- Another scope of the same process, on its own stack. -/
def onScope (c : Context) (scope : ScopeId) : Context :=
  { c with scope, callStacks := [], base := some scope }

/-- Another scope of the same process; the call in progress is kept if the scope is the same. -/
def switchTo (c : Context) (scope : ScopeId) : Context :=
  if scope = c.scope then c else c.onScope scope

end Context

/-- What changes the machine and may fail. -/
abbrev Action := EStateM Failure Machine

namespace Action

variable {α : Type}

/-- How an action ends, and the machine it leaves. -/
def outcome (a : Action α) (m : Machine) : Except Failure α × Machine :=
  match a.run m with
  | .ok x m => (.ok x, m)
  | .error f m => (.error f, m)

/-- Fail at no particular place. -/
@[inline] def fail (f : Fault) : Action α := throw ⟨f, none⟩

/-- Go on with a result, or fail with its fault. -/
@[inline] def ofExcept : Except Fault α → Action α
  | .ok a => pure a
  | .error f => fail f

/-- Go on with what is there, or fail. -/
@[inline] def ofOption (f : Fault) : Option α → Action α
  | some a => pure a
  | none => fail f

/-- Read something out of the arena. -/
@[inline] def inArena (f : Arena → Except Fault α) : Action α := do
  ofExcept (f (← get).arena)

/-- Change the arena, and go on with a result or fail. -/
@[inline] def changeArena (f : Arena → Except Fault α × Arena) : Action α := do
  let result ← modifyGet fun m =>
    let (result, arena) := f m.arena
    (result, { m with arena })
  ofExcept result

/-- Change the arena. -/
@[inline] def modifyArena (f : Arena → Arena) : Action Unit :=
  modify fun m => { m with arena := f m.arena }

/-- The scope of an id, which must be there. -/
@[inline] def getScope (id : ScopeId) : Action Scope := inArena (·.get id)

/-- Change the scope of an id, if it is there. -/
@[inline] def modifyScope (id : ScopeId) (f : Scope → Scope) : Action Unit :=
  modifyArena (·.modify id f)

/-- Whatever fails without a place has failed at this one. -/
@[inline] def locating (l : Option Location) (a : Action α) : Action α :=
  tryCatch a fun f => throw ((l.map f.orAt).getD f)

/-- Write to the output. -/
@[inline] def write (text : String) : Action Unit :=
  modify fun m => { m with output := m.output ++ text }

end Action

/-- Is the flag set? -/
def Machine.isHalted (m : Machine) (token : HaltToken) : Bool := m.halted.contains token

/-- Set flags. -/
def Machine.halt (m : Machine) (tokens : List HaltToken) : Machine :=
  { m with halted := m.halted.insertMany tokens }

namespace Context

open ScopeStack.Action

/-- Has the process been told to stop? -/
@[inline] def isStopped (c : Context) (m : Machine) : Bool := m.isHalted c.halt

/-- Fail if the process has been told to stop. -/
@[inline] def checkRunning (c : Context) : Action Unit := do
  if c.isStopped (← get) then fail .stopped

end Context

end ScopeStack
