import ScopeStack.Machine.Stack

/-!
# Processes

A block is spawned as a process with a copy of its spawner's stack. The workers that run a
process's children form a pool that belongs to the process. A process that has ended leaves the
process table, and its scope goes too unless something refers to it.

* `Context.spawn`, `Machine.finishProcess`: the two ends of a process. What a spawn does to the
  block and to the process table is `Context.claim`.
* `Context.pid`, `Context.parentPid`: who runs, and who started it.
* `Context.sendAllTo`, `Context.takeFrom`, `Context.takeAllFrom`: values between processes.
* `Context.beginPush`, `Context.endPush`: push sessions.
* `Machine.closePool`: shut a pool down.
-/

namespace ScopeStack

namespace Machine

/-- The pool of an id. -/
def pool? (m : Machine) (id : PoolId) : Option (WorkerPool Task) := m.pools[id]?

/-- Replace a pool. -/
def setPool (m : Machine) (id : PoolId) (p : WorkerPool Task) : Machine :=
  { m with pools := m.pools.insert id p }

/-- Replace a pool in which workers may have been started or notified. -/
def stirPool (m : Machine) (id : PoolId) (p : WorkerPool Task) : Machine :=
  { m.setPool id p with stirred := m.stirred.insert id }

/-- Shut a pool down. Returns the workers to wait for. -/
def closePool (m : Machine) (id : PoolId) : List Nat × Machine :=
  match m.pool? id with
  | none => ([], m)
  | some p =>
    let (tokens, workers, p) := p.shutdown
    (workers, (m.stirPool id p).halt tokens)

/-- A process has ended: it leaves the table, and its scope is cleared and goes away unless
something refers to it. Returns the pools to be shut down. -/
def finishProcess (m : Machine) (scope : ScopeId) (pid : Pid) : List PoolId × Machine :=
  let m := { m with processes := m.processes.erase pid }
  match m.arena.get? scope with
  | none => ([], m)
  | some s =>
    let arena := m.arena.modify scope fun s =>
      { s with
        running := false, spawned := false, pushTarget := none, compileStack := [], pool := none }
    let owned := s.pool.toList
    if arena.isReferenced scope then (owned, { m with arena })
    else
      match arena.discard scope with
      | .ok (pools, arena) => (owned ++ pools, { m with arena })
      | .error _ => (owned, { m with arena })

end Machine

namespace Context

open ScopeStack.Action

/-- The id of the process. -/
def pid (c : Context) : Action Pid := return (← getScope c.process).pid

/-- The id of the process in which the block of this process was written. -/
def parentPid (c : Context) : Action Pid := do
  match (← getScope c.process).parent with
  | none => return rootPid
  | some parent =>
    let owner ← inArena (·.processRoot parent)
    return (← getScope owner).pid

/-- A pool that becomes the pool of the process. -/
def newPool (c : Context) : Action PoolId := do
  let m ← get
  let id := m.lastPool + 1
  set { m.setPool id { maxIdle := m.config.idleWorkers } with lastPool := id }
  modifyScope c.process fun s => { s with pool := some id }
  return id

/-- The pool for the children of this process, made when it is first needed. -/
def childPool (c : Context) : Action PoolId := do
  let owner ← getScope c.process
  let m ← get
  match owner.pool with
  | some id => if (m.pool? id).any fun p => !p.shutDown then return id else c.newPool
  | none => c.newPool

/-- A new flag. -/
def newToken : Action HaltToken := do
  let m ← get
  let token := m.lastToken + 1
  set { m with lastToken := token }
  return token

/-- Queue a task with a pool. -/
def submit (pool : PoolId) (task : Task) : Action Unit := do
  let m ← get
  match m.pool? pool with
  | none => fail .stopped
  | some p =>
    let (result, p) := p.submit m.isHalted 0 none task.halt task
    set (m.stirPool pool p)
    ofExcept result

/-- Make a block the body of a new process, with a stack and a flag of its own. -/
def claimBlock (block : ScopeId) : Action Task := do
  let (pid, processes) := (← get).processes.allocate
  modify fun m => { m with processes := processes.insert pid block }
  let token ← newToken
  let (stack, arena) := (← get).arena.newStack
  modifyArena fun _ => arena
  modifyScope block fun s =>
    { s with spawned := true, running := true, pid, stack, compileStack := [], pushTarget := none }
  return ⟨pid, block, token⟩

/-- Make a block that does not run yet the body of a new process, which runs in the pool of this
one. -/
def claim (c : Context) (h : Handle) : Action (PoolId × Task) := do
  let block ← inArena (·.resolveBlock c.scope h)
  let s ← getScope block
  if s.running then fail (.blockSpawned block s.pid)
  let pool ← c.childPool
  let task ← claimBlock block
  return (pool, task)

/-- Spawn a block as a process that starts with a copy of the innermost stack. -/
def spawn (c : Context) (h : Handle) : Action Pid := do
  let values ← c.stackValues
  let (pool, task) ← c.claim h
  try
    (ofProcess task.scope task.halt).pushAllLocal values
    submit pool task
  catch e =>
    let m ← get
    let (pools, m) := m.finishProcess task.scope task.pid
    set (pools.foldl (fun m id => (m.closePool id).2) m)
    throw e
  return task.pid

/-- Move the innermost stack to another process, where it arrives in reverse. -/
def sendAllTo (c : Context) (pid : Pid) : Action Unit := do
  let target ← c.ofPid pid
  let values ← c.drainStack
  target.pushAllLocal values

/-- Take the top value of another process. -/
def takeFrom (c : Context) (pid : Pid) : Action Value := do
  (← c.ofPid pid).popLocal

/-- Move the stack of another process onto the innermost stack, where it arrives in reverse. -/
def takeAllFrom (c : Context) (pid : Pid) : Action Unit := do
  let source ← c.ofPid pid
  let values ← source.drainStack
  c.pushAllLocal values

/-- Send all pushes of this process to another one from now on. -/
def beginPush (c : Context) (pid : Pid) : Action Unit := do
  let _ ← ofExcept ((← get).processes.get pid)
  if (← getScope c.process).pushTarget.isSome then fail .alreadyPushing
  modifyScope c.process fun s => { s with pushTarget := some pid }

/-- Let pushes of this process go to its own stack again. -/
def endPush (c : Context) : Action Unit := do
  if (← getScope c.process).pushTarget.isNone then fail .notPushing
  modifyScope c.process fun s => { s with pushTarget := none }

/-- Tell this process to stop. Returns the pool of its children, which is to be shut down. -/
def stop (c : Context) : Action (List PoolId) := do
  let s ← getScope c.process
  modify (·.halt [c.halt])
  return s.pool.toList

end Context

end ScopeStack
