import Std.Data.TreeSet
import ScopeStack.WorkerPool

/-!
# A pool on trial

A pool by itself, with tasks that do nothing but count themselves, at once or when they are asked
to stop. Between two requests all workers go on as far as they can.
-/

namespace ScopeStack

/-- A pool, the flags that are set, and the tasks that were handed in. A task says whether it waits to
be asked to stop before it counts itself. -/
structure PoolTrial where
  pool : WorkerPool (Ticket Bool)
  halted : Std.TreeSet HaltToken := {}
  /-- The tasks that were accepted, the latest first. -/
  accepted : List (Ticket Bool) := []
  /-- How many tasks have been handed in, accepted or not. -/
  offered : Nat := 0

namespace PoolTrial

/-- Is a task over? -/
def isOver (t : PoolTrial) (task : Ticket Bool) : Bool :=
  !task.work || t.halted.contains task.token

/-- All workers go on as far as they can. -/
def settled (t : PoolTrial) : PoolTrial := { t with pool := t.pool.settled t.isOver }

/-- Hand in a task, with a flag of its own. -/
def submit (t : PoolTrial) (waits : Bool) : Except Fault Unit × PoolTrial :=
  let ticket : Ticket Bool := ⟨t.offered, t.offered, waits⟩
  let (result, pool) := t.pool.submit t.halted.contains 0 none ticket.token ticket
  let accepted := if result.isOk then ticket :: t.accepted else t.accepted
  (result, ({ t with pool, accepted, offered := t.offered + 1 } : PoolTrial).settled)

/-- Ask every accepted task to stop. -/
def haltAll (t : PoolTrial) : PoolTrial :=
  ({ t with halted := t.halted.insertMany (t.accepted.map (·.token)) } : PoolTrial).settled

/-- How many tasks have counted themselves. -/
def count (t : PoolTrial) : Nat := t.pool.finished.length

/-- Wait until the idle workers have left. -/
def awaitIdle (t : PoolTrial) : PoolTrial :=
  ({ t with pool := t.pool.timeOutAll } : PoolTrial).settled

/-- Shut the pool down. Have all its workers left then? -/
def shutdown (t : PoolTrial) : Bool × PoolTrial :=
  let (tokens, workers, pool) := t.pool.shutdown
  let t := ({ t with pool, halted := t.halted.insertMany tokens } : PoolTrial).settled
  (workers.all t.pool.hasExited, t)

/-- Which accepted tasks have been asked to stop, the oldest first. -/
def askedToStop (t : PoolTrial) : List Bool :=
  t.accepted.reverse.map (t.halted.contains ·.token)

end PoolTrial

end ScopeStack
