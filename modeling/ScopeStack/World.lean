import ScopeStack.Thread

/-!
# Processes taking turns

A world is a machine and the threads of its spawned processes. A thread of the embedder, the main
thread, is driven to its end while the others take turns with it. Every thread gets the same number
of steps in a round. Steps take time, and more of it once the main thread has waited for very many
of them, so that no wait with an end to it takes too many steps. A round in which nobody can go on
lets time pass up to the next moment at which somebody can.

* `World.collect`: the workers of the pools take up tasks and become threads.
* `World.round`: every thread has a turn.
* `World.drive`: rounds until the main thread has ended, wants a file nobody has looked at yet, or
  can never go on.
-/

namespace ScopeStack

/-- A machine and the threads of its spawned processes. -/
structure World where
  machine : Machine
  threads : List Thread := []
  /-- The steps that have been taken since the clock moved last. -/
  taken : Nat := 0
  /-- The steps that have been taken while the main thread waits. -/
  waited : Nat := 0

instance : Inhabited World := ⟨{ machine := {} }⟩

/-- How many steps a thread has in a round with so many threads. The more threads there are to be
looked at, the longer a round is. -/
def quantum (threads : Nat) : Nat := 256 * (threads / 64 + 1)

/-- How many steps take a millisecond when the main thread has waited for so many. -/
def stepsPerMillisecond (waited : Nat) : Nat := if waited < 0x800000 then 4096 else 256

namespace Machine

/-- A worker goes on, and takes up a task if there is one for it. -/
def advanceWorker (m : Machine) (id : PoolId) (i : Nat) : Option Thread × Machine :=
  match m.pool? id with
  | none => (none, m)
  | some p =>
    let p := p.advance i
    let thread := (p.workers[i]?.bind (·.task?)).map fun task : Task =>
      { worker := some (id, i), agenda := task.agenda : Thread }
    (thread, m.setPool id p)

/-- The workers that can go on without having ended a task. There are none but in pools that have
been stirred. -/
def readyWorkers (m : Machine) : List WorkerRef :=
  m.stirred.toList.flatMap fun id =>
    (m.pool? id).toList.flatMap fun p => (p.ready fun _ => false).map (id, ·)

/-- Let workers go on, and collect the threads of the tasks they take up. -/
def advanceWorkers (m : Machine) : List WorkerRef → List Thread × Machine
  | [] => ([], m)
  | (id, i) :: workers =>
    let (thread, m) := m.advanceWorker id i
    let (threads, m) := m.advanceWorkers workers
    (thread.toList ++ threads, m)

end Machine

namespace World

/-- Let the workers that are ready take up tasks. -/
def collect (threads : List Thread) (m : Machine) : List Thread × Machine :=
  if m.stirred.isEmpty then (threads, m)
  else
    let workers := m.readyWorkers
    let (started, m) := { m with stirred := {} }.advanceWorkers workers
    (threads ++ started, m)

/-- A thread has a turn of at most `n` steps: how many there were, and what comes of it. -/
def turn (n : Nat) (t : Thread) (m : Machine) : Nat × Thread × Machine :=
  let (left, t, m) := t.steps n m
  (n - left, t, m)

/-- The turns of the spawned processes: the threads afterwards, and how many steps there were. A
thread that has ended gives its worker back. -/
def turns (n : Nat) (m : Machine) : List Thread → List Thread × Nat × Machine
  | [] => ([], 0, m)
  | t :: rest =>
    let (used, t, m) := turn n t m
    let (kept, m) :=
      if t.isDone then
        let (started, m) := m.advanceWorkers t.worker.toList
        (started, m)
      else ([t], m)
    let (others, more, m) := turns n m rest
    (kept ++ others, used + more, m)

/-- The next moment at which a thread goes on by itself. -/
def nextWakeTime? (threads : List Thread) : Option Nat :=
  (threads.filterMap (·.wakeTime?)).min?

/-- Every thread has a turn, the main thread first. Also says how many steps there were. -/
def round (main : Thread) : World → Thread × Nat × World
  | ⟨machine, threads, taken, waited⟩ =>
    let n := quantum threads.length
    let (used, main, machine) := turn n main machine
    let (threads, machine) := collect threads machine
    let (threads, more, machine) := turns n machine threads
    (main, used + more, ⟨machine, threads, taken, if used = 0 then waited + more else 0⟩)

/-- Steps have taken their time. -/
def spend (steps : Nat) : World → World
  | ⟨machine, threads, taken, waited⟩ =>
    let taken := taken + steps
    let pace := stepsPerMillisecond waited
    let clock := machine.clock + taken / pace
    ⟨{ machine with clock }, threads, taken % pace, waited⟩

/-- Time passes up to a moment, a millisecond at least. -/
def rest (until_ : Nat) : World → World
  | ⟨machine, threads, _, waited⟩ =>
    ⟨{ machine with clock := max until_ (machine.clock + 1) }, threads, 0, waited⟩

/-- Time passes: that of the steps, or up to the next moment at which somebody goes on. -/
def tick (main : Thread) (steps : Nat) (w : World) : Option World :=
  if steps = 0 then (nextWakeTime? (main :: w.threads)).map w.rest
  else some (w.spend steps)

/-- How driving a thread ended. -/
inductive Outcome where
  /-- The thread has ended. -/
  | done (status : Status) (w : World)
  /-- The thread, or a process, waits for a file. -/
  | wants (path : String) (main : Thread) (w : World)
  /-- Nobody can ever go on, or the rounds are used up. -/
  | stuck (main : Thread) (w : World)

/-- The file that a thread waits for. -/
def wantedFile? (m : Machine) (t : Thread) : Option String :=
  match t.agenda with
  | .load _ path :: _ => if t.isBlocked m then some path else none
  | _ => none

/-- Rounds until the main thread has ended, at most a number of them. -/
def drive : Nat → Thread → World → Outcome
  | 0, main, w => .stuck main w
  | n + 1, main, w =>
    if main.isDone then .done main.status w
    else
      let (main, steps, w) := round main w
      if main.isDone then .done main.status w
      else
        match (main :: w.threads).findSome? (wantedFile? w.machine) with
        | some path => .wants path main w
        | none =>
          match tick main steps w with
          | some w => drive n main w
          | none => .stuck main w

end World

end ScopeStack
