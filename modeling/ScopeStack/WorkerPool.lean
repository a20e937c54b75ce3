import ScopeStack.Failure

/-!
# A pool of workers

A pool runs tasks on workers. A task is handed to an idle worker if there is one, else a worker is
started for it; busy workers are never capped. A worker that finds no task waits for one, unless
enough workers wait already, and gives up when the wait has lasted too long. Shutting a pool down
asks every task to stop and every worker to leave once no task is queued.

Every function here is one critical section of the pool: what one thread does while it holds the
lock.

* `Ticket`: a task that was handed in.
* `WorkerState`, `WorkerPool`: the workers, by number, and what the lock guards.
* `WorkerPool.submit`: queue a task and see to it that a worker comes for it.
* `WorkerPool.advance`: what a worker does when it gets the lock.
* `WorkerPool.wake`: a waiting worker wakes up, by time or for no reason.
* `WorkerPool.shutdown`: ask everything to end.
-/

namespace ScopeStack

/-- Names a flag that asks a piece of work to stop. A flag that is set stays set. -/
abbrev HaltToken := Nat

/-- A task as it was handed in. The number of its submission tells it from all others. -/
structure Ticket (τ : Type) where
  number : Nat
  token : HaltToken
  work : τ
deriving DecidableEq

/-- What one worker is doing. -/
inductive WorkerState (τ : Type) where
  /-- Started, and on its way to its first task. -/
  | starting
  /-- Waiting to be notified. -/
  | waiting
  /-- No longer waiting, but without the lock yet. The flag says whether its time ran out. -/
  | woken (timedOut : Bool)
  | busy (task : τ)
  | exited
deriving DecidableEq

namespace WorkerState

variable {τ : Type}

def isWaiting : WorkerState τ → Bool
  | .waiting => true
  | _ => false

def isExited : WorkerState τ → Bool
  | .exited => true
  | _ => false

/-- The task a worker is running. -/
def task? : WorkerState τ → Option τ
  | .busy t => some t
  | _ => none

end WorkerState

/-- The state of a pool. -/
structure WorkerPool (τ : Type) where
  /-- How many workers may wait at a time. -/
  maxIdle : Nat
  /-- Tasks no worker has taken yet, the oldest first. -/
  queue : List τ := []
  /-- All workers ever started, by number. -/
  workers : Array (WorkerState τ) := #[]
  /-- How many workers have not left. -/
  live : Nat := 0
  /-- How many workers are waiting, or have been and do not hold the lock yet. -/
  idle : Nat := 0
  /-- The workers that a shutdown waits for. -/
  joinable : List Nat := []
  /-- The tokens of the tasks that were accepted, as far as they are not known to be set. -/
  tokens : List HaltToken := []
  shutDown : Bool := false
  /-- The tasks that have run, the latest first. -/
  finished : List τ := []

namespace WorkerPool

variable {τ : Type}

/-! ## 1. The steps of a worker -/

/-- The worker of a number gets a new state. -/
def setWorker (p : WorkerPool τ) (i : Nat) (s : WorkerState τ) : WorkerPool τ :=
  { p with workers := p.workers.setIfInBounds i s }

/-- A worker leaves. -/
def leave (p : WorkerPool τ) (i : Nat) : WorkerPool τ :=
  { p.setWorker i .exited with live := p.live - 1 }

/-- A worker that holds the lock takes the oldest task; without one it waits, or leaves if the pool
is shut down or enough workers are idle. -/
def takeTask (p : WorkerPool τ) (i : Nat) : WorkerPool τ :=
  match p.queue with
  | t :: rest => { p.setWorker i (.busy t) with queue := rest }
  | [] =>
    if p.shutDown || p.maxIdle ≤ p.idle then p.leave i
    else { p.setWorker i .waiting with idle := p.idle + 1 }

/-- A worker gets the lock: it starts, has ended its task, or has been woken. One whose time ran
out leaves if there is still no task. -/
def advance (p : WorkerPool τ) (i : Nat) : WorkerPool τ :=
  match p.workers[i]? with
  | some .starting => p.takeTask i
  | some (.busy t) => { p with finished := t :: p.finished }.takeTask i
  | some (.woken timedOut) =>
    let p := { p with idle := p.idle - 1 }
    if timedOut && p.queue.isEmpty then p.leave i else p.takeTask i
  | some .waiting | some .exited | none => p

/-- A waiting worker wakes up, because its time has run out or for no reason at all. -/
def wake (p : WorkerPool τ) (i : Nat) (timedOut : Bool) : WorkerPool τ :=
  match p.workers[i]? with
  | some .waiting => p.setWorker i (.woken timedOut)
  | _ => p

/-! ## 2. Submitting and shutting down -/

/-- The worker that a notification reaches: the chosen one if it waits, else the first that does. -/
def notified? (p : WorkerPool τ) (chosen : Nat) : Option Nat :=
  match p.workers[chosen]? with
  | some .waiting => some chosen
  | _ => p.workers.findIdx? (·.isWaiting)

/-- Notify one waiting worker, if there is one. -/
def notifyOne (p : WorkerPool τ) (chosen : Nat) : WorkerPool τ :=
  match p.notified? chosen with
  | some i => p.wake i false
  | none => p

/-- Has the worker of a number left? -/
def hasExited (p : WorkerPool τ) (i : Nat) : Bool :=
  p.workers[i]?.any (·.isExited)

/-- Start a worker. -/
def startWorker (p : WorkerPool τ) : WorkerPool τ :=
  { p with
    workers := p.workers.push .starting
    live := p.live + 1
    joinable := p.joinable.filter (fun i => !p.hasExited i) ++ [p.workers.size] }

/-- Queue a task. The idle workers are notified first; where there are too few of them a worker is
started, which may fail. `isSet` tells which tokens are set, `chosen` which waiting worker a
notification reaches, and `threadFault` why no thread can be started, if none can. -/
def submit (p : WorkerPool τ) (isSet : HaltToken → Bool) (chosen : Nat)
    (threadFault : Option String) (token : HaltToken) (task : τ) :
    Except Fault Unit × WorkerPool τ :=
  if p.shutDown then (.error .stopped, p)
  else
    let p := { p with tokens := p.tokens.filter (!isSet ·) ++ [token] }
    let queued := { p with queue := p.queue ++ [task] }
    if queued.queue.length ≤ queued.idle then (.ok (), queued.notifyOne chosen)
    else
      match threadFault with
      | none => (.ok (), queued.startWorker)
      | some reason => (.error (.noThread reason), p)

/-- Every waiting worker is notified. -/
def notifyAll (p : WorkerPool τ) : WorkerPool τ :=
  { p with workers := p.workers.map fun s => if s.isWaiting then .woken false else s }

/-- Shut the pool down: the tokens to be set, the workers to wait for, and the pool. -/
def shutdown (p : WorkerPool τ) : List HaltToken × List Nat × WorkerPool τ :=
  (p.tokens, p.joinable, { p.notifyAll with shutDown := true, joinable := [] })

/-! ## 3. Looking at a pool -/

/-- The tasks that workers are running. -/
def running (p : WorkerPool τ) : List τ :=
  p.workers.toList.filterMap (·.task?)

/-! ## 4. Letting the workers go on -/

/-- Can the worker of a number go on by itself, when `done` tells which tasks are over? -/
def canAdvance (p : WorkerPool τ) (done : τ → Bool) (i : Nat) : Bool :=
  match p.workers[i]? with
  | some .starting | some (.woken _) => true
  | some (.busy t) => done t
  | _ => false

/-- The numbers of the workers that can go on by themselves. -/
def ready (p : WorkerPool τ) (done : τ → Bool) : List Nat :=
  (List.range p.workers.size).filter (p.canAdvance done)

/-- Let all workers that can go on do so, time and again until none can, at most a number of
times. -/
def settle (done : τ → Bool) : Nat → WorkerPool τ → WorkerPool τ
  | 0, p => p
  | n + 1, p =>
    match p.ready done with
    | [] => p
    | workers => settle done n (workers.foldl (·.advance ·) p)

/-- Let the workers go on until none can: in each round every worker that goes on ends a task,
starts one, or begins to wait. -/
def settled (p : WorkerPool τ) (done : τ → Bool) : WorkerPool τ :=
  p.settle done (2 * (p.queue.length + p.workers.size) + 2)

/-- The time of every waiting worker runs out. -/
def timeOutAll (p : WorkerPool τ) : WorkerPool τ :=
  (List.range p.workers.size).foldl (fun p i => p.wake i true) p

end WorkerPool

end ScopeStack
