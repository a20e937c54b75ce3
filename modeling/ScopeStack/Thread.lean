import ScopeStack.Word.Jobs

/-!
# One process, step by step

A thread is an agenda and how the work before it ended. A step takes the first job. As long as all
is well a job is started and may put further jobs in front; after a failure jobs are passed over,
except those that have to be done however the work before them ended.

* `Job.start`: a job when all is well; `Job.settle`: a job after a failure.
* `Job.isBlocked`: a job that has to wait for others, for a file, or for time to pass.
* `Thread.step`: the step; there is one exactly if the thread is ready (`Thread.isSome_step`), that
  is, if its agenda is not empty and the first job is not blocked.
* `Thread.steps`: as many steps as there are, up to a number of them (`Thread.steps_succ`). What is
  left of the number tells how many there were.
-/

namespace ScopeStack

/-- A worker of a pool. -/
abbrev WorkerRef := PoolId × Nat

/-- How the work so far has ended. -/
abbrev Status := Except Failure Unit

/-! ## 1. Waiting -/

/-- Is there a worker among these that has not left, other than the one that asks? -/
def Machine.workersPending (m : Machine) (self : Option WorkerRef) (id : PoolId)
    (workers : List Nat) : Bool :=
  (m.pool? id).any fun p => workers.any fun i => !p.hasExited i && self != some (id, i)

/-- Has the job to wait? A process that has been told to stop does not wait for values or time. -/
def Job.isBlocked (self : Option WorkerRef) (m : Machine) : Job → Bool
  | .receive c size =>
    match (c.stackSize.outcome m).1 with
    | .ok available => available < size && !c.isStopped m
    | .error _ => false
  | .sleep c deadline => m.clock < deadline && !c.isStopped m
  | .load _ path => (m.files path).isNone
  | .awaitWorkers id workers deadline =>
    m.clock < deadline && m.workersPending self id workers
  | .awaitProcesses deadline => m.clock < deadline && m.processes.live != 0
  | _ => false

/-- The time at which a blocked job goes on even if nothing else happens. -/
def Job.wakeTime? : Job → Option Nat
  | .sleep _ deadline | .awaitWorkers _ _ deadline | .awaitProcesses deadline => some deadline
  | _ => none

/-! ## 2. Starting a job -/

open ScopeStack.Action

/-- Shut a pool down and wait for its workers. -/
def shutPool (id : PoolId) : Action (List Job) := do
  let m ← get
  let (workers, closed) := m.closePool id
  set closed
  return [.awaitWorkers id workers (m.clock + m.config.shutdownGrace)]

/-- A process ends. -/
def finishProcess (scope : ScopeId) (pid : Pid) : Action (List Job) := do
  let (pools, m) := (← get).finishProcess scope pid
  set m
  return Job.closePools pools

/-- A stack that only one call used goes when the call is over. -/
@[inline] def dropCallStack (call : Call) : Action Unit :=
  if call.shares then pure () else modifyArena (·.dropStack call.stack)

/-- Do the next job when all is well. -/
@[inline] def Job.start : Job → Action (List Job)
  | .token c t => do
    c.checkRunning
    return Job.located t.location (← locating t.location (c.compileToken t))
  | .source c cursor =>
    match cursor.scan with
    | .token t after => return [.token c t, .source c after]
    | .finished _ => return []
    | .failed f _ => throw f
  | .load c path => do
    match (← get).files path with
    | none => return []
    | some content =>
      match content.text with
      | .ok text => return [.source c (.ofText path text)]
      | .error reason => fail (.unreadable path reason)
  | .cell c x => c.runCell x
  | .body c => do
    c.checkRunning
    return [.code c (← getScope c.scope).code.toList]
  | .code _ [] => return []
  | .code c (i :: rest) => do
    c.checkRunning
    let jobs ← locating i.location (c.runCell i.cell)
    return Job.before (Job.located i.location jobs) (if rest.isEmpty then [] else [.code c rest])
  | .value c v => c.runValue v
  | .leave c callee call => do
    Context.endCall call
    c.handBack callee call
    dropCallStack call
    return []
  | .stamp _ => return []
  | .discard c vs => return Job.closePools (← c.discardAll vs)
  | .push c v => do
    c.push v
    return []
  | .raise f => fail f
  | .test c condition act => return [.value c condition, .choose c condition act]
  | .choose c condition act => do
    if ← c.popBool then return [.value c act, .test c condition act]
    else return []
  | .count _ _ none _ _ => return []
  | .count c runnable (some counter) limit step => do
    if limit ≤ counter then return []
    c.push (.int counter)
    return [.value c runnable, .count c runnable (ArithOp.add.onWords counter step) limit step]
  | .receive c size => do
    if (← c.stackSize) < size then c.checkRunning
    return []
  | .sleep c _ => do
    c.checkRunning
    return []
  | .closePool id => shutPool id
  | .awaitWorkers _ _ _ => return []
  | .report _ => return []
  | .finish scope pid => finishProcess scope pid
  | .readInput c cursor => do
    if c.isStopped (← get) then return []
    match cursor.scan with
    | .token t after => return [.token c t, .resumeInput c after]
    | .finished _ => return []
    | .failed f _ => throw f
  | .resumeInput c after => return [.readInput c after]
  | .awaitProcesses _ => return []

/-! ## 3. After a failure -/

/-- Do what a job has to do after a failure: how the work stands then, and further jobs. -/
def Job.settle (f : Failure) : Job → StateM Machine (Status × List Job)
  | .stamp l => return (.error (f.orAt l), [])
  | .leave _ _ call => do
    let _ ← (do Context.endCall call; dropCallStack call : Action Unit).outcome
    return (.error f, [])
  | .discard c vs => do
    match ← (c.discardAll vs).outcome with
    | .ok pools => return (.error f, Job.closePools pools)
    | .error e => return (.error e, [])
  | .closePool id => do
    match ← (shutPool id).outcome with
    | .ok jobs => return (.error f, jobs)
    | .error _ => return (.error f, [])
  | .report pid => do
    if f.kind != .stopped then
      modify fun m => { m with output := m.output ++ s!"{f.text} in process {pid}\n" }
    return (.ok (), [])
  | .finish scope pid => do
    match ← (finishProcess scope pid).outcome with
    | .ok jobs => return (.ok (), jobs)
    | .error _ => return (.ok (), [])
  | .resumeInput c after => do
    if f.kind == .stopped || c.isStopped (← get) then return (.ok (), [])
    else do
      modify fun m => { m with output := m.output ++ f.text ++ "\n" }
      return (.ok (), [.readInput c after])
  | _ => return (.error f, [])

/-- Waiting for workers goes on after a failure; no other wait does. -/
def Job.outlastsFailure : Job → Bool
  | .awaitWorkers _ _ _ => true
  | _ => false

/-! ## 4. Threads -/

/-- A process under way: the worker that runs it, how its work stands, and what is left to do. -/
structure Thread where
  worker : Option WorkerRef := none
  status : Status := .ok ()
  agenda : List Job

namespace Thread

/-- Is there nothing left to do? -/
def isDone (t : Thread) : Bool := t.agenda.isEmpty

/-- Has the thread to wait before it can go on? -/
@[inline] def isBlocked (t : Thread) (m : Machine) : Bool :=
  match t.agenda with
  | [] => false
  | job :: _ => (t.status.isOk || job.outlastsFailure) && job.isBlocked t.worker m

/-- One job, whatever the status, and whether or not it should wait. -/
@[inline] def perform (t : Thread) (job : Job) (rest : List Job) (m : Machine) : Thread × Machine :=
  match t.status with
  | .ok () =>
    match job.start.run m with
    | .ok jobs m => ({ t with agenda := Job.before jobs rest }, m)
    | .error f m => ({ t with status := .error f, agenda := rest }, m)
  | .error f =>
    let ((status, jobs), m) := (job.settle f).run m
    ({ t with status, agenda := Job.before jobs rest }, m)

/-- The next step, if there is one. -/
def step (t : Thread) (m : Machine) : Option (Thread × Machine) :=
  match t.agenda with
  | [] => none
  | job :: rest => if t.isBlocked m then none else some (t.perform job rest m)

/-- Can the thread go on? -/
def isReady (t : Thread) (m : Machine) : Bool := !t.isDone && !t.isBlocked m

/-- There is a next step exactly if the thread is ready. -/
theorem isSome_step (t : Thread) (m : Machine) : (t.step m).isSome = t.isReady m := by
  unfold step isReady isDone
  split
  · simp_all
  · by_cases h : t.isBlocked m <;> simp_all

/-- As many steps as there are, at most `n`, and how many of these are left. -/
def steps : Nat → Thread → Machine → Nat × Thread × Machine
  | 0, t, m => (0, t, m)
  | n + 1, t, m =>
    match t.agenda with
    | [] => (n + 1, t, m)
    | job :: rest =>
      if t.isBlocked m then (n + 1, t, m)
      else
        let (t, m) := t.perform job rest m
        steps n t m

theorem steps_succ (n : Nat) (t : Thread) (m : Machine) :
    steps (n + 1) t m =
      match t.step m with
      | none => (n + 1, t, m)
      | some (t, m) => steps n t m := by
  rw [steps, step]
  split
  · rfl
  · by_cases h : t.isBlocked m
    · rw [if_pos h, if_pos h]
    · rw [if_neg h, if_neg h]

/-- The time at which a blocked thread goes on even if nothing else happens. -/
def wakeTime? (t : Thread) : Option Nat := t.agenda.head?.bind (·.wakeTime?)

end Thread

end ScopeStack
