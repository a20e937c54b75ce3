import ScopeStack.Machine.Call
import ScopeStack.Source.Lexer

/-!
# Jobs

What a process still has to do is a list of jobs, its agenda. A word that runs code does not call
it; it puts jobs on the agenda: first the code, then what is to be done when the code has ended.
So the state of a process between two steps is plain data, and processes can take turns.
-/

namespace ScopeStack

/-- One thing a process has to do. -/
inductive Job where
  /-- Execute a token. -/
  | token (c : Context) (t : Token)
  /-- Execute the tokens of a source. -/
  | source (c : Context) (from_ : Cursor)
  /-- Execute the tokens of a file. -/
  | load (c : Context) (path : String)
  /-- Execute one cell of code. -/
  | cell (c : Context) (cell : Cell)
  /-- Run the code of the scope, as it is now. -/
  | body (c : Context)
  /-- Go through instructions. -/
  | code (c : Context) (rest : List Instruction)
  /-- Run a block, or a word given by its name. -/
  | value (c : Context) (v : Value)
  /-- A call of a block is over, however it ended. -/
  | leave (c callee : Context) (call : Call)
  /-- A failure that has no place yet happened here. -/
  | stamp (l : Location)
  /-- Let go of what a control word popped, however running it ended. -/
  | discard (c : Context) (vs : List Value)
  | push (c : Context) (v : Value)
  /-- Fail. -/
  | raise (f : Fault)
  /-- Run the condition of a loop. -/
  | test (c : Context) (condition body : Value)
  /-- The condition has run: run the body and start over, or stop. -/
  | choose (c : Context) (condition body : Value)
  /-- Run a counted loop from a counter on. There is none if it would be past the range of machine
  words. -/
  | count (c : Context) (runnable : Value) (counter : Option Int64) (limit step : Int64)
  /-- Wait until the innermost stack has this many values. -/
  | receive (c : Context) (size : Nat)
  | sleep (c : Context) (deadline : Nat)
  /-- Shut a pool down. -/
  | closePool (id : PoolId)
  /-- Wait for workers of a pool to leave. -/
  | awaitWorkers (id : PoolId) (workers : List Nat) (deadline : Nat)
  /-- Report how a process ended. -/
  | report (pid : Pid)
  /-- A process has ended. -/
  | finish (scope : ScopeId) (pid : Pid)
  /-- Execute the tokens of an input; a failing token does not end it. -/
  | readInput (c : Context) (from_ : Cursor)
  /-- A token of the input has been executed. -/
  | resumeInput (c : Context) (from_ : Cursor)
  /-- Wait until no process but the first is live. -/
  | awaitProcesses (deadline : Nat)

/-- Jobs in front of an agenda. -/
def Job.before : List Job → List Job → List Job
  | [], agenda => agenda
  | job :: jobs, agenda => job :: before jobs agenda

theorem Job.before_eq (jobs agenda : List Job) : before jobs agenda = jobs ++ agenda := by
  induction jobs with
  | nil => rfl
  | cons job jobs ih => rw [before, ih, List.cons_append]

/-- Jobs that belong to a place, as a failure will say. -/
def Job.located (l : Option Location) (jobs : List Job) : List Job :=
  if jobs.isEmpty then [] else jobs ++ l.toList.map .stamp

/-- The agenda of a process that runs a scope as its body. -/
def Task.agenda (t : Task) : List Job :=
  [.body (.ofProcess t.scope t.halt), .report t.pid, .finish t.scope t.pid]

/-- Shut these pools down, one after the other. -/
def Job.closePools (ids : List PoolId) : List Job := ids.map .closePool

end ScopeStack
