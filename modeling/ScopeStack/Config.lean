import ScopeStack.Text.Blank

/-!
# Settings

What an environment can be told from outside. Times are in milliseconds. Settings come from named
variables; a variable that is missing, or is not a number of 64 bits, leaves the default.
-/

namespace ScopeStack

/-- The settings of an environment. -/
structure Config where
  /-- How many workers of a pool may wait for work; `none` is the default of the machine. -/
  maxIdleWorkers : Option Nat := none
  /-- How long an idle worker waits for work before it leaves. -/
  workerKeepAlive : Nat := 60000
  /-- How long a waiting process sleeps before it looks again. -/
  receivePoll : Nat := 10
  /-- How long a shutdown waits for workers to leave. -/
  shutdownGrace : Nat := 10
  /-- How long the command line waits for processes before it exits. -/
  exitGrace : Nat := 5000
deriving DecidableEq, Inhabited

namespace Config

/-- How many workers of a pool may wait. Where nothing is asked for, a fixed number stands for the
default of the machine. -/
def idleWorkers (c : Config) : Nat := c.maxIdleWorkers.getD 8

/-- A number of 64 bits: digits behind an optional plus sign. -/
def readWord64? (text : List Char) : Option Nat :=
  let ds :=
    match text with
    | '+' :: rest => rest
    | all => all
  if ds.isEmpty || !ds.all Char.isDigit then none
  else
    let n := ds.foldl (fun n c => 10 * n + (c.toNat - '0'.toNat)) 0
    if n < 0x10000000000000000 then some n else none

/-- The number a variable holds. White space around it does not count. -/
def setting? (given : List (String × String)) (name : String) : Option Nat :=
  (given.lookup name).bind fun text => readWord64? (trimBlank text).toList

/-- The settings that variables ask for. -/
def ofVariables (given : List (String × String)) : Config :=
  let defaults : Config := {}
  { maxIdleWorkers := setting? given "SCOPEVM_MAX_IDLE_WORKERS"
    workerKeepAlive :=
      (setting? given "SCOPEVM_WORKER_KEEP_ALIVE_MS").getD defaults.workerKeepAlive
    receivePoll := (setting? given "SCOPEVM_RECEIVE_POLL_MS").getD defaults.receivePoll
    shutdownGrace := (setting? given "SCOPEVM_SHUTDOWN_GRACE_MS").getD defaults.shutdownGrace
    exitGrace := (setting? given "SCOPEVM_EXIT_GRACE_MS").getD defaults.exitGrace }

/-- The names of the variables that are read. -/
def variableNames : List String :=
  ["SCOPEVM_MAX_IDLE_WORKERS", "SCOPEVM_WORKER_KEEP_ALIVE_MS", "SCOPEVM_RECEIVE_POLL_MS",
    "SCOPEVM_SHUTDOWN_GRACE_MS", "SCOPEVM_EXIT_GRACE_MS"]

end Config

end ScopeStack
