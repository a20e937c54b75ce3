import ScopeStack.Environment

/-!
# The command line

With a script the file is run, and its processes are given some time to end. Without one the read
loop runs over the standard input. A failure is reported on the error stream, unless it only says
that the program has stopped.

* `CommandLine.Invocation`: what the program is started with.
* `CommandLine.Answer`: what it leaves behind.
* `CommandLine.respond`: from the one to the other.
-/

namespace ScopeStack.CommandLine

/-- What the program is started with. -/
structure Invocation where
  arguments : List String
  settings : List (String × String)
  input : ByteArray
  files : FileSource

/-- What the program leaves behind. -/
structure Answer where
  output : String
  errors : String
  code : Nat
deriving DecidableEq

/-- The failure to report, if the program failed. -/
def failureOf (script : Bool) : Status → Option Failure
  | .ok () => none
  | .error f => if script && f.kind == .stopped then none else some f

/-- The answer for a finished run. -/
def answer (e : Environment) (failure : Option Failure) : Answer :=
  match failure with
  | none => ⟨e.machine.output, "", 0⟩
  | some f => ⟨e.machine.output, s!"Error: {f.report}\n", 1⟩

/-- Run a script, then wait for its processes. -/
def runScript (e : Environment) (path : String) : Option (Status × Environment) := do
  let (status, e) ← e.load path
  let (_, e) ← e.join e.machine.config.exitGrace
  return (status, e)

/-- The whole program; no answer if it never ends. -/
def respond (i : Invocation) : Option Answer :=
  let e := Environment.create (Config.ofVariables i.settings) i.files i.input
  match i.arguments with
  | path :: _ => (runScript e path).map fun (status, e) => answer e (failureOf true status)
  | [] => e.run.map fun (status, e) => answer e (failureOf false status)

end ScopeStack.CommandLine
