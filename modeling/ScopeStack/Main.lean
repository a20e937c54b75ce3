import ScopeStack.CommandLine

/-!
# The program

Standard input and output, arguments, variables and files. Everything is decided by
`ScopeStack.CommandLine`; here a thread is driven round by round, files are read when they are
wanted, and the output is written as it appears.
-/

open ScopeStack

/-- Read a file. -/
def readNamedFile (path : String) : IO FileContent := do
  try
    return .ok (← IO.FS.readBinFile path)
  catch
    | .noFileOrDirectory .. => return .error .missing
    | .inappropriateType .. => return .error .directory
    | e => return .error (.other (toString e))

/-- Write what has appeared on the output. -/
def flushOutput (e : Environment) : IO Environment := do
  let (text, e) := e.takeOutput
  if !text.isEmpty then
    let out ← IO.getStdout
    out.putStr text
    out.flush
  return e

/-- An environment that knows of these files only. -/
def withFiles (e : Environment) (files : FileSource) : Environment :=
  e.setMachine { e.machine with files }

/-- Drive a thread to its end. Time that passes while nobody can go on passes for the user too. A
file is read anew each time it is wanted. -/
partial def pump (e : Environment) (main : Thread) : IO (Status × Environment) := do
  let before := e.machine.clock
  match World.drive 1 main e.world with
  | .done status world => return (status, ← flushOutput { e with world })
  | .wants path main world =>
    let content ← readNamedFile path
    let e ← flushOutput { e with world }
    pump (withFiles e fun p => if p = path then some content else none) main
  | .stuck main world =>
    let e ← flushOutput (withFiles { e with world } fun _ => none)
    let passed := e.machine.clock - before
    if 1 < passed then IO.sleep passed.toUInt32
    else if !(main :: world.threads).any (·.isReady e.machine) then IO.sleep 1
    pump e main

/-- The value of a variable, if it is set. -/
def readVariable (name : String) : IO (Option (String × String)) := do
  return (← IO.getEnv name).map fun value => (name, value)

/-- Run a script, or the read loop over the standard input. -/
def main (arguments : List String) : IO UInt32 := do
  let given := (← Config.variableNames.mapM readVariable).filterMap id
  let config := Config.ofVariables given
  let input ← if arguments.isEmpty then (← IO.getStdin).readBinToEnd else pure .empty
  let e := Environment.create config (fun _ => none) input
  let (status, _) ←
    match arguments with
    | path :: _ => do
      let (status, e) ← pump e { agenda := [.load e.root path] }
      let deadline := e.machine.clock + config.exitGrace
      let (_, e) ← pump e { agenda := [.awaitProcesses deadline] }
      pure (status, e)
    | [] => pump e { agenda := [.readInput e.root (.ofBytes "<input>" input)] }
  match CommandLine.failureOf (!arguments.isEmpty) status with
  | none => return 0
  | some f =>
    (← IO.getStderr).putStr s!"Error: {f.report}\n"
    return 1
