import ScopeStack.Vocabulary
import ScopeStack.World

/-!
# Environments

An environment is a complete instance of the language: a world, the context of its top level, and
the input its read loop consumes. What runs code is driven to its end and so has an answer only if
it ends (`Environment.complete`); everything else is a single action (`Environment.act`).
-/

namespace ScopeStack

/-- An instance of the language. -/
structure Environment where
  world : World
  /-- The top level. -/
  root : Context
  /-- What the read loop reads; it is read once. -/
  input : Option ByteArray := none

namespace Environment

/-! ## 1. Starting -/

/-- A machine with a top level that knows the vocabulary. -/
def freshMachine (config : Config) (files : FileSource) : ScopeId × Machine :=
  let (root, arena) := ({} : Arena).createRoot Vocabulary.defaults
  (root, { arena, processes := ({} : ProcessTable).registerRoot root, config, files })

/-- A new environment. -/
def create (config : Config) (files : FileSource) (input : ByteArray) : Environment :=
  let (root, machine) := freshMachine config files
  { world := { machine }, root := .ofProcess root 0, input := some input }

/-- The state of the machine. -/
def machine (e : Environment) : Machine := e.world.machine

/-- An environment with another machine. -/
def setMachine (e : Environment) (m : Machine) : Environment :=
  { e with world := { e.world with machine := m } }

/-! ## 2. Acting -/

/-- How many rounds anything may take. -/
def patience : Nat := 1000000000

/-- Do an agenda to its end, while the processes take turns. There is no answer if it never
ends. -/
def complete (e : Environment) (agenda : List Job) : Option (Status × Environment) :=
  match World.drive patience { agenda } e.world with
  | .done status world => some (status, { e with world })
  | .wants _ _ _ | .stuck _ _ => none

/-- A single action. -/
def act {α : Type} (e : Environment) (a : Action α) : Except Failure α × Environment :=
  let (result, m) := a.outcome e.machine
  (result, e.setMachine m)

/-- An action that leaves jobs to be done. -/
def actThen {α : Type} (e : Environment) (a : Action (α × List Job)) :
    Option (Except Failure α × Environment) :=
  match e.act a with
  | (.error f, e) => some (.error f, e)
  | (.ok (x, jobs), e) => (e.complete jobs).map fun (status, e) => (status.map fun _ => x, e)

/-! ## 3. Running code -/

/-- Run source text at the top level. The first failure ends it. -/
def source (e : Environment) (path text : String) : Option (Status × Environment) :=
  e.complete [.source e.root (.ofText path text)]

/-- Run source text that has no name. -/
def eval (e : Environment) (text : String) : Option (Status × Environment) :=
  e.source "<eval>" text

/-- Run a source file. -/
def load (e : Environment) (path : String) : Option (Status × Environment) :=
  e.complete [.load e.root path]

/-- The read loop: execute the input token by token. A failure of a token is written to the output
and the loop goes on; it ends with the input, or once the top level has been stopped. -/
def run (e : Environment) : Option (Status × Environment) :=
  match e.input with
  | none => some (.ok (), e)
  | some bytes =>
    ({ e with input := none } : Environment).complete
      [.readInput e.root (.ofBytes "<input>" bytes)]

/-- Run a block, or a word given by its name. -/
def runValue (e : Environment) (v : Value) : Option (Status × Environment) :=
  e.complete [.value e.root v]

/-- Run the code of the top level. -/
def runRoot (e : Environment) : Option (Status × Environment) := e.complete [.body e.root]

/-- Intern a value and execute its cell. -/
def executeValue (e : Environment) (v : Value) : Option (Status × Environment) :=
  e.actThen do return ((), [.cell e.root (← e.root.internValue v)])

/-- Let go of a value as a control word does. -/
def discard (e : Environment) (v : Value) : Option (Status × Environment) :=
  e.complete [.discard e.root [v]]

/-- Forget a variable. Was it bound? -/
def forget (e : Environment) (name : String) : Option (Except Failure Bool × Environment) :=
  e.actThen do
    match ← e.root.forget name with
    | some pools => return (true, Job.closePools pools)
    | none => return (false, [])

/-! ## 4. Processes -/

/-- How many spawned processes are live. -/
def live (e : Environment) : Nat := e.machine.processes.live

/-- Wait for all spawned processes to end, for some milliseconds. Have they? -/
def join (e : Environment) (timeout : Nat) : Option (Bool × Environment) :=
  (e.complete [.awaitProcesses (e.machine.clock + timeout)]).map fun (_, e) => (e.live == 0, e)

/-- Wait until the stack of the top level has a number of values. -/
def receive (e : Environment) (size : Nat) : Option (Status × Environment) :=
  e.complete [.receive e.root size]

/-- Let some milliseconds pass. -/
def sleep (e : Environment) (milliseconds : Nat) : Option (Status × Environment) :=
  e.complete [.sleep e.root (e.machine.clock + milliseconds)]

/-- Stop the top level and every process it has spawned. -/
def stop (e : Environment) : Option (Status × Environment) :=
  e.actThen do return ((), Job.closePools (← e.root.stop))

/-! ## 5. The output -/

/-- What has been written since the last time, and the environment that waits for more. -/
def takeOutput (e : Environment) : String × Environment :=
  (e.machine.output, e.setMachine { e.machine with output := "" })

end Environment

end ScopeStack
