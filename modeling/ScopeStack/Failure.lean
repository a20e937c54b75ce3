import ScopeStack.Location

/-!
# What can go wrong

* `FaultKind`: the broad category of a failure, by which an embedder tells failures apart.
* `Fault`: the cause of a failure, one constructor per way to fail. `Fault.kind` sorts the causes
  and `Fault.message` words them; no text of a failure is made anywhere else.
* `Failure`: a cause together with the place it happened, once that place is known. A place that
  is known is never replaced (`Failure.orAt`), so the innermost one wins.
-/

namespace ScopeStack

/-- The broad category of a failure. -/
inductive FaultKind where
  | emptyStack
  | typeMismatch
  | unknownWord
  | notInterned
  | unterminatedString
  | invalidIndex
  | invalidProcess
  | alreadyPushing
  | stopped
  | unbalancedBlock
  | io
  | runtime
deriving DecidableEq, Inhabited

/-- The name a kind has in reports. -/
def FaultKind.name : FaultKind → String
  | .emptyStack => "EmptyStack"
  | .typeMismatch => "TypeMismatch"
  | .unknownWord => "UnknownWord"
  | .notInterned => "NotInterned"
  | .unterminatedString => "UnterminatedString"
  | .invalidIndex => "InvalidIndex"
  | .invalidProcess => "InvalidProcess"
  | .alreadyPushing => "AlreadyPushing"
  | .stopped => "Stopped"
  | .unbalancedBlock => "UnbalancedBlock"
  | .io => "Io"
  | .runtime => "Runtime"

/-- All kinds, in the order of their declaration. -/
def FaultKind.all : List FaultKind :=
  [.emptyStack, .typeMismatch, .unknownWord, .notInterned, .unterminatedString, .invalidIndex,
    .invalidProcess, .alreadyPushing, .stopped, .unbalancedBlock, .io, .runtime]

/-- The kind that has a name. -/
def FaultKind.ofName? (name : String) : Option FaultKind :=
  FaultKind.all.find? (·.name == name)

/-- What an operation wanted where it found something else. -/
inductive Expected where
  | integer
  | boolean
  | text
  | runnable
  | block
  | number
  | twoNumbers
  | ordered
deriving DecidableEq

/-- What was wanted, with its article. -/
def Expected.phrase : Expected → String
  | .integer => "an integer"
  | .boolean => "a boolean"
  | .text => "a string"
  | .runnable => "a block or a word"
  | .block => "a block"
  | .number => "a number"
  | .twoNumbers => "two numbers"
  | .ordered => "two numbers or a string"

/-- Why a file could not be read. -/
inductive ReadFault where
  | missing
  | directory
  | notDirectory
  | nameTooLong
  | nulInName
  | badEncoding
  | other (text : String)
deriving DecidableEq

/-- The reason in words. -/
def ReadFault.text : ReadFault → String
  | .missing => "No such file or directory (os error 2)"
  | .directory => "Is a directory (os error 21)"
  | .notDirectory => "Not a directory (os error 20)"
  | .nameTooLong => "File name too long (os error 36)"
  | .nulInName => "file name contained an unexpected NUL byte"
  | .badEncoding => "stream did not contain valid UTF-8"
  | .other text => text

/-- The cause of a failure. -/
inductive Fault where
  /-- Nothing to pop, here or on any stack the pop falls through to. -/
  | emptyStack
  /-- A value of the wrong kind. -/
  | mismatch (expected : Expected)
  /-- The process has been told to stop. -/
  | stopped
  /-- A scope is no longer in the arena. -/
  | scopeGone (scope : Nat)
  /-- No table of the chain knows the handle. -/
  | notInterned (handle : Nat)
  /-- No live process has this id. -/
  | noProcess (pid : Int)
  /-- Neither a variable nor an operation. -/
  | unknownWord (name : String)
  /-- No variable of this name to forget. -/
  | unknownVariable (name : String)
  | divisionByZero
  /-- A count or position below zero. -/
  | negativeCount (found : Int)
  | swapOutOfRange (i j size : Nat)
  | positionOutOfRange (index size : Nat)
  | characterOutOfRange (index length : Nat)
  | notACharacter (code : Int)
  | stepNotPositive
  /-- A block close where no block is open. -/
  | strayClose
  /-- A block close of the other kind than the innermost open. -/
  | crossedClose
  /-- A call of a block that runs as a process. -/
  | blockBusy (block : Nat) (pid : Int)
  /-- A spawn of a block that already runs as a process. -/
  | blockSpawned (block : Nat) (pid : Int)
  | alreadyPushing
  | notPushing
  | unreadable (path : String) (reason : ReadFault)
  /-- A line of a source that is not UTF-8. -/
  | damagedLine
  /-- A string literal that the source ends in. -/
  | unterminated
  /-- No thread could be started for a worker. -/
  | noThread (reason : String)
  /-- A failure with the wording of whoever raised it. -/
  | raised (kind : FaultKind) (text : String)
deriving DecidableEq

/-- The kind a cause belongs to. -/
def Fault.kind : Fault → FaultKind
  | .emptyStack => .emptyStack
  | .mismatch _ => .typeMismatch
  | .stopped => .stopped
  | .scopeGone _ | .notInterned _ => .notInterned
  | .noProcess _ | .blockBusy _ _ | .blockSpawned _ _ | .notPushing => .invalidProcess
  | .unknownWord _ | .unknownVariable _ => .unknownWord
  | .negativeCount _ | .swapOutOfRange _ _ _ | .positionOutOfRange _ _
  | .characterOutOfRange _ _ => .invalidIndex
  | .divisionByZero | .notACharacter _ | .stepNotPositive => .runtime
  | .strayClose | .crossedClose => .unbalancedBlock
  | .alreadyPushing => .alreadyPushing
  | .unreadable _ _ | .damagedLine | .noThread _ => .io
  | .unterminated => .unterminatedString
  | .raised kind _ => kind

/-- A cause in words. -/
def Fault.message : Fault → String
  | .emptyStack => "<empty-stack>"
  | .mismatch expected => s!"Unexpected value on stack, expected {expected.phrase}."
  | .stopped => "Scope has been stopped."
  | .scopeGone scope => s!"Scope {scope} has been discarded."
  | .notInterned handle => s!"Handle {handle} is not interned."
  | .noProcess pid => s!"Process {pid} not found."
  | .unknownWord name => s!"Word '{name}' not found."
  | .unknownVariable name => s!"Variable '{name}' not found."
  | .divisionByZero => "Division by zero."
  | .negativeCount found => s!"Expected a non-negative integer, found {found}."
  | .swapOutOfRange i j size => s!"Can not swap {i} and {j} in a stack of {size} values."
  | .positionOutOfRange index size =>
    s!"Index {index} is out of range for a stack of {size} values."
  | .characterOutOfRange index length =>
    s!"Index {index} is out of range for a string of length {length}."
  | .notACharacter code => s!"{code} is not a valid character code."
  | .stepNotPositive => "The step of times-by must be positive."
  | .strayClose => "Found a block close without a matching block open."
  | .crossedClose => "Mismatched block delimiters."
  | .blockBusy block pid => s!"Block {block} is running as process {pid}."
  | .blockSpawned block pid => s!"Block {block} is already running as process {pid}."
  | .alreadyPushing => "Already pushing data to another process."
  | .notPushing => "Not pushing data to another process."
  | .unreadable path reason => s!"Could not read file {path}: {reason.text}"
  | .damagedLine => "I/O error: stream did not contain valid UTF-8"
  | .unterminated => "Unexpected end of file in string literal."
  | .noThread reason => s!"I/O error: {reason}"
  | .raised _ text => text

/-- A cause, and the place it happened if that is known. -/
structure Failure where
  fault : Fault
  location : Option Location := none
deriving DecidableEq

namespace Failure

/-- The kind of the cause. -/
def kind (f : Failure) : FaultKind := f.fault.kind

/-- The failure as a reader sees it: the place first, if it is known. -/
def text (f : Failure) : String :=
  match f.location with
  | some l => s!"{l.text}: {f.fault.message}"
  | none => f.fault.message

/-- The failure with its kind in front, as the command line reports it. -/
def report (f : Failure) : String :=
  s!"{f.kind.name}: {f.text}"

/-- Record a place, unless a more precise one is already there. -/
def orAt (f : Failure) (l : Location) : Failure :=
  match f.location with
  | some _ => f
  | none => { f with location := some l }

@[simp] theorem orAt_fault (f : Failure) (l : Location) : (f.orAt l).fault = f.fault := by
  unfold orAt
  split <;> rfl

/-- **The first place recorded is the one that stays.** -/
@[simp] theorem orAt_orAt (f : Failure) (l l' : Location) : (f.orAt l).orAt l' = f.orAt l := by
  rcases f with ⟨fault, _ | place⟩ <;> rfl

end Failure

instance : Coe Fault Failure := ⟨fun fault => ⟨fault, none⟩⟩

end ScopeStack
