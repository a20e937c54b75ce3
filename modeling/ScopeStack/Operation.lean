import Std.Data.TreeMap

/-!
# Operations

An operation gives a word its meaning. What it does is named here by a value and carried out by
the modules under `ScopeStack.Word`; so a table of operations is plain data.

* one type per family of words, and `Effect`, which puts the families together with what an
  embedder may add;
* `Operation`: a name, how to describe it, and its effect;
* `OperationTable`: at most one operation per name; a later one replaces an earlier one.
-/

namespace ScopeStack

/-! ## 1. The families of words -/

/-- Words that print. -/
inductive OutputWord where
  | print
  | printTight
  | printStack
  | emit
  | newline
  | space
deriving DecidableEq

/-- Words that move values about on the stack. -/
inductive StackWord where
  | depth
  | swap
  | swapAt
  | dup
  | over
  | rot
  | drop
  | swapPairs
  | dupPair
  | overPair
  | dropPair
  | clear
deriving DecidableEq

/-- Words that calculate. -/
inductive ArithWord where
  | add
  | subtract
  | multiply
  | divide
  | modulo
  | divideModulo
deriving DecidableEq

/-- Words that compare, and the logic of booleans. -/
inductive CompareWord where
  | looseEq
  | identical
  | less
  | greater
  | lessOrEqual
  | greaterOrEqual
  | and
  | or
  | not
deriving DecidableEq

/-- Words on strings. -/
inductive TextWord where
  | length
  | charAt
  | eq
  | eqIgnoringCase
  | lower
  | upper
  | trim
  | substring
  | replaceFirst
  | replaceAll
  | find
deriving DecidableEq

/-- Words that take the stack for a list. -/
inductive ListWord where
  | copyAt
  | removeAt
  | removeAll
  | remove
  | get
  | set
  | reverse
  | sort
  | search
  | replaceFirst
  | replaceAll
deriving DecidableEq

/-- Words that run blocks. -/
inductive ControlWord where
  | run
  | branch
  | branchElse
  | otherwise
  | when
  | unless
  | whileTrue
  | times
  | timesBy
deriving DecidableEq

/-- Words on variables and source text. -/
inductive ScopeWord where
  | define
  | defineStrict
  | forget
  | eval
  | load
deriving DecidableEq

/-- Words on processes. -/
inductive ProcessWord where
  | spawn
  | self
  | parent
  | receive
  | send
  | sendAll
  | take
  | takeAll
  | sendParent
  | sendAllParent
  | takeParent
  | takeAllParent
  | beginPush
  | endPush
  | quit
  | sleep
deriving DecidableEq

/-- What an embedder may give a word to do. -/
inductive HostAction where
  /-- Greet whoever is named on the stack. -/
  | greet
  /-- Turn a string into the name of a word. -/
  | nameWord
  /-- Fail with the given text. -/
  | fail (text : String)
  /-- Run a source text. -/
  | source (text : String)
  | nothing
deriving DecidableEq

/-- What an operation does. -/
inductive Effect where
  | output (w : OutputWord)
  | stack (w : StackWord)
  | arith (w : ArithWord)
  | compare (w : CompareWord)
  | text (w : TextWord)
  | list (w : ListWord)
  | control (w : ControlWord)
  | scope (w : ScopeWord)
  | process (w : ProcessWord)
  | host (a : HostAction)
deriving DecidableEq

/-! ## 2. Operations and their tables -/

/-- A word, what it is said to do, what it takes and leaves, and what it does. -/
structure Operation where
  name : String
  description : String
  signature : String
  effect : Effect
deriving DecidableEq

/-- Operations by name. -/
structure OperationTable where
  entries : Std.TreeMap String Operation := {}

namespace OperationTable

/-- The operation of a name. -/
def find? (t : OperationTable) (name : String) : Option Operation := t.entries[name]?

/-- Add an operation, in place of any other of its name. -/
def insert (t : OperationTable) (op : Operation) : OperationTable := ⟨t.entries.insert op.name op⟩

/-- A table of operations; of two with one name the later counts. -/
def ofList (ops : List Operation) : OperationTable := ops.foldl insert {}

/-- Take the operation of a name out. -/
def erase (t : OperationTable) (name : String) : OperationTable := ⟨t.entries.erase name⟩

def size (t : OperationTable) : Nat := t.entries.size

def isEmpty (t : OperationTable) : Bool := t.entries.isEmpty

/-- The names in the table, in the order of their code points. -/
def names (t : OperationTable) : List String := t.entries.keys

@[simp] theorem find?_insert_self (t : OperationTable) (op : Operation) :
    (t.insert op).find? op.name = some op := by
  simp [insert, find?]

theorem find?_insert_of_ne (t : OperationTable) (op : Operation) {name : String}
    (h : op.name ≠ name) : (t.insert op).find? name = t.find? name := by
  simp [insert, find?, Std.TreeMap.getElem?_insert, h]

end OperationTable

end ScopeStack
