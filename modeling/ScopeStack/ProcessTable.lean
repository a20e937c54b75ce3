import Std.Data.TreeMap
import ScopeStack.Failure

/-!
# The process table

Live processes by id, and the scopes that run them. Process 0 is the one an environment starts
with. Ids are handed out in turn from 1 up to the largest machine word and then from 1 again,
those in use left out.
-/

namespace ScopeStack

/-- The id of a process. It lives on the data stack as an integer. -/
abbrev Pid := Int

/-- The process an environment starts with. -/
def rootPid : Pid := 0

/-- The largest id that is handed out. -/
def maxPid : Pid := 0x7fffffffffffffff

/-- The id whose turn is next after another. -/
def nextPid (pid : Pid) : Pid := if pid = maxPid then 1 else pid + 1

/-- Live processes and the id handed out last. -/
structure ProcessTable where
  entries : Std.TreeMap Pid Nat := {}
  last : Pid := 0

namespace ProcessTable

instance : Inhabited ProcessTable := ⟨{}⟩

/-- Is the id in use? -/
def contains (t : ProcessTable) (pid : Pid) : Bool := t.entries.contains pid

/-- The first id after `pid` that is not in use, looking at most `n + 1` ids ahead. -/
def freeAfter (t : ProcessTable) : Nat → Pid → Pid
  | 0, pid => nextPid pid
  | n + 1, pid => if t.contains (nextPid pid) then t.freeAfter n (nextPid pid) else nextPid pid

/-- Hand out an id. No more ids are in use than the table has entries, so one more than that are
enough to look at. -/
def allocate (t : ProcessTable) : Pid × ProcessTable :=
  let pid := t.freeAfter t.entries.size t.last
  (pid, { t with last := pid })

/-- Record the scope that runs a process. -/
def insert (t : ProcessTable) (pid : Pid) (scope : Nat) : ProcessTable :=
  { t with entries := t.entries.insert pid scope }

/-- Record the scope that stands for process 0. -/
def registerRoot (t : ProcessTable) (scope : Nat) : ProcessTable := t.insert rootPid scope

/-- Take a process out of the table. -/
def erase (t : ProcessTable) (pid : Pid) : ProcessTable :=
  { t with entries := t.entries.erase pid }

/-- The scope of a process, if it is live. -/
def get? (t : ProcessTable) (pid : Pid) : Option Nat := t.entries[pid]?

/-- The scope of a live process. -/
def get (t : ProcessTable) (pid : Pid) : Except Fault Nat :=
  match t.get? pid with
  | some scope => .ok scope
  | none => .error (.noProcess pid)

/-- How many processes are live besides process 0. -/
def live (t : ProcessTable) : Nat :=
  if t.contains rootPid then t.entries.size - 1 else t.entries.size

end ProcessTable

end ScopeStack
