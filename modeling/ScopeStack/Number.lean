import ScopeStack.Double.Decimal

/-!
# Numbers

Integers that fit a machine word are held as `Int64`, all others as `Int`. `machineInt?` decides
which; `Number` is the payload of the numbers that do not fit a cell.
-/

namespace ScopeStack

/-- The least machine word. -/
def minMachineInt : Int := -0x8000000000000000

/-- The largest machine word. -/
def maxMachineInt : Int := 0x7fffffffffffffff

/-- The machine word with a given value, if it is in range. -/
def machineInt? (n : Int) : Option Int64 :=
  if minMachineInt ≤ n ∧ n ≤ maxMachineInt then some (Int64.ofInt n) else none

theorem machineInt?_eq_some {n : Int} {w : Int64} (h : machineInt? n = some w) : w.toInt = n := by
  unfold machineInt? at h
  split at h
  · rename_i hr
    cases h
    have hmin : minMachineInt ≤ n := hr.1
    have hmax : n ≤ maxMachineInt := hr.2
    unfold minMachineInt at hmin
    unfold maxMachineInt at hmax
    exact Int64.toInt_ofInt_of_le (by omega) (by omega)
  · cases h

theorem machineInt?_isSome (n : Int) :
    (machineInt? n).isSome ↔ minMachineInt ≤ n ∧ n ≤ maxMachineInt := by
  unfold machineInt?
  split <;> simp_all

@[simp] theorem machineInt?_toInt (w : Int64) : machineInt? w.toInt = some w := by
  have hmin := w.le_toInt
  have hmax := w.toInt_lt
  have hr : minMachineInt ≤ w.toInt ∧ w.toInt ≤ maxMachineInt := by
    unfold minMachineInt maxMachineInt
    omega
  rw [machineInt?, if_pos hr, Int64.ofInt_toInt]

/-- A number that needs more than a cell: an integer of any size, or a double. -/
inductive Number where
  | big (n : Int)
  | double (x : Float)
deriving Inhabited

/-- Equality of payloads. Doubles compare as numbers, so zero equals negative zero, and what is
not a number differs from itself. -/
def Number.same : Number → Number → Bool
  | .big m, .big n => m == n
  | .double x, .double y => x == y
  | _, _ => false

instance : BEq Number := ⟨Number.same⟩

end ScopeStack
