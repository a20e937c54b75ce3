import Std.Data.TreeMap
import ScopeStack.Cell

/-!
# Tables of interned payloads

A table maps handles to payloads. It never changes what a handle stands for: inserting under a
handle that is taken leaves the table as it is.
-/

namespace ScopeStack

/-- Payloads by handle. -/
structure InternTable (α : Type) where
  entries : Std.TreeMap Handle α := {}

namespace InternTable

variable {α : Type}

instance : Inhabited (InternTable α) := ⟨{}⟩

/-- The payload of a handle. -/
def get? (t : InternTable α) (h : Handle) : Option α := t.entries[h]?

def contains (t : InternTable α) (h : Handle) : Bool := t.entries.contains h

/-- Does the handle stand for some other payload? -/
def conflicts [BEq α] (t : InternTable α) (h : Handle) (a : α) : Bool :=
  match t.get? h with
  | some b => b != a
  | none => false

/-- Put a payload under a handle, unless the handle is taken. -/
def insert (t : InternTable α) (h : Handle) (a : α) : InternTable α := ⟨t.entries.insertIfNew h a⟩

/-- Free a handle. -/
def erase (t : InternTable α) (h : Handle) : InternTable α := ⟨t.entries.erase h⟩

/-- A handle beyond all that the table holds. -/
def bound (t : InternTable α) : Handle := t.entries.maxKey?.elim 0 (· + 1)

def size (t : InternTable α) : Nat := t.entries.size

def isEmpty (t : InternTable α) : Bool := t.entries.isEmpty

theorem get?_insert (t : InternTable α) (h k : Handle) (a : α) :
    (t.insert h a).get? k = if k = h then some ((t.get? h).getD a) else t.get? k := by
  simp only [insert, get?, Std.TreeMap.getElem?_insertIfNew, Nat.compare_eq_eq]
  by_cases hk : k = h
  · subst hk
    by_cases hm : k ∈ t.entries <;> simp [hm]
  · simp [hk, Ne.symm hk]

/-- A handle that is taken stays with its payload, and nothing else changes. -/
theorem insert_of_isSome {t : InternTable α} {h : Handle} (hs : (t.get? h).isSome) (a : α) :
    t.insert h a = t := by
  obtain ⟨⟨⟨tree, hwf⟩⟩⟩ := t
  have hmem : h ∈ (⟨⟨tree, hwf⟩⟩ : Std.TreeMap Handle α) := by
    rw [Std.TreeMap.mem_iff_isSome_getElem?]
    exact hs
  have hc : tree.contains h = true := hmem
  simp only [insert, Std.TreeMap.insertIfNew, Std.DTreeMap.insertIfNew,
    Std.DTreeMap.Internal.Impl.insertIfNew, hc, if_true]

theorem get?_erase (t : InternTable α) (h k : Handle) :
    (t.erase h).get? k = if k = h then none else t.get? k := by
  simp only [erase, get?, Std.TreeMap.getElem?_erase, Nat.compare_eq_eq]
  by_cases hk : k = h
  · simp [hk]
  · simp [hk, Ne.symm hk]

/-- Nothing stands at the bound or after it. -/
theorem get?_of_bound_le {t : InternTable α} {h : Handle} (hb : t.bound ≤ h) :
    t.get? h = none := by
  refine Std.TreeMap.getElem?_eq_none fun hm => ?_
  obtain ⟨k, hk⟩ := Option.isSome_iff_exists.mp (Std.TreeMap.isSome_maxKey?_of_mem hm)
  have hle : (compare h k).isLE := Std.TreeMap.maxKey?_le.mp (fun j hj => by simp_all) h hm
  rw [Nat.isLE_compare] at hle
  rw [bound, hk] at hb
  exact absurd hb (Nat.not_le.mpr (Nat.lt_succ_of_le hle))

end InternTable

end ScopeStack
