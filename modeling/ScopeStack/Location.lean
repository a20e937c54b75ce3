/-!
# Places in source text

A location names a source and counts lines and columns from one. `Location.advance` moves it past
one character: a line feed starts the next line, every other character is one column wide.
-/

namespace ScopeStack

/-- A place in a named source text. -/
structure Location where
  path : String
  line : Nat
  column : Nat
deriving DecidableEq, Inhabited

namespace Location

/-- The first character of a source. -/
def start (path : String) : Location := ⟨path, 1, 1⟩

/-- The start of a source that has no name of its own. -/
def unspecified : Location := start "unspecified"

/-- The place after one more character. -/
def advance (l : Location) (c : Char) : Location :=
  if c = '\n' then ⟨l.path, l.line + 1, 1⟩ else ⟨l.path, l.line, l.column + 1⟩

/-- How a place is shown to a reader. -/
def text (l : Location) : String :=
  s!"{l.path} ({l.line}, {l.column})"

@[simp] theorem advance_newline (l : Location) :
    l.advance '\n' = ⟨l.path, l.line + 1, 1⟩ := rfl

@[simp] theorem advance_path (l : Location) (c : Char) : (l.advance c).path = l.path := by
  unfold advance
  split <;> rfl

theorem advance_of_ne {c : Char} (l : Location) (h : c ≠ '\n') :
    l.advance c = ⟨l.path, l.line, l.column + 1⟩ := by
  simp [advance, h]

end Location

end ScopeStack
