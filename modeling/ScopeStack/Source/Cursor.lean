import ScopeStack.Failure

/-!
# Reading a source character by character

A source is read a line at a time, and a line that is not UTF-8 cannot be read. What is left of a
source is therefore a list of *glyphs*: characters, and a mark in the place of each damaged line.

* `Glyph`, `glyphsOfBytes`: the glyphs of a byte source. A line runs up to and including its line
  feed; a damaged one is a single mark.
* `Cursor`: the glyphs not yet consumed and the place they start at.
* `Cursor.peek`, `Cursor.next`: look at the next character, or take it. A mark fails as soon as it
  is looked at, and is gone afterwards.
-/

namespace ScopeStack

/-- A character of a source, or a line that could not be read. -/
inductive Glyph where
  | char (c : Char)
  | damaged
deriving DecidableEq

/-- The lines of a byte source, each with its line feed. -/
def linesOfBytes : List UInt8 → List (List UInt8)
  | [] => []
  | b :: rest =>
    if b = 10 then [b] :: linesOfBytes rest
    else
      match linesOfBytes rest with
      | [] => [[b]]
      | line :: lines => (b :: line) :: lines

/-- The glyphs of one line. -/
def glyphsOfLine (line : List UInt8) : List Glyph :=
  match String.fromUTF8? ⟨line.toArray⟩ with
  | some text => text.toList.map .char
  | none => [.damaged]

/-- The glyphs of a byte source. -/
def glyphsOfBytes (bytes : List UInt8) : List Glyph :=
  (linesOfBytes bytes).flatMap glyphsOfLine

/-- The lines of a source put together again are the source. -/
theorem flatten_linesOfBytes (bytes : List UInt8) : (linesOfBytes bytes).flatten = bytes := by
  induction bytes with
  | nil => rfl
  | cons b rest ih =>
    unfold linesOfBytes
    split
    · simp [ih]
    · split <;> simp_all

/-- What is left of a source, and where it starts. -/
structure Cursor where
  location : Location
  rest : List Glyph

namespace Cursor

/-- A cursor at the start of a text. -/
def ofText (path text : String) : Cursor :=
  ⟨.start path, text.toList.map .char⟩

/-- A cursor at the start of a byte source. -/
def ofBytes (path : String) (bytes : ByteArray) : Cursor :=
  ⟨.start path, glyphsOfBytes bytes.toList⟩

/-- Look at the next character without consuming it; `none` at the end. -/
def peek (c : Cursor) : Except Failure (Option Char) × Cursor :=
  match c.rest with
  | [] => (.ok none, c)
  | .char x :: _ => (.ok (some x), c)
  | .damaged :: rest => (.error Fault.damagedLine, ⟨c.location, rest⟩)

/-- Consume the next character; `none` at the end. -/
def next (c : Cursor) : Except Failure (Option Char) × Cursor :=
  match c.rest with
  | [] => (.ok none, c)
  | .char x :: rest => (.ok (some x), ⟨c.location.advance x, rest⟩)
  | .damaged :: rest => (.error Fault.damagedLine, ⟨c.location, rest⟩)

end Cursor

end ScopeStack
