import ScopeStack.Source.Cursor

/-!
# A source that is pulled a line at a time

A cursor has all that is left of its source. A source that is still being written, such as what is
typed at a prompt, is a reader: it hands out one line at a time, and a line is asked for when the
characters of the last one are used up. Each line is decoded by itself.

* `cutLine`: the line a reader hands out next, and what it keeps.
* `SourceBuffer`: a reader, and the characters pulled from it that are not consumed yet.
* `SourceBuffer.fill`: pull lines until there is a character or nothing to pull.
* `SourceBuffer.peek`, `SourceBuffer.next`: look at the next character, or take it.
-/

namespace ScopeStack

/-- The first line of some bytes, up to and including its line feed, and the bytes behind it. -/
def cutLine : List UInt8 → List UInt8 × List UInt8
  | [] => ([], [])
  | b :: bytes =>
    if b = 10 then ([b], bytes)
    else
      let (line, rest) := cutLine bytes
      (b :: line, rest)

/-- A line takes its bytes from the front. -/
theorem cutLine_append (bytes : List UInt8) : (cutLine bytes).1 ++ (cutLine bytes).2 = bytes := by
  induction bytes with
  | nil => rfl
  | cons b bytes ih =>
    rw [cutLine]
    split
    · rfl
    · rw [List.cons_append, ih]

/-- There is no line just if there are no bytes. -/
theorem cutLine_eq_nil {bytes rest : List UInt8} (h : cutLine bytes = ([], rest)) :
    bytes = [] := by
  cases bytes with
  | nil => rfl
  | cons b bytes =>
    rw [cutLine] at h
    split at h <;> cases h

/-- A line that is handed out is gone. -/
theorem cutLine_length_lt {bytes line rest : List UInt8} {b : UInt8}
    (h : cutLine bytes = (b :: line, rest)) : rest.length < bytes.length := by
  have happend := cutLine_append bytes
  rw [h] at happend
  have hlength := congrArg List.length happend
  simp only [List.length_append, List.length_cons] at hlength
  omega

/-- A reader, and what was pulled from it. A reader that has reported its end hands out nothing
more. -/
structure SourceBuffer where
  location : Location
  /-- The bytes that the reader has not handed out. -/
  unread : List UInt8
  /-- The characters that are pulled and not consumed. -/
  pending : List Char
  /-- The reader has reported its end. -/
  exhausted : Bool
  ended : exhausted = true → unread = []

namespace SourceBuffer

/-- A buffer at the start of a byte source. -/
def ofBytes (path : String) (bytes : ByteArray) : SourceBuffer where
  location := .start path
  unread := bytes.toList
  pending := []
  exhausted := false
  ended := nofun

/-- Pull lines until there is a character to consume, or the reader reports its end. A line that is
not UTF-8 is pulled and lost. -/
def fill (b : SourceBuffer) : Except Failure Unit × SourceBuffer :=
  if hdry : b.pending = [] ∧ b.exhausted = false then
    match hcut : cutLine b.unread with
    | ([], _) => (.ok (), { b with exhausted := true, ended := fun _ => cutLine_eq_nil hcut })
    | (byte :: line, rest) =>
      match String.fromUTF8? ⟨(byte :: line).toArray⟩ with
      | some text =>
        fill { b with unread := rest, pending := text.toList, ended := by simp [hdry.2] }
      | none => (.error Fault.damagedLine, { b with unread := rest, ended := by simp [hdry.2] })
  else (.ok (), b)
termination_by b.unread.length
decreasing_by exact cutLine_length_lt hcut

/-- Look at the next character without consuming it; `none` at the end. -/
def peek (b : SourceBuffer) : Except Failure (Option Char) × SourceBuffer :=
  match b.fill with
  | (.ok (), filled) => (.ok filled.pending.head?, filled)
  | (.error f, filled) => (.error f, filled)

/-- Consume the next character; `none` at the end. -/
def next (b : SourceBuffer) : Except Failure (Option Char) × SourceBuffer :=
  match b.fill with
  | (.ok (), filled) =>
    match filled.pending with
    | [] => (.ok none, filled)
    | c :: cs =>
      (.ok (some c), { filled with location := filled.location.advance c, pending := cs })
  | (.error f, filled) => (.error f, filled)

end SourceBuffer

end ScopeStack
