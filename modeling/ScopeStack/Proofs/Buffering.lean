import ScopeStack.Proofs.Lexemes
import ScopeStack.Source.Buffer

/-!
# A buffer is a cursor

A buffer does not know what is left of its source, and a cursor does. Yet nobody can tell one from
the other by asking: the lines that the buffer pulls are the lines of the source, a line is decoded
in the same way whenever it is pulled, and one that cannot be decoded is met at its first character.

* `linesOfBytes_cutLine`: what is pulled is the first line.
* `SourceBuffer.cursor`: the cursor that a buffer stands for. `SourceBuffer.refilled` says what a
  fill does to it, `SourceBuffer.cursor_ask` that every call does to it what it does to a cursor.
* `CursorCall.answers`: what calls are answered, up to the first failure; `CursorCall.taken`: the
  characters that they take.
* `Legible`: the lines of a source up to the first one that is not UTF-8.
* `Cursor.between`: the cursor behind some characters and before others. `Cursor.answers_between`:
  calls take characters from the one side to the other.
* `SourceBuffer.calls_answered`: **calls are answered with the characters of the source, up to its
  first damaged line.**
-/

namespace ScopeStack

/-! ## 1. Lines -/

/-- **What is pulled is the first line**, and the lines of what is kept are the others. -/
theorem linesOfBytes_cutLine {bytes : List UInt8} (hne : bytes ≠ []) :
    linesOfBytes bytes = (cutLine bytes).1 :: linesOfBytes (cutLine bytes).2 := by
  induction bytes with
  | nil => exact absurd rfl hne
  | cons b bytes ih =>
    rw [linesOfBytes, cutLine]
    by_cases hb : b = 10
    · rw [if_pos hb, if_pos hb]
    · rw [if_neg hb, if_neg hb]
      cases bytes with
      | nil => rfl
      | cons b' bytes => rw [ih (List.cons_ne_nil _ _)]

/-- The glyphs of some bytes are those of their first line and those of the rest. -/
theorem glyphsOfBytes_cutLine {bytes line rest : List UInt8} {b : UInt8}
    (h : cutLine bytes = (b :: line, rest)) :
    glyphsOfBytes bytes = glyphsOfLine (b :: line) ++ glyphsOfBytes rest := by
  have hne : bytes ≠ [] := by
    rintro rfl
    cases h
  rw [glyphsOfBytes, linesOfBytes_cutLine hne, h, List.flatMap_cons]
  rfl

/-! ## 2. The cursor of a buffer -/

namespace SourceBuffer

/-- The cursor that a buffer stands for: the characters that are pulled, and the glyphs of all that
is not. -/
def cursor (b : SourceBuffer) : Cursor :=
  ⟨b.location, b.pending.map .char ++ glyphsOfBytes b.unread⟩

@[simp] theorem cursor_location (b : SourceBuffer) : b.cursor.location = b.location := rfl

theorem cursor_ofBytes (path : String) (bytes : ByteArray) :
    (ofBytes path bytes).cursor = .ofBytes path bytes := rfl

/-- What a fill comes to for a buffer that stands for a cursor. -/
inductive Refilled (c : Cursor) : Except Failure Unit × SourceBuffer → Prop where
  /-- The cursor is at a character, and the character is pending. -/
  | ready {filled : SourceBuffer} {x : Char} {xs : List Char} : filled.cursor = c →
      filled.pending = x :: xs → Refilled c (.ok (), filled)
  /-- The cursor is at the end. -/
  | finished {filled : SourceBuffer} : filled.cursor = c → filled.pending = [] → c.rest = [] →
      Refilled c (.ok (), filled)
  /-- The cursor is at a damaged line, and the line is gone. -/
  | damaged {filled : SourceBuffer} {gs : List Glyph} : c.rest = .damaged :: gs →
      filled.cursor = ⟨c.location, gs⟩ → Refilled c (.error Fault.damagedLine, filled)

theorem refilled (b : SourceBuffer) : Refilled b.cursor b.fill := by
  fun_induction fill b with
  | case1 b hdry rest hcut =>
    -- the reader has nothing to hand out, so this is the end
    have hunread := cutLine_eq_nil hcut
    refine .finished (by simp [cursor, hunread]) hdry.1 ?_
    rw [cursor, hdry.1, hunread]
    rfl
  | case2 b hdry byte line rest hcut text htext ih =>
    -- a line that decodes is pending now instead of unread
    have hsame : b.cursor = ⟨b.location, text.toList.map .char ++ glyphsOfBytes rest⟩ := by
      rw [cursor, hdry.1, glyphsOfBytes_cutLine hcut, glyphsOfLine, htext]
      rfl
    rw [hsame]
    exact ih
  | case3 b hdry byte line rest hcut hdamaged =>
    have hrest : b.cursor.rest = .damaged :: glyphsOfBytes rest := by
      rw [cursor, hdry.1, glyphsOfBytes_cutLine hcut, glyphsOfLine, hdamaged]
      rfl
    refine .damaged hrest ?_
    rw [cursor, hdry.1]
    rfl
  | case4 b hready =>
    cases hpending : b.pending with
    | nil =>
      -- nothing is pulled although nothing is pending, so the reader has reported its end
      have hexhausted : b.exhausted = true := by simpa [hpending] using hready
      refine .finished rfl hpending ?_
      rw [cursor, hpending, b.ended hexhausted]
      rfl
    | cons x xs => exact .ready rfl hpending

/-- Looking at the next character of a buffer is looking at that of its cursor. -/
theorem cursor_peek (b : SourceBuffer) : b.peek.map id cursor = b.cursor.peek := by
  have h := b.refilled
  unfold peek Cursor.peek
  generalize b.fill = r at h
  cases h with
  | ready hsame hpending => rw [← hsame]; simp [cursor, hpending]
  | finished hsame hpending hend => rw [hend]; simp [hsame, hpending]
  | damaged hrest hgone => rw [hrest]; simp [hgone]

/-- Taking the next character of a buffer is taking that of its cursor. -/
theorem cursor_next (b : SourceBuffer) : b.next.map id cursor = b.cursor.next := by
  have h := b.refilled
  unfold next Cursor.next
  generalize b.fill = r at h
  cases h with
  | ready hsame hpending => rw [← hsame]; simp [cursor, hpending]
  | finished hsame hpending hend => rw [hend]; simp [hsame, hpending]
  | damaged hrest hgone => rw [hrest]; simp [hgone]

end SourceBuffer

/-! ## 3. Calls -/

/-- To look at the next character, or to take it. -/
inductive CursorCall where
  | peek
  | next
deriving DecidableEq

namespace CursorCall

/-- The characters that a call takes, given its answer. -/
def takes : CursorCall → Option Char → List Char
  | peek, _ => []
  | next, x => x.toList

/-- The characters that calls take, given their answers. -/
def taken (calls : List CursorCall) (xs : List (Option Char)) : List Char :=
  (List.zipWith takes calls xs).flatten

theorem taken_cons (call : CursorCall) (calls : List CursorCall) (x : Option Char)
    (xs : List (Option Char)) : taken (call :: calls) (x :: xs) = takes call x ++ taken calls xs :=
  rfl

/-- The answers to calls up to the first failure, the failure if there is one, and what stands there
afterwards. -/
def answers {σ : Type} (ask : σ → CursorCall → Except Failure (Option Char) × σ) :
    σ → List CursorCall → List (Option Char) × Option Failure × σ
  | s, [] => ([], none, s)
  | s, call :: calls =>
    match ask s call with
    | (.ok x, after) =>
      let (xs, failure, stop) := answers ask after calls
      (x :: xs, failure, stop)
    | (.error f, after) => ([], some f, after)

section Answers

variable {σ τ : Type} {ask : σ → CursorCall → Except Failure (Option Char) × σ}
  {ask' : τ → CursorCall → Except Failure (Option Char) × τ}

/-- **Where each call is answered alike, all calls are.** -/
theorem answers_map {f : σ → τ} (h : ∀ s call, (ask s call).map id f = ask' (f s) call) (s : σ)
    (calls : List CursorCall) :
    answers ask' (f s) calls = (answers ask s calls).map id (Prod.map id f) := by
  induction calls generalizing s with
  | nil => rfl
  | cons call calls ih =>
    rw [answers, answers, ← h]
    rcases ask s call with ⟨_ | x, after⟩
    · rfl
    · simp only [Prod.map, id, ih]

/-- The first of some calls that are all answered is answered, and so are the others behind it. -/
theorem answers_cons {s stop : σ} {call : CursorCall} {calls : List CursorCall}
    {xs : List (Option Char)} (h : answers ask s (call :: calls) = (xs, none, stop)) :
    ∃ x after xs', ask s call = (.ok x, after) ∧ xs = x :: xs' ∧
      answers ask after calls = (xs', none, stop) := by
  rw [answers] at h
  rcases hask : ask s call with ⟨f | x, after⟩
  · rw [hask] at h
    cases h
  · rw [hask] at h
    obtain ⟨rfl, hrest⟩ := Prod.mk.inj h
    exact ⟨x, after, _, rfl, rfl, Prod.ext rfl hrest⟩

end Answers

end CursorCall

open CursorCall

/-- A call to a cursor. -/
def Cursor.ask (c : Cursor) : CursorCall → Except Failure (Option Char) × Cursor
  | .peek => c.peek
  | .next => c.next

/-- A call to a buffer. -/
def SourceBuffer.ask (b : SourceBuffer) : CursorCall → Except Failure (Option Char) × SourceBuffer
  | .peek => b.peek
  | .next => b.next

/-- **A call does to a buffer what it does to its cursor.** -/
theorem SourceBuffer.cursor_ask (b : SourceBuffer) (call : CursorCall) :
    (b.ask call).map id cursor = b.cursor.ask call := by
  cases call with
  | peek => exact b.cursor_peek
  | next => exact b.cursor_next

/-! ## 4. The cursor in a source -/

/-- The lines of a source up to the first one that is not UTF-8: what those before it say, and that
one with those behind it. -/
structure Legible (source : List (List UInt8)) (lines : List (List Char))
    (rest : List (List UInt8)) : Prop where
  cut : source = lines.map bytesOf ++ rest
  damaged : ∀ line ∈ rest.head?, ∀ cs, bytesOf cs ≠ line

theorem exists_legible (source : List (List UInt8)) : ∃ lines rest, Legible source lines rest := by
  induction source with
  | nil => exact ⟨[], [], rfl, nofun⟩
  | cons line source ih =>
    by_cases hline : ∃ cs, bytesOf cs = line
    · obtain ⟨cs, rfl⟩ := hline
      obtain ⟨lines, rest, hcut, hdamaged⟩ := ih
      exact ⟨cs :: lines, rest, by rw [hcut]; rfl, hdamaged⟩
    · refine ⟨[], line :: source, rfl, fun first hfirst cs hcs => hline ⟨cs, ?_⟩⟩
      rw [hcs, ← Option.some.inj hfirst]

/-- What is legible of a source is determined. -/
theorem Legible.unique {source : List (List UInt8)} {lines lines' : List (List Char)}
    {rest rest' : List (List UInt8)} (h : Legible source lines rest)
    (h' : Legible source lines' rest') : lines = lines' ∧ rest = rest' := by
  induction lines generalizing source lines' with
  | nil =>
    cases lines' with
    | nil => exact ⟨rfl, h.cut.symm.trans h'.cut⟩
    | cons cs lines' =>
      have hcut : rest = bytesOf cs :: (lines'.map bytesOf ++ rest') := h.cut.symm.trans h'.cut
      exact absurd rfl (h.damaged _ (by rw [hcut]; rfl) cs)
  | cons cs lines ih =>
    cases lines' with
    | nil =>
      have hcut : rest' = bytesOf cs :: (lines.map bytesOf ++ rest) := h'.cut.symm.trans h.cut
      exact absurd rfl (h'.damaged _ (by rw [hcut]; rfl) cs)
    | cons cs' lines' =>
      obtain ⟨hline, htail⟩ := List.cons.inj (h.cut.symm.trans h'.cut)
      obtain ⟨rfl, hrest⟩ := ih ⟨rfl, h.damaged⟩ ⟨htail, h'.damaged⟩
      exact ⟨by rw [bytesOf_inj hline], hrest⟩

/-- The glyphs of a source are the characters of its legible lines and the glyphs of the others. -/
theorem Legible.glyphs {bytes : List UInt8} {lines : List (List Char)} {rest : List (List UInt8)}
    (h : Legible (linesOfBytes bytes) lines rest) :
    glyphsOfBytes bytes = lines.flatten.map .char ++ rest.flatMap glyphsOfLine := by
  rw [glyphsOfBytes, h.cut, List.flatMap_append, List.flatMap_map, List.map_flatten]
  simp only [glyphsOfLine_bytesOf]
  rw [List.flatMap_def]

namespace Cursor

/-- The cursor behind the characters that are seen and before those that are not, with some more
lines to follow. -/
def between (path : String) (seen unseen : List Char) (rest : List (List UInt8)) : Cursor :=
  ⟨placeAfter path seen, unseen.map .char ++ rest.flatMap glyphsOfLine⟩

variable {path : String} {seen unseen : List Char} {rest : List (List UInt8)}

/-- At the start of a source nothing is seen. -/
theorem ofBytes_eq_between {bytes : ByteArray} {lines : List (List Char)}
    (h : Legible (linesOfBytes bytes.toList) lines rest) :
    ofBytes path bytes = between path [] lines.flatten rest := by
  rw [ofBytes, h.glyphs]
  rfl

section Legible

variable {source : List (List UInt8)} {lines : List (List Char)}
  (hlegible : Legible source lines rest)

include hlegible

/-- A call is answered with the next character or the end, and fails just if there is no character
left and a damaged line follows. -/
theorem ask_between (call : CursorCall) :
    ((between path seen unseen rest).ask call).1 =
      if unseen = [] ∧ rest ≠ [] then .error Fault.damagedLine else .ok unseen.head? := by
  cases unseen with
  | nil =>
    cases rest with
    | nil => cases call <;> rfl
    | cons line rest =>
      have hline := glyphsOfLine_damaged (hlegible.damaged line rfl)
      cases call <;> simp [between, ask, peek, next, hline]
  | cons x unseen => cases call <;> rfl

/-- A call that is answered takes its characters from what is not seen. -/
theorem ask_between_ok {call : CursorCall} {x : Option Char} {after : Cursor}
    (h : (between path seen unseen rest).ask call = (.ok x, after)) :
    ∃ later, unseen = takes call x ++ later ∧
      after = between path (seen ++ takes call x) later rest := by
  cases unseen with
  | nil =>
    cases rest with
    | nil => cases call <;> cases h <;> exact ⟨[], rfl, by simp [takes]⟩
    | cons line rest =>
      -- at a damaged line no call is answered
      have hfail := congrArg Prod.fst h
      rw [ask_between hlegible, if_pos ⟨rfl, List.cons_ne_nil _ _⟩] at hfail
      cases hfail
  | cons y unseen =>
    cases call with
    | peek =>
      cases h
      exact ⟨y :: unseen, rfl, by simp [takes, between]⟩
    | next =>
      cases h
      exact ⟨unseen, rfl, by simp [takes, between, placeAfter_concat]⟩

/-- **Calls that are answered take characters from what is not seen to what is.** -/
theorem answers_between {calls : List CursorCall} {xs : List (Option Char)} {stop : Cursor}
    (h : answers ask (between path seen unseen rest) calls = (xs, none, stop)) :
    ∃ later, unseen = taken calls xs ++ later ∧
      stop = between path (seen ++ taken calls xs) later rest := by
  induction calls generalizing seen unseen xs with
  | nil =>
    cases h
    exact ⟨unseen, rfl, by simp [taken]⟩
  | cons call calls ih =>
    obtain ⟨x, after, xs, hask, rfl, hcalls⟩ := answers_cons h
    obtain ⟨later, rfl, rfl⟩ := ask_between_ok hlegible hask
    obtain ⟨later, rfl, rfl⟩ := ih hcalls
    rw [taken_cons]
    exact ⟨later, by rw [List.append_assoc], by rw [List.append_assoc]⟩

end Legible

/-- At the end of a source without a damaged line every call is answered with the end. -/
theorem answers_end (calls : List CursorCall) :
    answers ask (between path seen [] []) calls =
      (calls.map fun _ => none, none, between path seen [] []) := by
  induction calls with
  | nil => rfl
  | cons call calls ih =>
    have hask : (between path seen [] []).ask call = (.ok none, between path seen [] []) := by
      cases call <;> rfl
    rw [answers, hask]
    simp only [ih, List.map_cons]

/-- Looking at a character leaves the cursor where it is. -/
theorem peek_ok {c after : Cursor} {x : Option Char} (h : c.peek = (.ok x, after)) :
    after = c ∧ c.next.1 = .ok x := by
  unfold peek at h
  unfold next
  split at h
  · cases h
    exact ⟨rfl, rfl⟩
  · cases h
    exact ⟨rfl, rfl⟩
  · cases h

end Cursor

/-! ## 5. The buffer in a source -/

namespace SourceBuffer

/-- A call is answered as it is by the cursor. -/
theorem ask_fst (b : SourceBuffer) (call : CursorCall) :
    (b.ask call).1 = (b.cursor.ask call).1 := by
  rw [← cursor_ask]
  rfl

/-- Calls are answered as they are by the cursor. -/
theorem answers_cursor (b : SourceBuffer) (calls : List CursorCall) :
    answers Cursor.ask b.cursor calls = (answers ask b calls).map id (Prod.map id cursor) :=
  answers_map cursor_ask b calls

/-- What is seen of calls from outside: the answers, the failure if there is one, and the place
afterwards. -/
def observed (b : SourceBuffer) (calls : List CursorCall) :
    List (Option Char) × Option Failure × Location :=
  (answers ask b calls).map id (Prod.map id location)

theorem observed_eq (b : SourceBuffer) (calls : List CursorCall) :
    b.observed calls =
      (answers Cursor.ask b.cursor calls).map id (Prod.map id Cursor.location) := by
  rw [answers_cursor]
  rfl

/-- Looking at a character leaves all that comes as it is. -/
theorem peek_ok {b after : SourceBuffer} {x : Option Char} (h : b.peek = (.ok x, after)) :
    after.cursor = b.cursor ∧ after.next.1 = .ok x := by
  have hpeek : b.cursor.peek = (.ok x, after.cursor) := by
    rw [← cursor_peek, h]
    rfl
  obtain ⟨hsame, hnext⟩ := Cursor.peek_ok hpeek
  refine ⟨hsame, ?_⟩
  rw [← hnext, ← hsame, ← cursor_next]
  rfl

/-- **Calls are answered with the characters of the source, up to its first damaged line.** After
any calls that were all answered, the characters taken are the first ones of the legible lines, and
the place is the one behind them; a cursor that has the whole source gives the same answers. The
next call of either kind is answered with the first character that is not taken, or with the end,
and fails just if there is no such character but a damaged line. A look that is answered tells what
will be taken, and changes neither the place nor anything that is answered later. At the end of a
source without a damaged line, the end is all there is from then on. -/
theorem calls_answered (path : String) (bytes : ByteArray) :
    ∃ lines rest, Legible (linesOfBytes bytes.toList) lines rest ∧
      ∀ calls xs b, answers ask (ofBytes path bytes) calls = (xs, none, b) →
        answers Cursor.ask (.ofBytes path bytes) calls = (xs, none, b.cursor) ∧
        b.location = placeAfter path (taken calls xs) ∧
        ∃ unseen, lines.flatten = taken calls xs ++ unseen ∧
          (∀ call, (b.ask call).1 =
            if unseen = [] ∧ rest ≠ [] then .error Fault.damagedLine else .ok unseen.head?) ∧
          (∀ call f, (b.ask call).1 = .error f → f.kind = .io) ∧
          (∀ x after, b.peek = (.ok x, after) →
            after.next.1 = .ok x ∧ after.location = b.location ∧
              ∀ later, after.observed later = b.observed later) ∧
          (unseen = [] → rest = [] → ∀ later,
            b.observed later = (later.map fun _ => none, none, b.location)) := by
  obtain ⟨lines, rest, hlegible⟩ := exists_legible (linesOfBytes bytes.toList)
  refine ⟨lines, rest, hlegible, fun calls xs b h => ?_⟩
  have hcursor : answers Cursor.ask (.ofBytes path bytes) calls = (xs, none, b.cursor) := by
    rw [← cursor_ofBytes, answers_cursor, h]
    rfl
  have hbetween := hcursor
  rw [Cursor.ofBytes_eq_between hlegible] at hbetween
  obtain ⟨unseen, hunseen, hstop⟩ := Cursor.answers_between hlegible hbetween
  have hask (call : CursorCall) : (b.ask call).1 =
      if unseen = [] ∧ rest ≠ [] then .error Fault.damagedLine else .ok unseen.head? := by
    rw [ask_fst, hstop, Cursor.ask_between hlegible]
  refine ⟨hcursor, ?_, unseen, hunseen, hask, ?_, ?_, ?_⟩
  · rw [← cursor_location, hstop]
    rfl
  · intro call f hf
    rw [hask] at hf
    split at hf
    · cases hf
      rfl
    · cases hf
  · intro x after hpeek
    obtain ⟨hsame, hnext⟩ := peek_ok hpeek
    refine ⟨hnext, congrArg Cursor.location hsame, fun later => ?_⟩
    rw [observed_eq, hsame, ← observed_eq]
  · rintro rfl rfl later
    rw [observed_eq, ← cursor_location, hstop, Cursor.answers_end]
    rfl

/-- Behind the two lines of an accented letter and of nothing stands a line that is not UTF-8. The
letter is looked at and taken, then the line feed behind it, then the other one is looked at and
taken; and any call after that fails. -/
theorem calls_answered_damaged : ∃ b,
    answers ask (ofBytes "s" ⟨#[0xC3, 0xA9, 10, 10, 0xFF, 10, 120]⟩)
        [.peek, .next, .next, .peek, .next] =
      ([some 'é', some 'é', some '\n', some '\n', some '\n'], none, b) ∧
    b.location = ⟨"s", 3, 1⟩ ∧ ∀ call, (b.ask call).1 = .error Fault.damagedLine := by
  obtain ⟨lines, rest, hlegible, hcalls⟩ :=
    calls_answered "s" ⟨#[0xC3, 0xA9, 10, 10, 0xFF, 10, 120]⟩
  have hbytes : Legible (linesOfBytes [0xC3, 0xA9, 10, 10, 0xFF, 10, 120]) [['é', '\n'], ['\n']]
      [[0xFF, 10], [120]] := by
    refine ⟨by decide, fun line hline cs hcs => ?_⟩
    have hnone : String.fromUTF8? ⟨#[0xFF, 10]⟩ = none := by decide +kernel
    have hsome := fromUTF8?_bytesOf cs
    rw [hcs, ← Option.some.inj hline, hnone] at hsome
    cases hsome
  rw [toList_eq_data] at hlegible
  obtain ⟨rfl, rfl⟩ := hbytes.unique hlegible
  have hseen : (ofBytes "s" ⟨#[0xC3, 0xA9, 10, 10, 0xFF, 10, 120]⟩).observed
      [.peek, .next, .next, .peek, .next] =
        ([some 'é', some 'é', some '\n', some '\n', some '\n'], none, ⟨"s", 3, 1⟩) := by
    decide +kernel
  unfold observed at hseen
  rcases hrun : answers ask (ofBytes "s" ⟨#[0xC3, 0xA9, 10, 10, 0xFF, 10, 120]⟩)
    [.peek, .next, .next, .peek, .next] with ⟨xs, failure, b⟩
  rw [hrun] at hseen
  obtain ⟨rfl, hbehind⟩ := Prod.mk.inj hseen
  obtain ⟨rfl, hplace⟩ := Prod.mk.inj hbehind
  obtain ⟨-, -, unseen, hunseen, hask, -⟩ := hcalls _ _ _ hrun
  obtain rfl : unseen = [] := List.self_eq_append_right.mp hunseen
  exact ⟨b, rfl, hplace, hask⟩

end SourceBuffer

end ScopeStack
