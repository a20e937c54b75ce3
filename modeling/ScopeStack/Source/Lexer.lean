import ScopeStack.Source.Cursor
import ScopeStack.Source.Token
import ScopeStack.Text.Blank

/-!
# From characters to tokens

Between tokens stand gaps of white space and comments. A comment runs from an opening parenthesis
at the start of a token to the first closing one, or to the end of the source. Every scan is a
recursion on the glyphs that are left and returns the cursor it stops at.

* `skipGap`: pass over white space and comments.
* `readWord`: the longest run without white space.
* `readQuoted`: the rest of a string literal, its escapes decoded.
* `Cursor.scan`: the next token; `Cursor.tokens`: all that are left. A token takes at least one
  glyph (`Cursor.scan_length_lt`), so there is an end to them.
-/

namespace ScopeStack

/-- Pass over white space and comments. The flag says whether the scan is inside a comment. The
error is the cursor behind a damaged line. -/
def skipGap : (inComment : Bool) → Location → List Glyph → Except Cursor Cursor
  | _, l, [] => .ok ⟨l, []⟩
  | _, l, .damaged :: rest => .error ⟨l, rest⟩
  | true, l, .char c :: rest => skipGap (c != ')') (l.advance c) rest
  | false, l, .char c :: rest =>
    if isBlank c then skipGap false (l.advance c) rest
    else if c = '(' then skipGap true (l.advance c) rest
    else .ok ⟨l, .char c :: rest⟩

/-- Passing over a gap never adds glyphs. -/
theorem skipGap_length_le {inComment : Bool} {l : Location} {gs : List Glyph} {after : Cursor}
    (h : skipGap inComment l gs = .ok after) : after.rest.length ≤ gs.length := by
  fun_induction skipGap inComment l gs with
  | case1 => cases h; simp
  | case2 => cases h
  | case3 l c rest ih => exact Nat.le_succ_of_le (ih h)
  | case4 l c rest _ ih => exact Nat.le_succ_of_le (ih h)
  | case5 l rest _ ih => exact Nat.le_succ_of_le (ih h)
  | case6 => cases h; simp

/-- A gap ends at a character that is not white space. -/
theorem skipGap_not_blank {inComment : Bool} {l m : Location} {gs rest : List Glyph} {c : Char}
    (h : skipGap inComment l gs = .ok ⟨m, .char c :: rest⟩) : isBlank c = false := by
  fun_induction skipGap inComment l gs with
  | case1 => cases h
  | case2 => cases h
  | case3 _ _ _ ih => exact ih h
  | case4 _ _ _ _ ih => exact ih h
  | case5 _ _ _ ih => exact ih h
  | case6 l d ds hd => cases h; simpa using hd

/-- The longest run of characters that are not white space. -/
def readWord : Location → List Glyph → Except Cursor (List Char × Cursor)
  | l, [] => .ok ([], ⟨l, []⟩)
  | l, .damaged :: rest => .error ⟨l, rest⟩
  | l, .char c :: rest =>
    if isBlank c then .ok ([], ⟨l, .char c :: rest⟩)
    else
      match readWord (l.advance c) rest with
      | .ok (cs, after) => .ok (c :: cs, after)
      | .error after => .error after

theorem readWord_length_le {l : Location} {gs : List Glyph} {cs : List Char} {after : Cursor}
    (h : readWord l gs = .ok (cs, after)) : after.rest.length ≤ gs.length := by
  fun_induction readWord l gs generalizing cs with
  | case1 => cases h; simp
  | case2 => cases h
  | case3 => cases h; simp
  | case4 l c rest _ ds stop heq ih => cases h; exact Nat.le_succ_of_le (ih heq)
  | case5 => cases h

/-- A word that starts takes at least its first character. -/
theorem readWord_cons_length_le {l : Location} {c : Char} {gs : List Glyph} {cs : List Char}
    {after : Cursor} (hc : isBlank c = false) (h : readWord l (.char c :: gs) = .ok (cs, after)) :
    after.rest.length ≤ gs.length := by
  rw [readWord, if_neg (by simp [hc])] at h
  split at h
  · rename_i heq
    cases h
    exact readWord_length_le heq
  · cases h

/-- What a character means behind a backslash. -/
def unescape : Char → Char
  | 'n' => '\n'
  | 'r' => '\r'
  | 't' => '\t'
  | '0' => Char.ofNat 0
  | c => c

/-- The rest of a string literal up to its closing quote. The flag says whether a backslash came
last. An error is the end of the source, or a damaged line. -/
def readQuoted : (escaped : Bool) → Location → List Glyph →
    Except (Fault × Cursor) (List Char × Cursor)
  | _, l, [] => .error (.unterminated, ⟨l, []⟩)
  | _, l, .damaged :: rest => .error (.damagedLine, ⟨l, rest⟩)
  | true, l, .char c :: rest =>
    match readQuoted false (l.advance c) rest with
    | .ok (cs, after) => .ok (unescape c :: cs, after)
    | .error e => .error e
  | false, l, .char c :: rest =>
    if c = '"' then .ok ([], ⟨l.advance c, rest⟩)
    else if c = '\\' then readQuoted true (l.advance c) rest
    else
      match readQuoted false (l.advance c) rest with
      | .ok (cs, after) => .ok (c :: cs, after)
      | .error e => .error e

theorem readQuoted_length_lt {escaped : Bool} {l : Location} {gs : List Glyph} {cs : List Char}
    {after : Cursor} (h : readQuoted escaped l gs = .ok (cs, after)) :
    after.rest.length < gs.length := by
  fun_induction readQuoted escaped l gs generalizing cs with
  | case1 => cases h
  | case2 => cases h
  | case3 l c rest ds stop heq ih => cases h; exact Nat.lt_succ_of_lt (ih heq)
  | case4 => cases h
  | case5 => cases h; simp
  | case6 l rest _ ih => exact Nat.lt_succ_of_lt (ih h)
  | case7 l c rest _ _ ds stop heq ih => cases h; exact Nat.lt_succ_of_lt (ih heq)
  | case8 => cases h

/-- What comes next in a source. -/
inductive Scan where
  | token (t : Token) (after : Cursor)
  | finished (after : Cursor)
  | failed (f : Failure) (after : Cursor)

/-- A token of the given style from a word that was read. -/
def Scan.ofWord (start : Location) (style : TokenStyle) :
    Except Cursor (List Char × Cursor) → Scan
  | .ok (cs, after) => .token ⟨start, style, String.ofList cs⟩ after
  | .error after => .failed Fault.damagedLine after

/-- A string token from a literal that was read. An unfinished literal is reported at its opening
quote, a damaged line at no place. -/
def Scan.ofQuoted (start : Location) : Except (Fault × Cursor) (List Char × Cursor) → Scan
  | .ok (cs, after) => .token ⟨start, .double, String.ofList cs⟩ after
  | .error (.unterminated, after) => .failed ⟨.unterminated, some start⟩ after
  | .error (fault, after) => .failed fault after

theorem Scan.ofWord_eq_token {start : Location} {style : TokenStyle} {t : Token} {after : Cursor}
    {r : Except Cursor (List Char × Cursor)} (h : Scan.ofWord start style r = .token t after) :
    ∃ cs, r = .ok (cs, after) := by
  cases r with
  | error _ => cases h
  | ok p => cases h; exact ⟨p.1, rfl⟩

theorem Scan.ofQuoted_eq_token {start : Location} {t : Token} {after : Cursor}
    {r : Except (Fault × Cursor) (List Char × Cursor)}
    (h : Scan.ofQuoted start r = .token t after) : ∃ cs, r = .ok (cs, after) := by
  unfold Scan.ofQuoted at h
  split at h
  · cases h; exact ⟨_, rfl⟩
  · cases h
  · cases h

namespace Cursor

/-- The token that starts at the cursor, where no gap is left. -/
def scanToken (c : Cursor) : Scan :=
  match c.rest with
  | [] => .finished c
  | .damaged :: rest => .failed Fault.damagedLine ⟨c.location, rest⟩
  | .char x :: rest =>
    if x = '"' then .ofQuoted c.location (readQuoted false (c.location.advance x) rest)
    else if x = '\'' then .ofWord c.location .single (readWord (c.location.advance x) rest)
    else .ofWord c.location .word (readWord c.location c.rest)

/-- The next token. -/
def scan (c : Cursor) : Scan :=
  match skipGap false c.location c.rest with
  | .ok start => start.scanToken
  | .error after => .failed Fault.damagedLine after

/-- **Every token takes at least one glyph.** -/
theorem scan_length_lt {c after : Cursor} {t : Token} (h : c.scan = .token t after) :
    after.rest.length < c.rest.length := by
  unfold scan at h
  split at h
  · rename_i start hgap
    have hle := skipGap_length_le hgap
    rcases start with ⟨l, _ | ⟨_ | _, rest⟩⟩
    · cases h
    · rename_i x
      have hb := skipGap_not_blank hgap
      have hlt : after.rest.length ≤ rest.length := by
        simp only [scanToken] at h
        split at h
        · obtain ⟨cs, hr⟩ := Scan.ofQuoted_eq_token h
          exact Nat.le_of_lt (readQuoted_length_lt hr)
        · split at h
          · obtain ⟨cs, hr⟩ := Scan.ofWord_eq_token h
            exact readWord_length_le hr
          · obtain ⟨cs, hr⟩ := Scan.ofWord_eq_token h
            exact readWord_cons_length_le hb hr
      simp only [List.length_cons] at hle
      omega
    · cases h
  · cases h

/-- All tokens up to the end or the first failure, the failure if there is one, and where the
reading stopped. -/
def tokens (c : Cursor) : List Token × Option Failure × Cursor :=
  match _ : c.scan with
  | .token t after =>
    let (ts, failure, stop) := after.tokens
    (t :: ts, failure, stop)
  | .finished after => ([], none, after)
  | .failed f after => ([], some f, after)
termination_by c.rest.length
decreasing_by exact scan_length_lt (by assumption)

end Cursor

end ScopeStack
