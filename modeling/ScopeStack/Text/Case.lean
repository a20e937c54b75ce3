import ScopeStack.Text.CaseTable

/-!
# Letter case

Upper and lower case of whole texts. Both are the full mappings of the Unicode standard: one
letter may become several. The one mapping that looks at its surroundings is the capital sigma,
whose lower case at the end of a word has a form of its own (`endsWord`).

The tables list code points in ascending order, so an entry is found by halving (`entryFor?`).
-/

namespace ScopeStack

namespace CaseTable

/-- The last index in a range whose start is not above a code, where starts ascend and that of `lo`
is not above it; the range is halved at most `k` times. -/
@[specialize] def lastUpTo (start : Nat → Nat) (code : Nat) : (k lo hi : Nat) → Nat
  | 0, lo, _ => lo
  | k + 1, lo, hi =>
    if hi ≤ lo + 1 then lo
    else
      let mid := (lo + hi) / 2
      if start mid ≤ code then lastUpTo start code k mid hi else lastUpTo start code k lo mid

/-- The last entry of a table that does not start above a code, or the first one. No table has more
than `2 ^ 16` entries. -/
@[inline] def entryFor? {α : Type} (table : Array α) (start : α → Nat) (code : Nat) : Option α :=
  table[lastUpTo (fun i => (table[i]?.map start).getD 0) code 16 0 table.size]?

/-- The partner of a letter, if a run holds it. -/
def partner? (runs : Array Run) (c : Char) : Option Char :=
  (entryFor? runs (·.first) c.toNat).bind fun r =>
    if r.first ≤ c.toNat && c.toNat ≤ r.last && (c.toNat - r.first) % r.step == 0 then
      some (Char.ofNat (r.partner + (c.toNat - r.first)))
    else none

/-- What a letter expands to, if it does. -/
def expansion? (c : Char) : Option (List Nat) :=
  (entryFor? upperExpansions (·.1) c.toNat).bind fun (code, codes) =>
    if code == c.toNat then some codes else none

/-- Does a range hold the character? -/
def covers (ranges : Array (Nat × Nat)) (c : Char) : Bool :=
  (entryFor? ranges (·.1) c.toNat).any fun (lo, hi) => lo ≤ c.toNat && c.toNat ≤ hi

end CaseTable

/-- Has the character no bearing on case? -/
def isIgnorable (c : Char) : Bool := CaseTable.covers CaseTable.ignorableRanges c

/-- Is the character a letter with case? -/
def isCased (c : Char) : Bool := CaseTable.covers CaseTable.casedRanges c

/-- Does a letter with case come first? What has no bearing on case is skipped. -/
def casedFirst (s : String.Slice) : Bool := (s.dropWhile isIgnorable).front?.any isCased

/-- Does a letter with case come last? What has no bearing on case is skipped. -/
def casedLast (s : String.Slice) : Bool := (s.dropEndWhile isIgnorable).back?.any isCased

/-- Is the character at a place the last of its word? -/
def endsWord {s : String} (p : s.Pos) (h : p ≠ s.endPos) : Bool :=
  casedLast (s.sliceTo p) && !casedFirst (s.sliceFrom (p.next h))

/-- Append the lower case of the character at a place. -/
def pushLower (done : String) {s : String} (p : s.Pos) (h : p ≠ s.endPos) : String :=
  let c := p.get h
  if c.toNat < 0x80 then done.push c.toLower
  else if c = 'Σ' then done.push (if endsWord p h then 'ς' else 'σ')
  else if c = 'İ' then (done.push 'i').push (Char.ofNat 0x307)
  else done.push ((CaseTable.partner? CaseTable.lowerRuns c).getD c)

/-- Append the lower case of at most `k` characters from a place on. -/
def lowerFrom {s : String} : (k : Nat) → (done : String) → (p : s.Pos) → String
  | 0, done, _ => done
  | k + 1, done, p =>
    if h : p = s.endPos then done else lowerFrom k (pushLower done p h) (p.next h)

/-- Append the upper case of a character. -/
def pushUpper (done : String) (c : Char) : String :=
  if c.toNat < 0x80 then done.push c.toUpper
  else
    match CaseTable.expansion? c with
    | some codes => codes.foldl (fun done code => done.push (Char.ofNat code)) done
    | none => done.push ((CaseTable.partner? CaseTable.upperRuns c).getD c)

/-- The text in lower case. -/
def lowerText (s : String) : String := lowerFrom s.length "" s.startPos

/-- The text in upper case. -/
def upperText (s : String) : String := s.foldl pushUpper ""

end ScopeStack
