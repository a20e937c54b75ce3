import ScopeStack.Proofs.Lines
import ScopeStack.Source.Lexer

/-!
# How a text falls into tokens

A text is a gap, a lexeme, a gap, a lexeme and so on, up to a last gap or a string literal that is
not closed. This says what gaps and lexemes are without saying how they are read, and that reading
a text finds the one way in which it falls into them.

* `Gap`, `LastGap`: white space and comments; the last comment of a text may be open.
* `Quoted`: the contents of a string literal and the text they stand for; `Unclosed`: a literal
  without its closing quote.
* `Lexeme`: how a token is written, given what follows it.
* `Factors`: a text falls into pieces and a tail; `Reading`: the tokens of a text, and why there are
  no more.
* `exists_reading`: every text can be read; `Reading.tokens`: what is read is what the cursor finds.
* `Cursor.tokens_iff_reading`: **the tokens of a text are those of its factorization.**
-/

namespace ScopeStack

/-! ## 1. Gaps and lexemes -/

/-- White space and comments. A comment runs from an opening parenthesis to the first closing
one. -/
inductive Gap : List Char → Prop where
  | nil : Gap []
  | blank {c : Char} {cs : List Char} : isBlank c = true → Gap cs → Gap (c :: cs)
  | comment {body cs : List Char} : ')' ∉ body → Gap cs → Gap ('(' :: (body ++ ')' :: cs))

/-- What may stand behind the last token: a gap, and perhaps a comment that is not closed. -/
inductive LastGap : List Char → Prop where
  | gap {cs : List Char} : Gap cs → LastGap cs
  | comment {cs body : List Char} : Gap cs → ')' ∉ body → LastGap (cs ++ '(' :: body)

/-- The characters that stand for another one behind a backslash. -/
def escapes : List (Char × Char) :=
  [('n', '\n'), ('r', '\r'), ('t', '\t'), ('0', Char.ofNat 0)]

/-- The contents of a string literal and the text they stand for. A quote or a backslash is written
behind a backslash. -/
inductive Quoted : (contents text : List Char) → Prop where
  | nil : Quoted [] []
  | plain {c : Char} {contents text : List Char} : c ≠ '"' → c ≠ '\\' → Quoted contents text →
      Quoted (c :: contents) (c :: text)
  | escape {contents text : List Char} (c : Char) : Quoted contents text →
      Quoted ('\\' :: c :: contents) ((escapes.lookup c).getD c :: text)

/-- No quote closes a literal that starts here. -/
def Unclosed (cs : List Char) : Prop :=
  ∀ contents text rest, Quoted contents text → cs ≠ contents ++ '"' :: rest

/-- Characters that are not white space, up to white space or the end. -/
structure FullRun (run rest : List Char) : Prop where
  solid : ∀ c ∈ run, isBlank c = false
  stops : ∀ c cs, rest = c :: cs → isBlank c = true

/-- How a token is written, given what follows it. -/
inductive Lexeme : TokenStyle → (lexeme text rest : List Char) → Prop where
  | double {contents text rest : List Char} : Quoted contents text →
      Lexeme .double ('"' :: (contents ++ ['"'])) text rest
  | single {run rest : List Char} : FullRun run rest → Lexeme .single ('\'' :: run) run rest
  | word {c : Char} {run rest : List Char} : c ≠ '(' → c ≠ '"' → c ≠ '\'' →
      FullRun (c :: run) rest → Lexeme .word (c :: run) (c :: run) rest

/-! ## 2. Factorizations -/

/-- A token with the gap in front of it, as they are written, and the text of the token. -/
structure Piece where
  gap : List Char
  style : TokenStyle
  lexeme : List Char
  text : List Char

/-- The characters of a piece. -/
def Piece.chars (p : Piece) : List Char := p.gap ++ p.lexeme

/-- A text falls into pieces and a tail. -/
inductive Factors : List Piece → (tail text : List Char) → Prop where
  | nil (tail : List Char) : Factors [] tail tail
  | cons {p : Piece} {ps : List Piece} {tail rest : List Char} : Gap p.gap →
      Lexeme p.style p.lexeme p.text rest → Factors ps tail rest →
      Factors (p :: ps) tail (p.gap ++ (p.lexeme ++ rest))

/-- The place behind some characters: lines and columns count from one, and a column counts the
characters since the last line feed. -/
def placeAfter (path : String) (before : List Char) : Location :=
  ⟨path, 1 + before.count '\n', 1 + (before.reverse.takeWhile (· != '\n')).length⟩

/-- The tokens of pieces that stand behind some characters. -/
def tokensOf (path : String) : (before : List Char) → List Piece → List Token
  | _, [] => []
  | before, p :: ps =>
    ⟨placeAfter path (before ++ p.gap), p.style, String.ofList p.text⟩ ::
      tokensOf path (before ++ p.chars) ps

/-- The tokens of a text, and why there are no more: its pieces cover it up to a last gap, or a
string literal is not closed, and it is told where that one opens. -/
inductive Reading (path : String) (text : List Char) : List Token → Option Failure → Prop where
  | covered {ps : List Piece} {tail : List Char} : Factors ps tail text → LastGap tail →
      Reading path text (tokensOf path [] ps) none
  | unclosed {ps : List Piece} {gap body : List Char} : Factors ps (gap ++ '"' :: body) text →
      Gap gap → Unclosed body →
      Reading path text (tokensOf path [] ps)
        (some ⟨.unterminated, some (placeAfter path (ps.flatMap Piece.chars ++ gap))⟩)

/-! ## 3. Reading the parts -/

theorem placeAfter_concat (path : String) (before : List Char) (c : Char) :
    placeAfter path (before ++ [c]) = (placeAfter path before).advance c := by
  unfold placeAfter
  by_cases hc : c = '\n'
  · subst hc
    simp [Nat.add_assoc]
  · rw [Location.advance_of_ne _ hc]
    simp [hc, Nat.add_comm]

/-- A cursor behind some characters of a text. -/
def Cursor.behind (path : String) (before rest : List Char) : Cursor :=
  ⟨placeAfter path before, rest.map .char⟩

section Parts

variable (path : String) (before : List Char)

theorem skipGap_open {body : List Char} (hbody : ')' ∉ body) (rest : List Char) :
    skipGap true (placeAfter path before) ((body ++ rest).map .char) =
      skipGap true (placeAfter path (before ++ body)) (rest.map .char) := by
  induction body generalizing before with
  | nil => rw [List.nil_append, List.append_nil]
  | cons c body ih =>
    have hc : (c != ')') = true := bne_iff_ne.mpr fun h => hbody (h ▸ List.mem_cons_self)
    rw [List.cons_append, List.map_cons, skipGap, hc, ← placeAfter_concat,
      ih _ fun h => hbody (List.mem_cons_of_mem _ h), List.append_assoc, List.singleton_append]

theorem skipGap_paren (rest : List Char) :
    skipGap false (placeAfter path before) (('(' :: rest).map .char) =
      skipGap true (placeAfter path (before ++ ['('])) (rest.map .char) := by
  have hparen : isBlank '(' = false := by decide
  rw [List.map_cons, skipGap, hparen, if_neg Bool.false_ne_true, if_pos rfl, placeAfter_concat]

theorem skipGap_gap {gap : List Char} (hgap : Gap gap) (rest : List Char) :
    skipGap false (placeAfter path before) ((gap ++ rest).map .char) =
      skipGap false (placeAfter path (before ++ gap)) (rest.map .char) := by
  induction hgap generalizing before with
  | nil => rw [List.nil_append, List.append_nil]
  | blank hc _ ih =>
    rw [List.cons_append, List.map_cons, skipGap, if_pos hc, ← placeAfter_concat, ih,
      List.append_assoc, List.singleton_append]
  | comment hbody _ ih =>
    rw [List.cons_append, skipGap_paren, List.append_assoc, skipGap_open path _ hbody,
      List.cons_append, List.map_cons, skipGap, bne_self_eq_false, ← placeAfter_concat, ih]
    simp only [List.append_assoc, List.cons_append, List.nil_append]

theorem skipGap_lastGap {tail : List Char} (h : LastGap tail) :
    skipGap false (placeAfter path before) (tail.map .char) =
      .ok (Cursor.behind path (before ++ tail) []) := by
  cases h with
  | gap hgap =>
    have hskip := skipGap_gap path before hgap []
    rw [List.append_nil] at hskip
    rw [hskip]
    rfl
  | @comment gap body hgap hbody =>
    have hopen := skipGap_open path (before ++ gap ++ ['(']) hbody []
    rw [List.append_nil] at hopen
    rw [skipGap_gap path before hgap, skipGap_paren, hopen]
    simp only [List.append_assoc, List.cons_append, List.nil_append]
    rfl

/-- No gap starts with the character. -/
def Solid (c : Char) : Prop := isBlank c = false ∧ c ≠ '('

theorem Lexeme.solid {style : TokenStyle} {lexeme text rest : List Char}
    (h : Lexeme style lexeme text rest) : ∃ c cs, lexeme = c :: cs ∧ Solid c := by
  cases h with
  | double _ => exact ⟨_, _, rfl, by decide, by decide⟩
  | single _ => exact ⟨_, _, rfl, by decide, by decide⟩
  | word hparen _ _ hrun => exact ⟨_, _, rfl, hrun.solid _ List.mem_cons_self, hparen⟩

theorem skipGap_solid {c : Char} (hc : Solid c) (rest : List Char) :
    skipGap false (placeAfter path before) ((c :: rest).map .char) =
      .ok (Cursor.behind path before (c :: rest)) := by
  rw [List.map_cons, skipGap, if_neg (by simp [hc.1]), if_neg hc.2]
  rfl

theorem readWord_run {run rest : List Char} (h : FullRun run rest) :
    readWord (placeAfter path before) ((run ++ rest).map .char) =
      .ok (run, Cursor.behind path (before ++ run) rest) := by
  induction run generalizing before with
  | nil =>
    rw [List.nil_append, List.append_nil]
    cases rest with
    | nil => rfl
    | cons c rest =>
      rw [List.map_cons, readWord, if_pos (h.stops c rest rfl)]
      rfl
  | cons c run ih =>
    have htail : FullRun run rest := ⟨fun d hd => h.solid d (List.mem_cons_of_mem _ hd), h.stops⟩
    rw [List.cons_append, List.map_cons, readWord, h.solid c List.mem_cons_self,
      if_neg Bool.false_ne_true, ← placeAfter_concat, ih _ htail]
    simp only [List.append_assoc, List.cons_append, List.nil_append]

theorem unescape_eq (c : Char) : unescape c = (escapes.lookup c).getD c := by
  unfold unescape
  split
  · rfl
  · rfl
  · rfl
  · rfl
  · rename_i hn hr ht h0
    simp only [escapes, List.lookup_cons, beq_false_of_ne hn, beq_false_of_ne hr,
      beq_false_of_ne ht, beq_false_of_ne h0, List.lookup_nil, Option.getD_none]

theorem readQuoted_quoted {contents text : List Char} (h : Quoted contents text)
    (rest : List Char) :
    readQuoted false (placeAfter path before) ((contents ++ '"' :: rest).map .char) =
      .ok (text, Cursor.behind path (before ++ contents ++ ['"']) rest) := by
  induction h generalizing before with
  | nil =>
    rw [List.nil_append, List.map_cons, readQuoted, if_pos rfl, ← placeAfter_concat,
      List.append_nil]
    rfl
  | plain hquote hslash _ ih =>
    rw [List.cons_append, List.map_cons, readQuoted, if_neg hquote, if_neg hslash,
      ← placeAfter_concat, ih]
    simp only [List.append_assoc, List.cons_append, List.nil_append]
  | escape c _ ih =>
    have hslash : '\\' ≠ '"' := by decide
    rw [List.cons_append, List.cons_append, List.map_cons, List.map_cons, readQuoted, if_neg hslash,
      if_pos rfl, readQuoted, ← placeAfter_concat, ← placeAfter_concat, ih, unescape_eq]
    simp only [List.append_assoc, List.cons_append, List.nil_append]

end Parts

/-- A literal is closed, or the end of the text is met in it. -/
theorem quoted_or_unterminated (l : Location) (cs : List Char) :
    (∃ contents text rest, Quoted contents text ∧ cs = contents ++ '"' :: rest) ∨
      ∃ stop, readQuoted false l (cs.map .char) = .error (.unterminated, stop) := by
  match cs with
  | [] => exact .inr ⟨_, rfl⟩
  | c :: cs =>
    by_cases hquote : c = '"'
    · exact .inl ⟨[], [], cs, .nil, by rw [hquote]; rfl⟩
    · by_cases hslash : c = '\\'
      · -- a backslash takes the next character with it, so the recursion is not structural
        subst hslash
        match cs with
        | [] => exact .inr ⟨_, rfl⟩
        | d :: cs =>
          rcases quoted_or_unterminated ((l.advance '\\').advance d) cs with
            ⟨contents, text, rest, h, rfl⟩ | ⟨stop, h⟩
          · exact .inl ⟨_, _, rest, h.escape d, rfl⟩
          · refine .inr ⟨stop, ?_⟩
            rw [List.map_cons, List.map_cons, readQuoted, if_neg hquote, if_pos rfl, readQuoted, h]
      · rcases quoted_or_unterminated (l.advance c) cs with
          ⟨contents, text, rest, h, rfl⟩ | ⟨stop, h⟩
        · exact .inl ⟨_, _, rest, h.plain hquote hslash, rfl⟩
        · refine .inr ⟨stop, ?_⟩
          rw [List.map_cons, readQuoted, if_neg hquote, if_neg hslash, h]
termination_by cs.length

theorem readQuoted_unclosed {cs : List Char} (h : Unclosed cs) (l : Location) :
    ∃ stop, readQuoted false l (cs.map .char) = .error (.unterminated, stop) :=
  (quoted_or_unterminated l cs).resolve_left fun ⟨_, _, _, hquoted, hcs⟩ => h _ _ _ hquoted hcs

/-! ## 4. Reading a factorization

A cursor that stands behind some characters finds there what is written there. The place it reports
is the place behind what it has passed, so that no lemma speaks of lines and columns. -/

namespace Cursor

variable (path : String) (before : List Char)

theorem tokens_token {c after : Cursor} {t : Token} (h : c.scan = .token t after) :
    c.tokens = (t :: after.tokens.1, after.tokens.2) := by
  rw [tokens]
  split <;> simp_all

theorem tokens_finished {c after : Cursor} (h : c.scan = .finished after) :
    c.tokens = ([], none, after) := by
  rw [tokens]
  split <;> simp_all

theorem tokens_failed {c after : Cursor} {f : Failure} (h : c.scan = .failed f after) :
    c.tokens = ([], some f, after) := by
  rw [tokens]
  split <;> simp_all

theorem scan_behind {cs : List Char} {start : Cursor}
    (h : skipGap false (placeAfter path before) (cs.map .char) = .ok start) :
    (behind path before cs).scan = start.scanToken := by
  unfold scan behind
  dsimp only
  rw [h]

theorem scanToken_behind (c : Char) (rest : List Char) :
    (behind path before (c :: rest)).scanToken =
      if c = '"' then
        .ofQuoted (placeAfter path before)
          (readQuoted false (placeAfter path (before ++ [c])) (rest.map .char))
      else if c = '\'' then
        .ofWord (placeAfter path before) .single
          (readWord (placeAfter path (before ++ [c])) (rest.map .char))
      else
        .ofWord (placeAfter path before) .word
          (readWord (placeAfter path before) ((c :: rest).map .char)) := by
  rw [placeAfter_concat]
  rfl

/-- Behind a gap the next token is the one that starts there. -/
theorem scan_gap {gap : List Char} {c : Char} (hgap : Gap gap) (hc : Solid c) (rest : List Char) :
    (behind path before (gap ++ c :: rest)).scan =
      (behind path (before ++ gap) (c :: rest)).scanToken :=
  scan_behind path before ((skipGap_gap path before hgap _).trans (skipGap_solid path _ hc rest))

/-- **What is written as a token is read as that token.** -/
theorem scanToken_lexeme {style : TokenStyle} {lexeme text rest : List Char}
    (h : Lexeme style lexeme text rest) :
    (behind path before (lexeme ++ rest)).scanToken =
      .token ⟨placeAfter path before, style, String.ofList text⟩
        (behind path (before ++ lexeme) rest) := by
  cases h with
  | double hquoted =>
    rw [List.cons_append, List.append_assoc, List.singleton_append, scanToken_behind, if_pos rfl,
      readQuoted_quoted path _ hquoted]
    simp only [Scan.ofQuoted, List.append_assoc, List.cons_append, List.nil_append]
  | single hrun =>
    rw [List.cons_append, scanToken_behind, if_neg (by decide), if_pos rfl,
      readWord_run path _ hrun]
    simp only [Scan.ofWord, List.append_assoc, List.cons_append, List.nil_append]
  | word _ hquote hsingle hrun =>
    rw [List.cons_append, scanToken_behind, if_neg hquote, if_neg hsingle, ← List.cons_append,
      readWord_run path _ hrun]
    rfl

/-- The tokens of the pieces come first. -/
theorem tokens_factors {ps : List Piece} {tail text : List Char} (h : Factors ps tail text) :
    (behind path before text).tokens =
      (tokensOf path before ps ++ (behind path (before ++ ps.flatMap Piece.chars) tail).tokens.1,
        (behind path (before ++ ps.flatMap Piece.chars) tail).tokens.2) := by
  induction h generalizing before with
  | nil tail => rw [List.flatMap_nil, List.append_nil]; rfl
  | @cons p ps tail rest hgap hlexeme _ ih =>
    obtain ⟨c, cs, hcs, hc⟩ := hlexeme.solid
    have hscan := scan_gap path before hgap hc (cs ++ rest)
    rw [← List.cons_append, ← hcs, scanToken_lexeme path _ hlexeme] at hscan
    rw [tokens_token hscan, List.append_assoc, ih]
    simp only [tokensOf, Piece.chars, List.flatMap_cons, List.append_assoc, List.cons_append]

theorem tokens_lastGap {tail : List Char} (h : LastGap tail) :
    (behind path before tail).tokens = ([], none, behind path (before ++ tail) []) :=
  tokens_finished (scan_behind path before (skipGap_lastGap path before h))

theorem tokens_unclosed {gap body : List Char} (hgap : Gap gap) (hbody : Unclosed body) :
    ∃ stop, (behind path before (gap ++ '"' :: body)).tokens =
      ([], some ⟨.unterminated, some (placeAfter path (before ++ gap))⟩, stop) := by
  obtain ⟨stop, hstop⟩ := readQuoted_unclosed hbody (placeAfter path (before ++ gap ++ ['"']))
  refine ⟨stop, tokens_failed ?_⟩
  rw [scan_gap path before hgap ⟨by decide, by decide⟩, scanToken_behind, if_pos rfl, hstop]
  rfl

end Cursor

/-- A reading of a text is what the cursor finds in it. -/
theorem Reading.tokens {path text : String} {ts : List Token} {failure : Option Failure}
    (h : Reading path text.toList ts failure) :
    ∃ stop, (Cursor.ofText path text).tokens = (ts, failure, stop) := by
  have hstart : Cursor.ofText path text = .behind path [] text.toList := rfl
  cases h with
  | covered hfactors hlast =>
    rw [hstart, Cursor.tokens_factors path [] hfactors, Cursor.tokens_lastGap path _ hlast,
      List.append_nil]
    exact ⟨_, rfl⟩
  | unclosed hfactors hgap hbody =>
    obtain ⟨stop, hstop⟩ := Cursor.tokens_unclosed path _ hgap hbody
    rw [hstart, Cursor.tokens_factors path [] hfactors, List.nil_append, hstop, List.append_nil]
    exact ⟨_, rfl⟩

/-! ## 5. Every text can be read -/

theorem FullRun.cons {c : Char} {run rest : List Char} (h : FullRun run rest)
    (hc : isBlank c = false) : FullRun (c :: run) rest :=
  ⟨List.forall_mem_cons.mpr ⟨hc, h.solid⟩, h.stops⟩

theorem exists_fullRun (cs : List Char) : ∃ run rest, cs = run ++ rest ∧ FullRun run rest := by
  induction cs with
  | nil => exact ⟨[], [], rfl, nofun, nofun⟩
  | cons c cs ih =>
    cases hc : isBlank c with
    | true => exact ⟨[], c :: cs, rfl, nofun, fun d ds h => by cases h; exact hc⟩
    | false =>
      obtain ⟨run, rest, rfl, hrun⟩ := ih
      exact ⟨c :: run, rest, rfl, hrun.cons hc⟩

/-- A text is the last gap of a text, or a gap ends in it where a token starts. -/
theorem lastGap_or_solid (cs : List Char) :
    LastGap cs ∨ ∃ gap c rest, Gap gap ∧ Solid c ∧ cs = gap ++ c :: rest := by
  match cs with
  | [] => exact .inl (.gap .nil)
  | c :: cs =>
    cases hc : isBlank c with
    | true =>
      rcases lastGap_or_solid cs with (hgap | ⟨hgap, hbody⟩) | ⟨gap, d, rest, hgap, hd, rfl⟩
      · exact .inl (.gap (hgap.blank hc))
      · exact .inl (.comment (hgap.blank hc) hbody)
      · exact .inr ⟨_, d, rest, hgap.blank hc, hd, rfl⟩
    | false =>
      by_cases hparen : c = '('
      · subst hparen
        -- only the last comment may be open: nothing stands behind it
        by_cases hclosed : ')' ∈ cs
        · obtain ⟨body, cs, rfl, hbody⟩ := List.eq_append_cons_of_mem hclosed
          rcases lastGap_or_solid cs with (hgap | ⟨hgap, hbody'⟩) | ⟨gap, d, rest, hgap, hd, rfl⟩
          · exact .inl (.gap (hgap.comment hbody))
          · exact .inl (by simpa using LastGap.comment (hgap.comment hbody) hbody')
          · exact .inr ⟨_, d, rest, hgap.comment hbody, hd, by simp⟩
        · exact .inl (.comment .nil hclosed)
      · exact .inr ⟨[], c, cs, .nil, ⟨hc, hparen⟩, rfl⟩
termination_by cs.length

/-- Where a token starts there is a lexeme, or a literal that is not closed. -/
theorem exists_lexeme {c : Char} (hc : Solid c) (cs : List Char) :
    (∃ style lexeme text rest, Lexeme style lexeme text rest ∧ c :: cs = lexeme ++ rest) ∨
      c = '"' ∧ Unclosed cs := by
  by_cases hquote : c = '"'
  · subst hquote
    by_cases hclosed : ∃ contents text rest, Quoted contents text ∧ cs = contents ++ '"' :: rest
    · obtain ⟨contents, text, rest, hquoted, rfl⟩ := hclosed
      exact .inl ⟨_, _, _, rest, .double hquoted, by simp⟩
    · exact .inr ⟨rfl, fun contents text rest h hcs => hclosed ⟨contents, text, rest, h, hcs⟩⟩
  · refine .inl ?_
    by_cases hsingle : c = '\''
    · subst hsingle
      obtain ⟨run, rest, rfl, hrun⟩ := exists_fullRun cs
      exact ⟨_, _, _, rest, .single hrun, rfl⟩
    · obtain ⟨run, rest, rfl, hrun⟩ := exists_fullRun cs
      exact ⟨_, _, _, rest, .word hc.2 hquote hsingle (hrun.cons hc.1), rfl⟩

/-- **Every text falls into pieces**, up to a last gap or a literal that is not closed. -/
theorem exists_factors (text : List Char) :
    ∃ ps tail, Factors ps tail text ∧
      (LastGap tail ∨ ∃ gap body, Gap gap ∧ Unclosed body ∧ tail = gap ++ '"' :: body) := by
  rcases lastGap_or_solid text with hlast | ⟨gap, c, cs, hgap, hc, htext⟩
  · exact ⟨[], text, .nil text, .inl hlast⟩
  · rcases exists_lexeme hc cs with ⟨style, lexeme, shown, rest, hlexeme, hcs⟩ | ⟨rfl, hbody⟩
    · obtain ⟨ps, tail, hfactors, hend⟩ := exists_factors rest
      refine ⟨⟨gap, style, lexeme, shown⟩ :: ps, tail, ?_, hend⟩
      rw [htext, hcs]
      exact .cons hgap hlexeme hfactors
    · exact ⟨[], text, .nil text, .inr ⟨gap, cs, hgap, hbody, htext⟩⟩
termination_by text.length
decreasing_by
  obtain ⟨d, ds, hd, -⟩ := hlexeme.solid
  rw [htext, hcs, hd]
  simp only [List.length_append, List.length_cons]
  omega

theorem exists_reading (path : String) (text : List Char) :
    ∃ ts failure, Reading path text ts failure := by
  obtain ⟨ps, tail, hfactors, hlast | ⟨gap, body, hgap, hbody, rfl⟩⟩ := exists_factors text
  · exact ⟨_, _, .covered hfactors hlast⟩
  · exact ⟨_, _, .unclosed hfactors hgap hbody⟩

/-- **The tokens of a text are those of its factorization**, and there is no failure just if the
factorization covers the text. -/
theorem Cursor.tokens_iff_reading (path text : String) :
    (∀ ts failure, (∃ stop, (Cursor.ofBytes path text.toUTF8).tokens = (ts, failure, stop)) ↔
      Reading path text.toList ts failure) ∧
    ((Cursor.ofBytes path text.toUTF8).tokens.2.1 = none ↔
      ∃ ps tail, Factors ps tail text.toList ∧ LastGap tail) := by
  rw [Cursor.ofBytes_toUTF8]
  obtain ⟨ts, failure, hreading⟩ := exists_reading path text.toList
  obtain ⟨stop, hstop⟩ := hreading.tokens
  refine ⟨fun ts' failure' => ⟨?_, Reading.tokens⟩, ?_⟩
  · rintro ⟨stop', hstop'⟩
    cases hstop.symm.trans hstop'
    exact hreading
  · constructor
    · intro hnone
      rw [hstop] at hnone
      cases hreading with
      | covered hfactors hlast => exact ⟨_, _, hfactors, hlast⟩
      | unclosed _ _ _ => cases hnone
    · rintro ⟨ps, tail, hfactors, hlast⟩
      have hcovered : Reading path text.toList (tokensOf path [] ps) none :=
        .covered hfactors hlast
      obtain ⟨stop', hstop'⟩ := hcovered.tokens
      rw [hstop']

end ScopeStack
