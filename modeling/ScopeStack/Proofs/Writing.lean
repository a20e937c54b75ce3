import ScopeStack.Proofs.Lexemes

/-!
# Writing tokens down

A list of tokens is written so that it reads back: each token in its canonical form, and a separator
between two of them. A separator starts with white space, because a word and a string in single
quotes end nowhere else. Behind that any gap may follow.

* `Mark`: a token without its place, of the kinds that some text stands for; `Mark.spelling`: its
  canonical form.
* `escaped`: the contents of a string literal in canonical form.
* `Separator`: what may stand between two tokens; `joined`: the text of a list of marks.
* `Cursor.tokens_joined`: **what is written reads back.**
-/

namespace ScopeStack

/-! ## 1. The canonical form of a token -/

/-- The contents of a literal that stand for a text: every quote and every backslash is written
behind a backslash, and all else as it is. -/
def escaped : List Char → List Char
  | [] => []
  | c :: cs => if c = '"' ∨ c = '\\' then '\\' :: c :: escaped cs else c :: escaped cs

theorem quoted_escaped (text : List Char) : Quoted (escaped text) text := by
  induction text with
  | nil => exact .nil
  | cons c text ih =>
    by_cases hc : c = '"' ∨ c = '\\'
    · -- neither of the two characters stands for another one behind a backslash
      have hself : (escapes.lookup c).getD c = c := by rcases hc with rfl | rfl <;> decide
      have hquoted := ih.escape c
      rw [hself] at hquoted
      rw [escaped, if_pos hc]
      exact hquoted
    · rw [escaped, if_neg hc]
      exact ih.plain (fun h => hc (.inl h)) (fun h => hc (.inr h))

example : escaped "a \"b\" \\ \n".toList = "a \\\"b\\\" \\\\ \n".toList := by decide

/-- A token without its place. A string in double quotes has any text; one in single quotes has no
white space in it. A word has none either, is not empty, and starts like neither a comment nor a
string. -/
inductive Mark where
  | double (text : String)
  | single (text : String) (solid : ∀ c ∈ text.toList, isBlank c = false)
  | word (text : String) (solid : ∀ c ∈ text.toList, isBlank c = false)
      (start : ∃ c ∈ text.toList.head?, c ≠ '(' ∧ c ≠ '"' ∧ c ≠ '\'')

namespace Mark

def style : Mark → TokenStyle
  | double _ => .double
  | single _ _ => .single
  | word _ _ _ => .word

def text : Mark → String
  | double text => text
  | single text _ => text
  | word text _ _ => text

/-- The canonical form of a token. -/
def spelling : Mark → List Char
  | double text => '"' :: (escaped text.toList ++ ['"'])
  | single text _ => '\'' :: text.toList
  | word text _ _ => text.toList

/-- The canonical form reads as the token wherever white space or the end follows. -/
theorem lexeme (m : Mark) (rest : List Char)
    (hrest : ∀ c cs, rest = c :: cs → isBlank c = true) :
    Lexeme m.style m.spelling m.text.toList rest := by
  cases m with
  | double text => exact .double (quoted_escaped text.toList)
  | single text solid => exact .single ⟨solid, hrest⟩
  | word text solid start =>
    obtain ⟨c, hc, hparen, hquote, hsingle⟩ := start
    obtain ⟨cs, hcs⟩ := List.head?_eq_some_iff.mp hc
    simp only [style, spelling, Mark.text, hcs] at solid ⊢
    exact .word hparen hquote hsingle ⟨solid, hrest⟩

end Mark

/-! ## 2. Lists of tokens -/

/-- White space, and any gap behind it. -/
structure Separator where
  first : Char
  rest : List Char
  blank : isBlank first = true
  gap : Gap rest

namespace Separator

def chars (s : Separator) : List Char := s.first :: s.rest

theorem gap_chars (s : Separator) : Gap s.chars := s.gap.blank s.blank

/-- A separator of a single blank. -/
def space : Separator := ⟨' ', [], by decide, .nil⟩

end Separator

/-- The text of a list of tokens with separators between them. Where these give out, a single blank
stands. -/
def joined : List Mark → List Separator → List Char
  | [], _ => []
  | [m], _ => m.spelling
  | m :: next :: ms, separators =>
    m.spelling ++ ((separators.headD .space).chars ++ joined (next :: ms) separators.tail)

/-- The text of a list of tokens, behind some gap, falls into pieces that are those tokens. -/
theorem factors_joined (ms : List Mark) (separators : List Separator) {lead : List Char}
    (hlead : Gap lead) :
    ∃ ps tail, Factors ps tail (lead ++ joined ms separators) ∧ Gap tail ∧
      ps.map (fun p => (p.style, p.text)) = ms.map (fun m => (m.style, m.text.toList)) := by
  induction ms generalizing separators lead with
  | nil =>
    refine ⟨[], lead, ?_, hlead, rfl⟩
    rw [joined, List.append_nil]
    exact .nil lead
  | cons m ms ih =>
    cases ms with
    | nil =>
      have hlexeme := m.lexeme [] nofun
      refine ⟨[⟨lead, m.style, m.spelling, m.text.toList⟩], [], ?_, .nil, rfl⟩
      have hfactors := Factors.cons (p := ⟨lead, m.style, m.spelling, m.text.toList⟩) hlead hlexeme
        (.nil [])
      rwa [List.append_nil] at hfactors
    | cons next ms =>
      -- the separator is the gap in front of the next token, and its first character ends this one
      obtain ⟨ps, tail, hfactors, htail, hmap⟩ :=
        ih separators.tail (separators.headD .space).gap_chars
      have hlexeme := m.lexeme
        ((separators.headD .space).chars ++ joined (next :: ms) separators.tail)
        (fun c cs h => by cases h; exact (separators.headD .space).blank)
      refine ⟨⟨lead, m.style, m.spelling, m.text.toList⟩ :: ps, tail, ?_, htail, ?_⟩
      · exact .cons hlead hlexeme hfactors
      · rw [List.map_cons, List.map_cons, hmap]

theorem tokensOf_map (path : String) (before : List Char) (ps : List Piece) :
    (tokensOf path before ps).map (fun t => (t.style, t.text)) =
      ps.map (fun p => (p.style, String.ofList p.text)) := by
  induction ps generalizing before with
  | nil => rfl
  | cons p ps ih => rw [tokensOf, List.map_cons, List.map_cons, ih]

/-- **What is written reads back**: the text of a list of tokens, with any separators, has just
these tokens, and nothing in it fails to be read. -/
theorem Cursor.tokens_joined (path : String) (ms : List Mark) (separators : List Separator) :
    ∃ ts stop, (Cursor.ofBytes path (String.ofList (joined ms separators)).toUTF8).tokens =
        (ts, none, stop) ∧
      ts.map (fun t => (t.style, t.text)) = ms.map (fun m => (m.style, m.text)) := by
  obtain ⟨ps, tail, hfactors, htail, hmap⟩ := factors_joined ms separators .nil
  have hreading : Reading path (String.ofList (joined ms separators)).toList (tokensOf path [] ps)
      none := by
    rw [String.toList_ofList]
    exact .covered hfactors (.gap htail)
  obtain ⟨stop, hstop⟩ := hreading.tokens
  refine ⟨tokensOf path [] ps, stop, ?_, ?_⟩
  · rw [Cursor.ofBytes_toUTF8, hstop]
  · have htexts := congrArg (List.map (Prod.map id String.ofList)) hmap
    simp only [List.map_map, Function.comp_def, Prod.map, id_eq, String.ofList_toList] at htexts
    rw [tokensOf_map, htexts]

end ScopeStack
