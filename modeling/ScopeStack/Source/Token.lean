import ScopeStack.Location

/-!
# Tokens

The smallest units of source text: strings in either quoting style, and words, which are all else.
Numbers, booleans and block delimiters are told apart later (`ScopeStack.Source.Literal`).
-/

namespace ScopeStack

/-- How a token is written. -/
inductive TokenStyle where
  /-- Between double quotes, with escapes. -/
  | double
  /-- After a single quote, up to the next white space. -/
  | single
  /-- Bare. -/
  | word
deriving DecidableEq

/-- A unit of source text and the place of its first character. -/
structure Token where
  location : Location
  style : TokenStyle
  text : String
deriving DecidableEq

namespace Token

/-- The token with its quotes. Escapes are not restored. -/
def written (t : Token) : String :=
  match t.style with
  | .double => s!"\"{t.text}\""
  | .single => s!"'{t.text}"
  | .word => t.text

/-- The token with its place in front. -/
def trace (t : Token) : String :=
  s!"{t.location.text}: {t.written}"

end Token

end ScopeStack
