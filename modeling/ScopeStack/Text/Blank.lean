/-!
# White space

`isBlank` is the property White_Space of the Unicode standard. It separates words in source text,
and it is what trimming takes away.
-/

namespace ScopeStack

/-- The ranges of code points that are white space. -/
def blankRanges : List (Nat × Nat) :=
  [(0x9, 0xd), (0x20, 0x20), (0x85, 0x85), (0xa0, 0xa0), (0x1680, 0x1680), (0x2000, 0x200a),
    (0x2028, 0x2029), (0x202f, 0x202f), (0x205f, 0x205f), (0x3000, 0x3000)]

/-- Is the character white space? -/
def isBlank (c : Char) : Bool :=
  blankRanges.any fun (lo, hi) => lo ≤ c.toNat && c.toNat ≤ hi

/-- The text without white space at either end. -/
def trimBlank (s : String) : String :=
  ((s.dropWhile isBlank).dropEndWhile isBlank).copy

end ScopeStack
