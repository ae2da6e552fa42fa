/-!
# Blank text

A text is blank if it holds nothing but white space. White space is the character property
`White_Space`, which reaches well beyond ASCII.
-/

namespace Recast.Text

/-- The code points with the property `White_Space`, as inclusive ranges in ascending order. -/
def whiteSpaceRanges : List (Nat × Nat) :=
  [(0x0009, 0x000d), (0x0020, 0x0020), (0x0085, 0x0085), (0x00a0, 0x00a0), (0x1680, 0x1680),
   (0x2000, 0x200a), (0x2028, 0x2029), (0x202f, 0x202f), (0x205f, 0x205f), (0x3000, 0x3000)]

def isWhiteSpace (c : Char) : Bool :=
  whiteSpaceRanges.any fun range => range.1 ≤ c.toNat && c.toNat ≤ range.2

/-- Does the text hold no character outside white space? The empty text is blank. -/
def isBlank (text : String) : Bool :=
  text.toList.all isWhiteSpace

/-- The ASCII characters that core calls white space are white space here too. -/
theorem isWhiteSpace_of_isWhitespace {c : Char} (h : c.isWhitespace) : isWhiteSpace c := by
  simp only [Char.isWhitespace, Bool.or_eq_true, decide_eq_true_eq] at h
  rcases h with ((rfl | rfl) | rfl) | rfl <;> rfl

@[simp]
theorem isBlank_empty : isBlank "" = true := rfl

end Recast.Text
