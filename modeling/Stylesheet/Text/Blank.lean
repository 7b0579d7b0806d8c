/-!
# Blank characters

`Char.isBlank` is the Unicode property `White_Space`. It holds of every character that the core
predicate `Char.isWhitespace` accepts, and of the vertical tab, the form feed, the next-line
character and the spaces and separators outside ASCII.
-/

namespace Stylesheet

/-- The code points outside the range `U+0009` to `U+000D` that have the property
`White_Space`. -/
def blankCodePoints : List Nat :=
  [0x20, 0x85, 0xA0, 0x1680, 0x2000, 0x2001, 0x2002, 0x2003, 0x2004, 0x2005, 0x2006, 0x2007,
    0x2008, 0x2009, 0x200A, 0x2028, 0x2029, 0x202F, 0x205F, 0x3000]

end Stylesheet

/-- `c.isBlank` says that the character has the Unicode property `White_Space`. -/
def Char.isBlank (c : Char) : Bool :=
  (0x09 ≤ c.toNat && c.toNat ≤ 0x0D) || Stylesheet.blankCodePoints.contains c.toNat

namespace Stylesheet

/-- Every character that core counts as white space is blank. -/
theorem isBlank_of_isWhitespace {c : Char} (h : c.isWhitespace = true) : c.isBlank = true := by
  simp only [Char.isWhitespace, Bool.or_eq_true, decide_eq_true_eq] at h
  rcases h with ((rfl | rfl) | rfl) | rfl <;> decide

end Stylesheet
