import Stylesheet.Text.Blank

/-!
# Document text

`Text` is the text of a stylesheet or of a part of one, a list of characters. Offsets into a
document count the bytes of its UTF-8 encoding, and `Text.utf8Size` measures a text in them.
The other functions cut a text at its blank edges or behind its last line feed.
`utf8Size_append` says that the measure is additive, and the `_append_` lemmas say that no cut
loses a character.
-/

namespace Stylesheet

/-- The text of a stylesheet or of a part of one. -/
abbrev Text := List Char

namespace Text

/-- `utf8Size text` computes the number of bytes in the UTF-8 encoding of `text`. -/
def utf8Size (text : Text) : Nat :=
  text.foldr (fun c size ↦ c.utf8Size + size) 0

@[simp] theorem utf8Size_nil : utf8Size [] = 0 := rfl

@[simp] theorem utf8Size_cons (c : Char) (text : Text) :
    utf8Size (c :: text) = c.utf8Size + utf8Size text := rfl

@[simp] theorem utf8Size_append (first second : Text) :
    utf8Size (first ++ second) = utf8Size first + utf8Size second := by
  induction first with
  | nil => simp
  | cons c first ih => simp [ih, Nat.add_assoc]

/-- Characters of one byte count for one each. -/
theorem utf8Size_replicate {c : Char} (hc : c.utf8Size = 1) (n : Nat) :
    utf8Size (List.replicate n c) = n := by
  induction n with
  | zero => rfl
  | succ n ih => rw [List.replicate_succ, utf8Size_cons, ih, hc, Nat.add_comm]

/-- A text whose encoding has no bytes has no characters. -/
theorem utf8Size_eq_zero_iff {text : Text} : utf8Size text = 0 ↔ text = [] := by
  cases text with
  | nil => simp
  | cons c text =>
      have := c.utf8Size_pos
      simp
      omega

/-- A text that does not start with a character of a run does not make a run before it longer. -/
theorem takeWhile_append_of_head? {p : Char → Bool} {behind : Text}
    (h : behind.head?.any p = false) (text : Text) :
    (text ++ behind).takeWhile p = text.takeWhile p := by
  induction text with
  | nil =>
      cases behind with
      | nil => rfl
      | cons d behind => exact List.takeWhile_cons_of_neg (ne_true_of_eq_false h)
  | cons c text ih => rw [List.cons_append, List.takeWhile_cons, List.takeWhile_cons, ih]

/-- `equalsIgnoringCase left right` says that the texts differ at most in the case of ASCII
letters. -/
def equalsIgnoringCase (left right : Text) : Bool :=
  left.map Char.toLower == right.map Char.toLower

/-! ## Blank edges -/

/-- `blankStart text` computes the blank characters that `text` starts with. -/
def blankStart (text : Text) : Text :=
  text.takeWhile Char.isBlank

/-- `trimStart text` drops the blank characters that `text` starts with. -/
def trimStart (text : Text) : Text :=
  text.dropWhile Char.isBlank

/-- `blankEnd text` computes the blank characters that `text` ends with. -/
def blankEnd (text : Text) : Text :=
  (blankStart text.reverse).reverse

/-- `trimEnd text` drops the blank characters that `text` ends with. -/
def trimEnd (text : Text) : Text :=
  (trimStart text.reverse).reverse

/-- `trim text` drops the blank characters at both ends of `text`. -/
def trim (text : Text) : Text :=
  trimEnd (trimStart text)

/-- `blanks text` keeps only the blank characters of `text`. -/
def blanks (text : Text) : Text :=
  text.filter Char.isBlank

@[simp] theorem blankStart_append_trimStart (text : Text) :
    blankStart text ++ trimStart text = text :=
  List.takeWhile_append_dropWhile

@[simp] theorem trimEnd_append_blankEnd (text : Text) :
    trimEnd text ++ blankEnd text = text := by
  rw [trimEnd, blankEnd, ← List.reverse_append, blankStart_append_trimStart, List.reverse_reverse]

theorem isBlank_of_mem_blanks {text : Text} {c : Char} (h : c ∈ blanks text) :
    c.isBlank = true :=
  (List.mem_filter.mp h).2

/-! ## The last line -/

/-- `splitLastLine text` cuts `text` behind its last line feed, or is `none` if it has no line
feed. -/
def splitLastLine : Text → Option (Text × Text)
  | [] => none
  | c :: text =>
      match splitLastLine text with
      | some (lines, last) => some (c :: lines, last)
      | none => if c = '\n' then some ([c], text) else none

/-- Cutting behind the last line feed loses nothing. -/
theorem append_of_splitLastLine {text lines last : Text}
    (h : splitLastLine text = some (lines, last)) : lines ++ last = text := by
  induction text generalizing lines with
  | nil => simp [splitLastLine] at h
  | cons c text ih =>
      cases hrest : splitLastLine text with
      | some cut =>
          obtain ⟨rest, tail⟩ := cut
          simp only [splitLastLine, hrest, Option.some.injEq, Prod.mk.injEq] at h
          obtain ⟨rfl, rfl⟩ := h
          simp [ih hrest]
      | none =>
          simp only [splitLastLine, hrest] at h
          split at h
          · simp only [Option.some.injEq, Prod.mk.injEq] at h
            obtain ⟨rfl, rfl⟩ := h
            rfl
          · simp at h

/-- `throughLastNewline text` drops what follows the last line feed of `text`; a text without a
line feed stays as it is. -/
def throughLastNewline (text : Text) : Text :=
  match splitLastLine text with
  | some (lines, _) => lines
  | none => text

/-- `lineIndent text` computes the blank characters behind the last line feed of `text`, or is
`none` if it has no line feed. -/
def lineIndent (text : Text) : Option Text :=
  (splitLastLine text).map fun cut => blanks cut.2

end Text

end Stylesheet
