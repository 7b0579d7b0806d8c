import Stylesheet.Text

/-!
# Positions in a source text

A `Position` is a line, a column and a byte offset. Lines and columns count from one, columns
count characters, and only the line feed ends a line. A `Source` is the text of a document with
its file name, and `Source.position` finds the position of a byte offset by reading the text from
its start. An offset behind the end stands for the end, and an offset inside a character stands
for the start of that character.
-/

namespace Stylesheet

/-- A place in a text: line and column count from one, the offset counts bytes from zero. -/
structure Position where
  line : Nat
  column : Nat
  offset : Nat
  deriving Repr, DecidableEq, Inhabited

namespace Position

/-- The position where every text starts. -/
def start : Position := ⟨1, 1, 0⟩

/-- `p.advance c` is the position behind a character `c` that stands at `p`. -/
def advance (p : Position) (c : Char) : Position :=
  if c = '\n' then ⟨p.line + 1, 1, p.offset + c.utf8Size⟩
  else ⟨p.line, p.column + 1, p.offset + c.utf8Size⟩

/-- `p.advanceText text` is the position behind a text that starts at `p`. -/
def advanceText (p : Position) (text : Text) : Position :=
  text.foldl advance p

@[simp] theorem advance_offset (p : Position) (c : Char) :
    (p.advance c).offset = p.offset + c.utf8Size := by
  unfold advance
  split <;> rfl

@[simp] theorem advanceText_nil (p : Position) : p.advanceText [] = p := rfl

@[simp] theorem advanceText_cons (p : Position) (c : Char) (text : Text) :
    p.advanceText (c :: text) = (p.advance c).advanceText text := rfl

theorem advanceText_append (p : Position) (first second : Text) :
    p.advanceText (first ++ second) = (p.advanceText first).advanceText second := by
  simp [advanceText]

@[simp] theorem advanceText_offset (p : Position) (text : Text) :
    (p.advanceText text).offset = p.offset + text.utf8Size := by
  induction text generalizing p with
  | nil => simp
  | cons c text ih => simp [ih, Nat.add_assoc]

/-- `p.lineColumn` writes a position as `line:column`. -/
def lineColumn (p : Position) : String :=
  s!"{p.line}:{p.column}"

/-- `seek offset text p` reads `text`, which starts at `p`, as long as its characters end at or
before the byte offset, and computes the position that is reached. -/
def seek (offset : Nat) : Text → Position → Position
  | [], p => p
  | c :: text, p =>
      if p.offset + c.utf8Size ≤ offset then seek offset text (p.advance c) else p

end Position

/-- A range of bytes in a text, from `start` up to but without `stop`. -/
structure Span where
  start : Nat
  stop : Nat
  deriving Repr, DecidableEq, Inhabited

/-- `Span.point offset` is the empty range at a byte offset. -/
def Span.point (offset : Nat) : Span := ⟨offset, offset⟩

/-- The text of a document and the name of the file that it was read from. -/
structure Source where
  text : Text
  file : Option String := none
  deriving Repr, DecidableEq, Inhabited

namespace Source

/-- The file name shown for a text that was not read from a file. -/
def anonymous : String := "<css input>"

/-- `fileName file` is the name to show for an optional file name. -/
def fileName (file : Option String) : String :=
  file.getD anonymous

/-- `s.displayName` is the file name to show in messages. -/
def displayName (s : Source) : String :=
  fileName s.file

/-- `s.size` is the length of the text in bytes. -/
def size (s : Source) : Nat :=
  s.text.utf8Size

/-- `s.position offset` is the position of the last character boundary at or before the byte
offset and the end of the text. Its line and column have no bound; `Source.place?` has the numbers
of 32 bits that they are kept in. -/
def position (s : Source) (offset : Nat) : Position :=
  Position.seek offset s.text Position.start

/-- `s.endPosition stop` is the position of the character before the byte offset `stop`, with
`stop` itself as its offset. -/
def endPosition (s : Source) (stop : Nat) : Position :=
  { s.position (stop - 1) with offset := stop }

end Source

end Stylesheet
