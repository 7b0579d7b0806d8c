import Stylesheet.Text

/-!
# Character classes

A `Classifier` says which classes an ASCII character belongs to. The lexer decides with it where
white space, words and at-keywords end. `Classifier.stock` is the classification of plain
stylesheets; a dialect with other word boundaries starts from it and inserts or removes single
code points. No character outside ASCII is in a class (`is_eq_false_of_le`).
-/

namespace Stylesheet

/-- What a character can mean to the lexer. `space` starts and continues white space, `wordEnd`
and `atEnd` end a word and an at-keyword, `badBracket` is refused inside a group that is read as
one token, and `hex` is a hexadecimal digit of an escape. -/
inductive CharClass where
  | space
  | wordEnd
  | atEnd
  | badBracket
  | hex
  deriving Repr, DecidableEq

namespace CharClass

/-- All classes. -/
def all : List CharClass :=
  [space, wordEnd, atEnd, badBracket, hex]

/-- The characters of each class in a plain stylesheet. -/
def stockMembers : CharClass → Text
  | space => " \t\n\r\x0c".toList
  | wordEnd => " \t\n\r\x0c!\"#'():;@[\\]\x7b\x7d".toList
  | atEnd => " \t\n\r\x0c\"#'()/;[\\]\x7b\x7d".toList
  | badBracket => "\r\n\"'(/\\".toList
  | hex => "0123456789abcdefABCDEF".toList

end CharClass

/-- A classification of the ASCII characters: `member k n` says that the character with code point
`n` is in class `k`. Code points outside ASCII are not looked up. -/
structure Classifier where
  member : CharClass → Nat → Bool

namespace Classifier

/-- The classification of plain stylesheets. -/
def stock : Classifier where
  member k n := k.stockMembers.any (·.toNat == n)

/-- `t.holds k n` says that the code point `n` is in class `k`, which needs it to be ASCII. -/
def holds (t : Classifier) (k : CharClass) (n : Nat) : Bool :=
  n < 128 && t.member k n

/-- `t.is k c` says that the character `c` is in class `k`. -/
def is (t : Classifier) (k : CharClass) (c : Char) : Bool :=
  t.holds k c.toNat

/-- `t.insert n classes` adds the code point to all the classes. -/
def insert (t : Classifier) (n : Nat) (classes : List CharClass) : Classifier where
  member k m := t.member k m || (m == n && classes.contains k)

/-- `t.remove n classes` takes the code point out of all the classes. -/
def remove (t : Classifier) (n : Nat) (classes : List CharClass) : Classifier where
  member k m := t.member k m && !(m == n && classes.contains k)

/-- `t.members k` lists the code points below 256 in class `k`, in increasing order. -/
def members (t : Classifier) (k : CharClass) : List Nat :=
  (List.range 256).filter (t.holds k)

/-- `t.isStock` says that the classification is the one of plain stylesheets. -/
def isStock (t : Classifier) : Bool :=
  CharClass.all.all fun k ↦ t.members k == stock.members k

/-- No character outside ASCII is in a class. -/
theorem is_eq_false_of_le {t : Classifier} {k : CharClass} {c : Char} (h : 128 ≤ c.toNat) :
    t.is k c = false := by
  simp only [is, holds, Bool.and_eq_false_iff, decide_eq_false_iff_not]
  left
  omega

/-- In a plain stylesheet a class has the characters that are listed for it. -/
theorem stock_is_iff {k : CharClass} {c : Char} : stock.is k c = true ↔ c ∈ k.stockMembers := by
  simp only [is, holds, stock, Bool.and_eq_true, decide_eq_true_eq, List.any_eq_true, beq_iff_eq]
  constructor
  · rintro ⟨-, d, hd, hcd⟩
    rwa [← Char.toNat_inj.mp hcd]
  · intro hc
    have hascii : k.stockMembers.all (·.toNat < 128) = true := by cases k <;> decide
    exact ⟨of_decide_eq_true (List.all_eq_true.mp hascii c hc), c, hc, rfl⟩

/-- An insertion changes the classes that it names, at its code point and nowhere else. -/
theorem holds_insert (t : Classifier) (n : Nat) (classes : List CharClass) (k : CharClass)
    (m : Nat) :
    (t.insert n classes).holds k m =
      (t.holds k m || (decide (m < 128) && (m == n && classes.contains k))) := by
  simp [holds, insert, Bool.and_or_distrib_left]

/-- A removal changes the classes that it names, at its code point and nowhere else. -/
theorem holds_remove (t : Classifier) (n : Nat) (classes : List CharClass) (k : CharClass)
    (m : Nat) :
    (t.remove n classes).holds k m = (t.holds k m && !(m == n && classes.contains k)) := by
  simp [holds, remove, Bool.and_assoc]

end Classifier

end Stylesheet
