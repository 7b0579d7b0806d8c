import Stylesheet.Token.Basic
import Stylesheet.Node.Raws

/-!
# Defects of a source text

A `Defect` is one way in which a text can be malformed, with the wording for it. A `ParseError` is
a defect with its place in a source. Each defect does a damage of its own to the document that is
repaired behind it (`eq_of_damage_eq`).
-/

namespace Stylesheet

/-- What can be wrong with a text. -/
inductive Defect where
  | unclosedString
  | unclosedComment
  | unclosedBracket
  | unclosedBlock
  | unexpectedClose
  | unknownWord (word : Text)
  | missedSemicolon
  | doubleColon
  | unnamedAtRule
  | missingValue
  deriving Repr, DecidableEq

namespace Defect

/-- The defect of a construct that is open at the end of the text. -/
def ofOpenConstruct : OpenConstruct → Defect
  | .string => unclosedString
  | .comment => unclosedComment
  | .bracket => unclosedBracket

/-- The damage that is recorded when the defect is repaired. -/
def damage : Defect → Damage
  | unclosedString => .unclosedString
  | unclosedComment => .unclosedComment
  | unclosedBracket => .unclosedBracket
  | unclosedBlock => .unclosedBlock
  | unexpectedClose => .unexpectedClose
  | unknownWord _ => .unknownWord
  | missedSemicolon => .missedSemicolon
  | doubleColon => .doubleColon
  | unnamedAtRule => .unnamedAtRule
  | missingValue => .missingValue

/-- The defect in a few words. -/
def message : Defect → String
  | unclosedString => "unclosed string"
  | unclosedComment => "unclosed comment"
  | unclosedBracket => "unclosed bracket"
  | unclosedBlock => "unclosed block"
  | unexpectedClose => "unexpected `\x7d`"
  | unknownWord word => "unknown word `" ++ String.ofList word ++ "`"
  | missedSemicolon => "missed semicolon"
  | doubleColon => "double colon"
  | unnamedAtRule => "at-rule without name"
  | missingValue => "missing value"

/-- What to write at the place of the defect. -/
def label : Defect → String
  | unclosedString => "string opened here"
  | unclosedComment => "comment opened here"
  | unclosedBracket => "bracket opened here"
  | unclosedBlock => "block opened here"
  | unexpectedClose => "nothing to close"
  | unknownWord _ => "not a rule, declaration or at-rule"
  | missedSemicolon => "previous declaration ends here"
  | doubleColon => "second colon"
  | unnamedAtRule => "expected a name after `@`"
  | missingValue => "value expected before this"

/-- What to do about the defect, where there is an advice. -/
def help : Defect → Option String
  | unclosedString => some "add the matching closing quote"
  | unclosedComment => some "add a closing `*/`"
  | unclosedBracket => some "add a closing `)`"
  | unclosedBlock => some "add a closing `\x7d`"
  | missedSemicolon => some "separate declarations with `;`"
  | unknownWord _ => some "declarations need a `:` and rules need a `\x7b`"
  | unexpectedClose | doubleColon | unnamedAtRule | missingValue => none

/-- Two defects that do the same damage are the same or are both words that are not known. -/
theorem eq_of_damage_eq {d e : Defect} (h : d.damage = e.damage) :
    d = e ∨ ∃ v w, d = unknownWord v ∧ e = unknownWord w := by
  cases d <;> cases e <;> simp_all [damage]

end Defect

/-- A defect and its place. -/
structure ParseError where
  defect : Defect
  span : Span
  position : Position
  file : Option String := none
  deriving Repr, DecidableEq

namespace ParseError

/-- `place source defect span` places a defect in a source. -/
def place (source : Source) (defect : Defect) (span : Span) : ParseError :=
  ⟨defect, span, source.position span.start, source.file⟩

/-- `ofTokenizeError source e` places a construct that is open at the end of the text at its first
byte. -/
def ofTokenizeError (source : Source) (e : TokenizeError) : ParseError :=
  place source (.ofOpenConstruct e.construct) ⟨e.offset, e.offset + 1⟩

/-- The place of the error in words: file, line and column. -/
def location (e : ParseError) : String :=
  s!"{Source.fileName e.file}:{e.position.lineColumn}"

/-- The message of the error. -/
def message (e : ParseError) : String :=
  s!"{e.location}: {e.defect.message}"

end ParseError

end Stylesheet
