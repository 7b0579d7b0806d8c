import Stylesheet.Token.Trivia
import Stylesheet.Node.Raws

/-!
# Tidying values

A selector, the parameters of an at-rule and the value of a declaration are kept without most of
their comments and without white space at their end. `tidy` chooses the tokens that are kept, and
`Value.ofTokens` adds the written form where that is not all of them. `takeImportant` cuts the
important mark off the end of a value. `tidy_sublist` says that tidying only leaves tokens out.
-/

namespace Stylesheet

/-- A neighbour that a comment does not separate from anything: white space or an edge. -/
def isLoose (kind : Option TokenKind) : Bool :=
  kind == none || kind == some .space

/-- `tidyFrom custom before last dropped tokens` goes on tidying at `tokens`. `before` is the kind
of the token before them, `last` is the last character that has been kept, and `dropped` says that
the token before them is a comment that was left out. -/
def tidyFrom (custom : Bool) (before : Option TokenKind) (last : Option Char) (dropped : Bool) :
    List Token → List Token
  | [] => []
  | t :: rest =>
      let isEdge :=
  t.is .space && ((rest.isEmpty && !custom) || (dropped && last.any Char.isBlank))
      let isRemark := t.is .comment &&
        (isLoose before || isLoose (rest.head?.map (·.kind)) || last == some ',')
      if isEdge then tidyFrom custom (some t.kind) last false rest
      else if isRemark then tidyFrom custom (some t.kind) last true rest
      else t :: tidyFrom custom (some t.kind) (t.text.getLast? <|> last) false rest

/-- `tidy custom tokens` leaves out the comments at an edge of the run, next to white space and
behind a comma, the white space at the end, and the white space behind such a comment where there
is white space before it. The value of a custom property keeps the white space at its end. -/
def tidy (custom : Bool) (tokens : List Token) : List Token :=
  tidyFrom custom none none false tokens

/-- A tidied text, with its written form if that is another one. -/
structure Value where
  text : Text
  raw : Option RawValue := none
  deriving Repr, DecidableEq

/-- `Value.ofTokens custom tokens` is the tidied text of a run of tokens. -/
def Value.ofTokens (custom : Bool) (tokens : List Token) : Value :=
  let kept := tidy custom tokens
  let text := Token.spelling kept
  ⟨text, if kept.length = tokens.length then none else some ⟨text, Token.spelling tokens⟩⟩

/-- Tidying only leaves tokens out. -/
theorem tidyFrom_sublist (custom : Bool) (before : Option TokenKind) (last : Option Char)
    (dropped : Bool) (tokens : List Token) :
    (tidyFrom custom before last dropped tokens).Sublist tokens := by
  induction tokens generalizing before last dropped with
  | nil => exact List.Sublist.slnil
  | cons t rest ih =>
      simp only [tidyFrom]
      split
      · exact (ih ..).cons t
      · split
        · exact (ih ..).cons t
        · exact (ih ..).cons_cons t

theorem tidy_sublist (custom : Bool) (tokens : List Token) :
    (tidy custom tokens).Sublist tokens :=
  tidyFrom_sublist ..

/-- A value is written as the tokens that it was read from. -/
theorem Value.written_ofTokens (custom : Bool) (tokens : List Token) :
    RawValue.written (ofTokens custom tokens).raw (ofTokens custom tokens).text =
      Token.spelling tokens := by
  simp only [ofTokens]
  split
  · next h => rw [RawValue.written, (tidy_sublist custom tokens).eq_of_length h]
  · simp [RawValue.written]

/-! ## The important mark -/

/-- A value without its important mark. `spelling` is recorded where the mark is written in
another way than is usual. -/
structure Marked where
  tokens : List Token
  important : Bool := false
  spelling : Option Text := none
  deriving Repr, DecidableEq

/-- How the important mark is usually written, with the space before it. -/
def usualMark : Text := " !important".toList

/-- `spellBack spelled ahead behind` goes backwards from the word `important` in search of its
exclamation mark. Both runs are given from their ends: `behind` is what may still be taken, one
token at a time, and `ahead` starts at the word and says when to stop, which is at its last token
or, behind an exclamation mark, at a token that is not white space. -/
def spellBack (spelled : Text) : List Token → List Token → Text × List Token
  | guard :: next :: ahead, t :: behind =>
      if (Text.trimStart spelled).head? = some '!' ∧
        guard.kind ≠ .space then (spelled, t :: behind)
      else spellBack (t.text ++ spelled) (next :: ahead) behind
  | _, behind => (spelled, behind)

/-- `takeImportant tokens` cuts the important mark off the end of a value. White space and
comments may follow the mark and stand between its two parts. -/
def takeImportant (tokens : List Token) : Marked :=
  let (body, trivia) := Token.splitTrailing Token.isTrivia tokens
  match body.getLast? with
  | none => { tokens }
  | some word =>
      if word.text.equalsIgnoringCase "!important".toList then
        let (kept, spaces) := Token.splitTrailing (·.is .space) body.dropLast
        let spelled := Token.spelling spaces ++ word.text ++ Token.spelling trivia
        ⟨kept, true, if spelled = usualMark then none else some spelled⟩
      else if word.text.equalsIgnoringCase "important".toList then
        let (spelled, behind) := spellBack [] body.reverse tokens.reverse
        if (Text.trim spelled).head? = some '!' then ⟨behind.reverse, true, some spelled⟩
        else { tokens }
      else { tokens }

end Stylesheet
