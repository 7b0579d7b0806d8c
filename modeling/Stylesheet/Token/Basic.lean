import Stylesheet.Position

/-!
# Tokens

A `Token` is a piece of source text with its kind and its range in the source. Putting the texts
of a run of tokens one behind the other gives the `spelling` of the run, which is additive
(`spelling_append`). A `TokenizeError` names a construct that is open when the text ends.
-/

namespace Stylesheet

/-- The kind of a token. -/
inductive TokenKind where
  /-- A run of white space. -/
  | space
  /-- Whatever is neither punctuation nor white space, string or comment: a name, a number with
  its unit, a hash, an escape. -/
  | word
  /-- A quoted string with its quotes. -/
  | string
  /-- An at-keyword with its `@`. -/
  | atWord
  /-- A comment with its delimiters. -/
  | comment
  /-- A simple group in parentheses that is read as one token, or the body of an unquoted url. -/
  | brackets
  | leftParen
  | rightParen
  | leftBracket
  | rightBracket
  | leftBrace
  | rightBrace
  | colon
  | semicolon
  deriving Repr, DecidableEq, Inhabited

namespace TokenKind

/-- Trivia is white space or a comment. -/
def isTrivia : TokenKind → Bool
  | space | comment => true
  | _ => false

/-- Punctuation is a single structural character. -/
def isPunctuation : TokenKind → Bool
  | leftParen | rightParen | leftBracket | rightBracket | leftBrace | rightBrace | colon
  | semicolon => true
  | _ => false

end TokenKind

/-- A piece of source text. A `healed` token was still open at the end of the text and has been
closed there. -/
structure Token where
  kind : TokenKind
  span : Span
  text : Text
  healed : Bool := false
  deriving Repr, DecidableEq, Inhabited

namespace Token

/-- White space or a comment. -/
def isTrivia (t : Token) : Bool := t.kind.isTrivia

/-- `t.is k` says that the token has kind `k`. -/
def is (t : Token) (k : TokenKind) : Bool := t.kind == k

/-- `spelling tokens` is the text that a run of tokens was read from. -/
def spelling (tokens : List Token) : Text :=
  tokens.flatMap text

@[simp] theorem spelling_nil : spelling [] = [] := rfl

@[simp] theorem spelling_cons (t : Token) (tokens : List Token) :
    spelling (t :: tokens) = t.text ++ spelling tokens := rfl

@[simp] theorem spelling_append (first second : List Token) :
    spelling (first ++ second) = spelling first ++ spelling second := by
  simp [spelling]

end Token

/-- The constructs that can be open at the end of the text. -/
inductive OpenConstruct where
  | string
  | comment
  | bracket
  deriving Repr, DecidableEq

namespace OpenConstruct

/-- The kind of the token that a construct is read as. -/
def tokenKind : OpenConstruct → TokenKind
  | string => .string
  | comment => .comment
  | bracket => .brackets

/-- `ofTokenKind kind` is the construct that a token of this kind leaves open when it is
healed. -/
def ofTokenKind : TokenKind → OpenConstruct
  | .string => string
  | .comment => comment
  | _ => bracket

/-- The construct in words. -/
def describe : OpenConstruct → String
  | string => "unclosed string"
  | comment => "unclosed comment"
  | bracket => "unclosed bracket"

theorem ofTokenKind_tokenKind (c : OpenConstruct) : ofTokenKind c.tokenKind = c := by
  cases c <;> rfl

end OpenConstruct

/-- A construct that starts at a byte offset and is open at the end of the text. -/
structure TokenizeError where
  construct : OpenConstruct
  offset : Nat
  deriving Repr, DecidableEq

/-- The message of a tokenize error. -/
def TokenizeError.message (e : TokenizeError) : String :=
  s!"{e.construct.describe} at offset {e.offset}"

end Stylesheet
