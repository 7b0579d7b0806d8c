import Stylesheet.Token.Trivia

/-!
# The parts of a declaration

`Parts.ofTokens?` cuts the tokens of a declaration into its parts, and `Parts.tokens_ofTokens?`
says that the parts in their order are the tokens. `secondColon` looks for a colon in a value that
shows that a semicolon is missing before it, and `Missed.ofValue?` cuts the value there into two
declarations.
-/

namespace Stylesheet

/-- The parts of a declaration: what stands before its first word, the name of the property, what
reaches from there to the first colon, the white space and comments behind the colon, and the
value. -/
structure Parts where
  stray : List Token
  name : List Token
  colon : List Token
  gap : List Token
  value : List Token
  deriving Repr, DecidableEq

namespace Parts

/-- The tokens of the parts, in order. -/
def tokens (p : Parts) : List Token :=
  p.stray ++ p.name ++ p.colon ++ p.gap ++ p.value

/-- `throughColon tokens` cuts a run behind its first colon. -/
def throughColon : List Token → List Token × List Token
  | [] => ([], [])
  | t :: rest =>
      if t.is .colon then ([t], rest)
      else
        let (before, behind) := throughColon rest
        (t :: before, behind)

/-- `ofTokens? tokens` are the parts of a declaration, or `none` if it has no word. -/
def ofTokens? (tokens : List Token) : Option Parts :=
  let (stray, body) := Token.splitLeading (!·.is .word) tokens
  if body.isEmpty then none
  else
    let (name, rest) := Token.splitLeading (fun t ↦ !(t.is .colon || t.isTrivia)) body
    let (colon, rest) := throughColon rest
    let (gap, value) := Token.splitLeading Token.isTrivia rest
    some { stray, name, colon, gap, value }

/-- `p.unknownWords` are the words between the name and the colon that are more than signs. -/
def unknownWords (p : Parts) : List Token :=
  p.colon.filter fun t ↦ t.is .word && t.text.any fun c ↦ c.isAlphanum || c == '_'

theorem throughColon_append (tokens : List Token) :
    (throughColon tokens).1 ++ (throughColon tokens).2 = tokens := by
  induction tokens with
  | nil => rfl
  | cons t rest ih =>
      simp only [throughColon]
      split
      · rfl
      · simp [ih]

/-- The parts of a declaration in their order are its tokens. -/
theorem tokens_ofTokens? {ts : List Token} {p : Parts} (h : ofTokens? ts = some p) :
    p.tokens = ts := by
  simp only [ofTokens?] at h
  split at h
  · cases h
  · cases h
    simp only [tokens, List.append_assoc, Token.splitLeading_append, throughColon_append]

/-- A run that starts with a word has it at the start of its name. -/
theorem starts_of_word {t : Token} {more : List Token} {p : Parts}
    (h : ofTokens? (t :: more) = some p) (hword : t.kind = .word) :
    p.stray = [] ∧ ∃ us vs, p.name = t :: us ∧ more = us ++ vs := by
  have his : t.is .word = true := beq_iff_eq.mpr hword
  have hlead : (!(t.is .colon || t.isTrivia)) = true := by
    rw [Token.is, Token.isTrivia, hword]
    rfl
  simp only [ofTokens?, Token.splitLeading, List.takeWhile_cons, List.dropWhile_cons, his,
    Bool.not_true, Bool.false_eq_true, if_false, List.isEmpty_cons, hlead, if_true,
    Option.some.injEq] at h
  rw [← h]
  exact ⟨rfl, _, _, rfl, (List.takeWhile_append_dropWhile).symm⟩

end Parts

/-! ## A missed semicolon -/

/-- `nesting t depth` is the depth of parentheses behind a token. A parenthesis that closes
nothing makes it negative. -/
def nesting (t : Token) (depth : Int) : Int :=
  match t.kind with
  | .leftParen => depth + 1
  | .rightParen => depth - 1
  | _ => depth

/-- `isProgid t` says that a token is the word in front of an old kind of filter, behind which a
colon is in order. -/
def isProgid (t : Token) : Bool :=
  t.is .word && t.text == "progid".toList

/-- `findColon depth previous tokens` cuts a run before its first colon outside parentheses that
does not follow `progid`. -/
def findColon (depth : Int) (previous : Token) : List Token → Option (List Token × List Token)
  | [] => none
  | t :: rest =>
      if t.is .colon && depth == 0 then
        if isProgid previous then
          (findColon depth previous rest).map fun cut ↦ (t :: cut.1, cut.2)
        else some ([], t :: rest)
      else (findColon (nesting t depth) t rest).map fun cut ↦ (t :: cut.1, cut.2)

/-- `secondColon value` cuts a value before a colon that cannot belong to it. A colon at the start
of the value is not looked for. -/
def secondColon : List Token → Option (List Token × List Token)
  | [] => none
  | t :: rest => (findColon (nesting t 0) t rest).map fun cut ↦ (t :: cut.1, cut.2)

/-- `leadingColon value` is the colon that a value starts with. -/
def leadingColon (value : List Token) : Option Token :=
  value.head?.filter (·.is .colon)

/-- `missedAt before` is the byte offset where a semicolon is missing, if a second colon follows
the tokens `before`: behind the second to last token that is not white space if it is a word, else
before it. -/
def missedAt (before : List Token) : Nat :=
  let culprit :=
    match before.reverse.filter (!·.is .space) with
    | _ :: culprit :: _ => some culprit
    | _ => before.head?
  match culprit with
  | some t => if t.is .word then t.span.stop else t.span.start
  | none => 0

/-- A value that holds two declarations: the value of the first, the white space behind it, and
the tokens of the second. -/
structure Missed where
  kept : List Token
  gap : List Token
  next : List Token
  deriving Repr, DecidableEq

/-- `ofValue? value` cuts a value before the last word in front of a second colon. There is
nothing to cut if no token is left before that word. -/
def Missed.ofValue? (value : List Token) : Option Missed :=
  (secondColon value).bind fun (before, behind) ↦
    let (start, signs) := Token.splitTrailing (!·.is .word) before
    let (kept, gap) := Token.splitTrailing (·.is .space) start.dropLast
    if start.length ≤ 1 then none
    else some { kept, gap, next := start.drop (start.length - 1) ++ signs ++ behind }

end Stylesheet
