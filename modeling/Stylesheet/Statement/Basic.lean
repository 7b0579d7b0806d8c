import Stylesheet.Token.Lexer
import Stylesheet.Token.Trivia

/-!
# Statements

A run of tokens is a list of statements: rules up to their opening brace, declarations, at-rules,
comments, closing braces and what lies between them. `Statement.ofRun` groups a run without regard
to what is open, so that a statement depends on the tokens alone. Every statement takes at least
one token (`length_first_le`), and the tokens of the statements in their order are the tokens of
the run (`tokens_first`).
-/

namespace Stylesheet

/-- How the parameters of an at-rule end: with a semicolon, at the start of a block, before a
closing brace that ends the block around the at-rule, at the end of the text, or at an error. -/
inductive AtRuleEnd where
  | semicolon (t : Token)
  | block (t : Token)
  | close (t : Token)
  | input
  | failure (e : TokenizeError)
  deriving Repr, DecidableEq

namespace AtRuleEnd

/-- The token that the end consists of. -/
def tokens : AtRuleEnd → List Token
  | semicolon t | block t | close t => [t]
  | input | failure _ => []

end AtRuleEnd

/-- A statement of a stylesheet. `terminator` is the byte offset where a declaration ends, before
its semicolon, and `opened` is the first bracket of a statement that is still open at the end of
the text. -/
inductive Statement where
  | space (t : Token)
  | semicolon (t : Token)
  | close (t : Token)
  | comment (t : Token)
  | atRule (word : Token) (params : List Token) (ending : AtRuleEnd)
  | rule (head : List Token) (brace : Token)
  | declaration (tokens : List Token) (custom : Bool) (terminator : Nat) (opened : Option Span)
  | stray (tokens : List Token) (opened : Option Span)
  | failure (e : TokenizeError)
  deriving Repr, DecidableEq

namespace Statement

/-- The tokens that a statement takes from the run, in order. -/
def tokens : Statement → List Token
  | space t | semicolon t | close t | comment t => [t]
  | atRule word params ending => word :: params ++ ending.tokens
  | rule head brace => head ++ [brace]
  | declaration tokens .. | stray tokens _ => tokens
  | failure _ => []

/-! ## At-rules -/

/-- `closer? kind` is the token that closes what a bracket opens. -/
def closer? : TokenKind → Option TokenKind
  | .leftParen => some .rightParen
  | .leftBracket => some .rightBracket
  | _ => none

/-- `nestParams kind expected` are the closers that are expected behind a token of an at-rule. A
brace opens a block of its own only within brackets, and a closer that is not expected closes
nothing. -/
def nestParams (kind : TokenKind) (expected : List TokenKind) : List TokenKind :=
  match closer? kind with
  | some closer => closer :: expected
  | none =>
      match expected with
      | [] => []
      | closer :: outer =>
          if kind = .leftBrace then .rightBrace :: expected
          else if kind = closer then outer
          else expected

/-- The tokens of an at-rule behind its name, with their end and what follows. -/
structure Params where
  tokens : List Token
  ending : AtRuleEnd
  rest : List Token
  deriving Repr

/-- `Params.gather failure expected tokens` reads the parameters of an at-rule. `expected` are the
closers of the brackets that are open, and `failure` is the error behind the tokens. -/
def Params.gather (failure : Option TokenizeError) :
    List TokenKind → List Token → Params
  | _, [] => ⟨[], (failure.map .failure).getD .input, []⟩
  | expected, t :: rest =>
      let add (expected : List TokenKind) : Params :=
        let params := gather failure expected rest
        { params with tokens := t :: params.tokens }
      match nestParams t.kind expected with
      | [] =>
          match t.kind with
          | .semicolon => ⟨[], .semicolon t, rest⟩
          | .leftBrace => ⟨[], .block t, rest⟩
          | .rightBrace => ⟨[], .close t, rest⟩
          | _ => add []
      | expected => add expected

/-! ## Rules and declarations -/

/-- How the gathering of tokens ends that turn out to be a rule or a declaration. -/
inductive GatherEnd where
  | semicolon (t : Token)
  | brace (t : Token)
  | close
  | input
  deriving Repr

/-- Tokens of a rule or a declaration. `colon` says that there is a colon outside brackets, and
`opened` is the first bracket that is still open at the end. -/
structure Gathered where
  tokens : List Token
  ending : GatherEnd
  colon : Bool
  opened : Option Span
  rest : List Token
  deriving Repr

/-- `Gathered.gather custom colon expected opened tokens` reads up to a token that shows whether
the statement is a rule or a declaration. `expected` are the closers of the brackets that are
open. In the value of a custom property braces are brackets too. A closing brace is left to be
read. -/
def Gathered.gather (custom : Bool) :
    Bool → List TokenKind → Option Span → List Token → Gathered
  | colon, _, opened, [] => ⟨[], .input, colon, opened, []⟩
  | colon, expected, opened, t :: rest =>
      let add (colon : Bool) (expected : List TokenKind) (opened : Option Span) : Gathered :=
        let gathered := gather custom colon expected opened rest
        { gathered with tokens := t :: gathered.tokens }
      let opening :=
        if t.kind = .leftBrace ∧ custom ∧ colon then some .rightBrace else closer? t.kind
      match opening, expected with
      | some closer, _ => add colon (closer :: expected) (opened <|> some t.span)
      | none, [] =>
          match t.kind with
          | .semicolon => ⟨[], .semicolon t, colon, opened, rest⟩
          | .leftBrace => ⟨[], .brace t, colon, opened, rest⟩
          | .rightBrace => ⟨[], .close, colon, opened, t :: rest⟩
          | .colon => add true [] opened
          | _ => add colon [] opened
      | none, closer :: outer =>
          if t.kind = closer then add colon outer (if outer.isEmpty then none else opened)
          else add colon expected opened

/-- `isCustom t` says that a declaration that starts with the token is one of a custom
property. -/
def isCustom (t : Token) : Bool :=
  t.text.take 2 == ['-', '-']

/-- `settle custom tokens terminator opened colon rest` decides what tokens are that no opening
brace and no semicolon ends. With a colon they are a declaration; the white space and comments at
its end are left to be read, but for a custom property. -/
def settle (custom : Bool) (tokens : List Token) (terminator : Nat) (opened : Option Span)
    (colon : Bool) (rest : List Token) : Statement × List Token :=
  if !colon then (stray tokens opened, rest)
  else if custom then (declaration tokens custom terminator opened, rest)
  else
    let (body, trivia) := Token.splitTrailing Token.isTrivia tokens
    (declaration body custom terminator opened, trivia ++ rest)

/-- `other stop failure t rest` is the rule or declaration that starts with the token `t`, with
the tokens behind it. `stop` is the length of the text. -/
def other (stop : Nat) (failure : Option TokenizeError) (t : Token) (rest : List Token) :
    Statement × List Token :=
  let custom := isCustom t
  let gathered := Gathered.gather custom false [] none (t :: rest)
  match gathered.ending with
  | .semicolon s =>
      let tokens := gathered.tokens ++ [s]
      if gathered.colon then (declaration tokens custom s.span.start none, gathered.rest)
      else (stray tokens none, gathered.rest)
  | .brace brace => (rule gathered.tokens brace, gathered.rest)
  | .close =>
      let terminator := (gathered.rest.head?.map (·.span.start)).getD stop
      settle custom gathered.tokens terminator none gathered.colon gathered.rest
  | .input =>
      match failure with
      | some e => (.failure e, [])
      | none => settle custom gathered.tokens stop gathered.opened gathered.colon gathered.rest

/-- `first stop failure t rest` is the statement that starts with the token `t`, with the tokens
behind it. -/
def first (stop : Nat) (failure : Option TokenizeError) (t : Token) (rest : List Token) :
    Statement × List Token :=
  match t.kind with
  | .space => (space t, rest)
  | .semicolon => (semicolon t, rest)
  | .rightBrace => (close t, rest)
  | .comment => (comment t, rest)
  | .leftBrace => (rule [] t, rest)
  | .atWord =>
      let params := Params.gather failure [] rest
      (atRule t params.tokens params.ending, params.rest)
  | _ => other stop failure t rest

/-- `group stop failure steps tokens` are the first `steps` statements of a run. -/
def group (stop : Nat) (failure : Option TokenizeError) : Nat → List Token → List Statement
  | 0, _ => []
  | _ + 1, [] => failure.toList.map .failure
  | steps + 1, t :: rest =>
      let (statement, rest) := first stop failure t rest
      statement :: group stop failure steps rest

/-- `ofRun stop run` are the statements of a run of tokens, with the error that ends it. `stop` is
the length of the text. -/
def ofRun (stop : Nat) (run : TokenRun) : List Statement :=
  group stop run.failure (run.tokens.length + 1) run.tokens

/-! ## No token is lost -/

/-- The parameters, their end and what follows are the tokens that were read. -/
theorem Params.tokens_gather (failure : Option TokenizeError) (expected : List TokenKind)
    (tokens : List Token) :
    let params := Params.gather failure expected tokens
    params.tokens ++ params.ending.tokens ++ params.rest = tokens := by
  induction tokens generalizing expected with
  | nil => cases failure <;> rfl
  | cons t rest ih =>
      simp only [Params.gather]
      split
      · split
        · rfl
        · rfl
        · rfl
        · exact congrArg (t :: ·) (ih _)
      · exact congrArg (t :: ·) (ih _)

/-- The tokens that the end of a gathering takes. -/
def GatherEnd.tokens : GatherEnd → List Token
  | semicolon t | brace t => [t]
  | close | input => []

/-- The gathered tokens, their end and what follows are the tokens that were read. -/
theorem Gathered.tokens_gather (custom colon : Bool) (expected : List TokenKind)
    (opened : Option Span) (tokens : List Token) :
    let gathered := Gathered.gather custom colon expected opened tokens
    gathered.tokens ++ gathered.ending.tokens ++ gathered.rest = tokens := by
  induction tokens generalizing colon expected opened with
  | nil => rfl
  | cons t rest ih =>
      simp only [Gathered.gather]
      split
      · exact congrArg (t :: ·) (ih _ _ _)
      · split
        · rfl
        · rfl
        · rfl
        · exact congrArg (t :: ·) (ih _ _ _)
        · exact congrArg (t :: ·) (ih _ _ _)
      · split
        · exact congrArg (t :: ·) (ih _ _ _)
        · exact congrArg (t :: ·) (ih _ _ _)

theorem tokens_settle (custom : Bool) (tokens : List Token) (terminator : Nat)
    (opened : Option Span) (colon : Bool) (rest : List Token) :
    (settle custom tokens terminator opened colon rest).1.tokens ++
      (settle custom tokens terminator opened colon rest).2 = tokens ++ rest := by
  cases colon with
  | false => rfl
  | true =>
      cases custom with
      | true => rfl
      | false =>
          have h := Token.splitTrailing_append Token.isTrivia tokens
          simp only [settle, Bool.not_true, Bool.false_eq_true, ite_false, Statement.tokens]
          rw [← List.append_assoc, h]

theorem tokens_other (stop : Nat) (t : Token) (rest : List Token) :
    (other stop none t rest).1.tokens ++ (other stop none t rest).2 = t :: rest := by
  have hgather := Gathered.tokens_gather (isCustom t) false [] none (t :: rest)
  simp only [other]
  generalize Gathered.gather (isCustom t) false [] none (t :: rest) = gathered at hgather ⊢
  obtain ⟨tokens, ending, colon, opened, behind⟩ := gathered
  cases ending with
  | semicolon s => cases colon <;> simpa [Statement.tokens, GatherEnd.tokens] using hgather
  | brace b => simpa [Statement.tokens, GatherEnd.tokens] using hgather
  | close | input =>
      rw [tokens_settle]
      simpa [GatherEnd.tokens] using hgather

/-- The tokens of a statement and what follows are the tokens that were read, unless an error cuts
the statement off. -/
theorem tokens_first (stop : Nat) (t : Token) (rest : List Token) :
    (first stop none t rest).1.tokens ++ (first stop none t rest).2 = t :: rest := by
  simp only [first]
  split
  case h_6 => exact congrArg (t :: ·) (Params.tokens_gather none [] rest)
  case h_7 => exact tokens_other stop t rest
  all_goals rfl

/-- A token that ends no statement is gathered. -/
theorem Gathered.tokens_gather_cons (custom colon : Bool) (expected : List TokenKind)
    (opened : Option Span) {t : Token} (rest : List Token) (hsemicolon : t.kind ≠ .semicolon)
    (hopen : t.kind ≠ .leftBrace) (hclose : t.kind ≠ .rightBrace) :
    ∃ more, (Gathered.gather custom colon expected opened (t :: rest)).tokens = t :: more := by
  simp only [Gathered.gather]
  split
  · exact ⟨_, rfl⟩
  · split
    · contradiction
    · contradiction
    · contradiction
    · exact ⟨_, rfl⟩
    · exact ⟨_, rfl⟩
  · split <;> exact ⟨_, rfl⟩

/-- A run that starts with a token that stays has less at its end that goes. -/
theorem length_splitTrailing_le {p : Token → Bool} {t : Token} (tokens : List Token)
    (h : p t = false) : (Token.splitTrailing p (t :: tokens)).2.length ≤ tokens.length := by
  have happend := congrArg List.length (Token.splitTrailing_append p (t :: tokens))
  have hne : (Token.splitTrailing p (t :: tokens)).1 ≠ [] := by
    simp [Token.splitTrailing, List.dropWhile_append, h]
    split <;> simp
  have := List.length_pos_iff.mpr hne
  simp only [List.length_append, List.length_cons] at happend
  omega

theorem length_settle_le (custom : Bool) {t : Token} (tokens : List Token) (terminator : Nat)
    (opened : Option Span) (colon : Bool) (rest : List Token) (h : t.isTrivia = false) :
    (settle custom (t :: tokens) terminator opened colon rest).2.length ≤
      tokens.length + rest.length := by
  cases colon with
  | false => simp [settle]
  | true =>
      cases custom with
      | true => simp [settle]
      | false =>
          have := length_splitTrailing_le tokens h
          simp only [settle, Bool.not_true, Bool.false_eq_true, ite_false, List.length_append]
          omega

theorem length_other_le (stop : Nat) (failure : Option TokenizeError) {t : Token}
    (rest : List Token) (hsemicolon : t.kind ≠ .semicolon) (hopen : t.kind ≠ .leftBrace)
    (hclose : t.kind ≠ .rightBrace) (htrivia : t.isTrivia = false) :
    (other stop failure t rest).2.length ≤ rest.length := by
  have hgather := Gathered.tokens_gather (isCustom t) false [] none (t :: rest)
  obtain ⟨more, hmore⟩ := Gathered.tokens_gather_cons (isCustom t) false [] none rest hsemicolon
    hopen hclose
  simp only [other]
  generalize Gathered.gather (isCustom t) false [] none (t :: rest) = gathered at hgather hmore ⊢
  obtain ⟨tokens, ending, colon, opened, behind⟩ := gathered
  simp only at hmore
  subst hmore
  have hlength := congrArg List.length hgather
  simp only [List.length_append, List.length_cons] at hlength
  cases ending with
  | semicolon s => cases colon <;> simp <;> omega
  | brace b => simp; omega
  | close =>
      have := length_settle_le (isCustom t) more
        ((behind.head?.map (·.span.start)).getD stop) none colon behind htrivia
      simp only
      omega
  | input =>
      cases failure with
      | some e => simp
      | none =>
          have := length_settle_le (isCustom t) more stop opened colon behind htrivia
          simp only
          omega

/-- Every statement takes at least one token. -/
theorem length_first_le (stop : Nat) (failure : Option TokenizeError) (t : Token)
    (rest : List Token) : (first stop failure t rest).2.length ≤ rest.length := by
  simp only [first]
  split
  case h_6 =>
    have := congrArg List.length (Params.tokens_gather failure [] rest)
    simp only [List.length_append] at this ⊢
    omega
  case h_7 =>
    apply length_other_le <;> simp_all [Token.isTrivia, TokenKind.isTrivia]
  all_goals exact Nat.le_refl _

end Statement

end Stylesheet
