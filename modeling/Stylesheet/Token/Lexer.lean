import Stylesheet.Token.Scan

/-!
# Reading tokens

A `Lexer` is a place in a text together with what the lexer remembers: the tokens that have been
handed back to it and the last word before the next opening parenthesis. `next` reads one token,
`back` hands one back, `iterate` is `next` with an end behind its first error, and `run` reads to
the end or to the first error. A construct that is open at the end of the text is an error, or,
under the policy `heal`, a token that reaches to the end.

`scanNext_rest` says that a token that is read is a piece of the text that is not empty, so that a
run needs no more steps than there are characters.
-/

namespace Stylesheet

/-- What to do with a construct that is open at the end of the text. -/
inductive OpenPolicy where
  | fail
  | heal
  deriving Repr, DecidableEq

/-- A lexer in the middle of a text. `rest` is unread and starts at the byte offset `position`,
`returned` holds the tokens that were handed back, the latest first, and `word` is the last plain
word since the last opening parenthesis. `failed` stops an iteration behind its first error. -/
structure Lexer where
  classifier : Classifier
  policy : OpenPolicy
  rest : Text
  position : Nat := 0
  returned : List Token := []
  word : Option Text := none
  failed : Bool := false

namespace Lexer

/-- A lexer at the start of a text. -/
def ofText (text : Text) (policy : OpenPolicy := .fail) (classifier : Classifier := .stock) :
    Lexer :=
  { classifier, policy, rest := text }

/-- `l.isEof` says that the text is used up and that no token is handed back. -/
def isEof (l : Lexer) : Bool :=
  l.returned.isEmpty && l.rest.isEmpty

/-- `l.back token` hands a token back. It is the next one to be read. -/
def back (l : Lexer) (token : Token) : Lexer :=
  { l with returned := token :: l.returned }

/-- `l.remember kind text` is the word to remember behind a token. A plain word is remembered and
an opening parenthesis or a group makes the lexer forget; an escape does neither. -/
def remember (l : Lexer) (kind : TokenKind) (text : Text) : Option Text :=
  match kind with
  | .word => if text.head? = some '\\' then l.word else some text
  | .leftParen | .brackets => none
  | _ => l.word

/-- `l.take kind length healed` reads a token of `length` characters. -/
def take (l : Lexer) (kind : TokenKind) (length : Nat) (healed : Bool) : Token × Lexer :=
  let text := l.rest.take length
  let stop := l.position + Text.utf8Size text
  (⟨kind, ⟨l.position, stop⟩, text, healed⟩,
    { l with rest := l.rest.drop length, position := stop, word := l.remember kind text })

/-- `l.scanNext` reads one token from the text, whatever is handed back. A failure reads nothing,
but the lexer forgets the word that made an opening parenthesis a url. -/
def scanNext (l : Lexer) : Except TokenizeError (Option Token) × Lexer :=
  match l.rest with
  | [] => (.ok none, l)
  | c :: text =>
      match scan l.classifier l.word c text with
      | .closed kind length =>
          let (token, l) := l.take kind length false
          (.ok (some token), l)
      | .unclosed construct =>
          match l.policy with
          | .heal =>
              let (token, l) := l.take construct.tokenKind (text.length + 1) true
              (.ok (some token), l)
          | .fail =>
              (.error ⟨construct, l.position⟩,
                { l with word := l.remember construct.tokenKind [] })

/-- `l.next` reads the next token: the one that was handed back last, or else one from the text.
It is `none` at the end. -/
def next (l : Lexer) : Except TokenizeError (Option Token) × Lexer :=
  match l.returned with
  | token :: returned => (.ok (some token), { l with returned })
  | [] => l.scanNext

/-- `l.iterate` reads the next token. Behind an error of its own it stays at the end. -/
def iterate (l : Lexer) : Except TokenizeError (Option Token) × Lexer :=
  if l.failed then (.ok none, l)
  else
    match l.next with
    | (.error e, l) => (.error e, { l with failed := true })
    | result => result

end Lexer

/-- The tokens of a text up to its end or to the first error. -/
structure TokenRun where
  tokens : List Token
  failure : Option TokenizeError := none
  deriving Repr, DecidableEq

namespace Lexer

/-- `runFor steps l` reads at most `steps` tokens and computes them with the lexer behind them. -/
def runFor : Nat → Lexer → TokenRun × Lexer
  | 0, l => (⟨[], none⟩, l)
  | steps + 1, l =>
      match l.iterate with
      | (.error e, l) => (⟨[], some e⟩, l)
      | (.ok none, l) => (⟨[], none⟩, l)
      | (.ok (some token), l) =>
          let (run, l) := runFor steps l
          (⟨token :: run.tokens, run.failure⟩, l)

/-- `l.run` reads to the end or to the first error. -/
def run (l : Lexer) : TokenRun × Lexer :=
  runFor (l.returned.length + l.rest.length) l

/-! ## Progress -/

@[simp] theorem next_of_returned {l : Lexer} {token : Token} {returned : List Token}
    (h : l.returned = token :: returned) : l.next = (.ok (some token), { l with returned }) := by
  simp [next, h]

@[simp] theorem next_of_returned_nil {l : Lexer} (h : l.returned = []) : l.next = l.scanNext := by
  simp [next, h]

@[simp] theorem next_back (l : Lexer) (token : Token) :
    (l.back token).next = (.ok (some token), l) := rfl

/-- A token that is read is the piece of the text that goes before the rest, and is not empty. -/
theorem scanNext_rest {l after : Lexer} {token : Token}
    (h : l.scanNext = (.ok (some token), after)) :
    l.rest = token.text ++ after.rest ∧ token.text ≠ [] := by
  unfold scanNext at h
  split at h
  · cases h
  · next c text hrest =>
      split at h
      · next kind length hscan =>
          have hlength := scan_length hscan
          cases h
          simp only [hrest, List.take_append_drop, true_and]
          obtain ⟨n, rfl⟩ := Nat.exists_eq_add_of_lt hlength.1
          simp
      · split at h
        · cases h
          simp [hrest]
        · cases h

/-- A token that is read from the text leaves less of it. -/
theorem scanNext_length_lt {l after : Lexer} {token : Token}
    (h : l.scanNext = (.ok (some token), after)) : after.rest.length < l.rest.length := by
  obtain ⟨hrest, hne⟩ := scanNext_rest h
  have := List.length_pos_iff.mpr hne
  rw [hrest, List.length_append]
  omega

end Lexer

/-- `Token.run text policy` is the run of all tokens of a plain stylesheet. -/
def Token.run (text : Text) (policy : OpenPolicy) : TokenRun :=
  (Lexer.ofText text policy).run.1

end Stylesheet
