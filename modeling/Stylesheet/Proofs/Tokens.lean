import Stylesheet.Proofs.Reading

/-!
# What the tokens of a run look like

`Scan.Dispatch` lists the ways in which `scan` can decide on a token, each with the condition that
leads there, and `scan_dispatch` says that there is no other. `Token.IsFormed` says of a token
that its text is what its kind promises, and `Reads.isFormed` says so of all that a lexer reads
without failing. A token that is healed may not be closed, but it starts as its kind does
(`Reads.isLed`).
-/

namespace Stylesheet

namespace Scan

/-- `Dispatch t before c text e` says that the scanner which is chosen for a token that starts
with `c` and goes on in `text` computes the extent `e`. -/
inductive Dispatch (t : Classifier) (before : Option Text) (c : Char) (text : Text) :
    Extent → Prop where
  | space (h : t.is .space c = true) : Dispatch t before c text (Scan.space t text)
  | single {kind} (hspace : t.is .space c = false) (h : single? c = some kind) :
      Dispatch t before c text (.closed kind 1)
  | openParen (hspace : t.is .space c = false) (h : c = '(') :
      Dispatch t before c text (Scan.openParen t before text)
  | string (hspace : t.is .space c = false) (h : c = '"' ∨ c = '\'') :
      Dispatch t before c text (Scan.string c text)
  | atWord (hspace : t.is .space c = false) (h : c = '@') :
      Dispatch t before c text (Scan.atWord t text)
  | escape (hspace : t.is .space c = false) (h : c = '\\') :
      Dispatch t before c text (Scan.escape t text)
  | comment (hspace : t.is .space c = false) (h : c = '/') (hstar : text.head? = some '*') :
      Dispatch t before c text (Scan.comment text)
  | word (hspace : t.is .space c = false) (hsingle : single? c = none)
      (hchars : c ≠ '(' ∧ c ≠ '"' ∧ c ≠ '\'' ∧ c ≠ '@' ∧ c ≠ '\\')
      (hcomment : ¬(c = '/' ∧ text.head? = some '*')) :
      Dispatch t before c text (Scan.word t text)

/-- Every token is decided on in one of these ways. -/
theorem scan_dispatch (t : Classifier) (before : Option Text) (c : Char) (text : Text) :
    Dispatch t before c text (scan t before c text) := by
  unfold scan
  split
  · next h => exact .space h
  · next h =>
      have hspace : t.is .space c = false := Bool.eq_false_iff.mpr h
      split
      · next hkind => exact .single hspace hkind
      · next hsingle =>
          split
          · next h => exact .openParen hspace h
          split
          · next h => exact .string hspace h
          split
          · next h => exact .atWord hspace h
          split
          · next h => exact .escape hspace h
          split
          · next h => exact .comment hspace h.1 h.2
          · next hparen hquote hat hslash hcomment =>
              exact .word hspace hsingle ⟨hparen, fun h ↦ hquote (.inl h),
                fun h ↦ hquote (.inr h), hat, hslash⟩ hcomment

/-- The end of a comment is the first `*/`. -/
theorem take_commentEnd {text : Text} {n : Nat} (h : commentEnd text = some n) :
    ∃ inner, text.take n = inner ++ ['*', '/'] := by
  induction text using commentEnd.induct generalizing n with
  | case1 text =>
      simp only [commentEnd, Option.some.injEq] at h
      subst h
      exact ⟨[], rfl⟩
  | case2 c text hne ih =>
      rw [commentEnd.eq_2 c text hne] at h
      obtain ⟨m, hm, rfl⟩ := Option.map_eq_some_iff.mp h
      obtain ⟨inner, hinner⟩ := ih hm
      exact ⟨c :: inner, by rw [List.take_succ_cons, hinner, List.cons_append]⟩
  | case3 => simp [commentEnd] at h

end Scan

/-- A structural character is no comment. -/
theorem Scan.ne_comment_of_single? {c : Char} {kind : TokenKind} (h : single? c = some kind) :
    kind ≠ .comment := by
  rintro rfl
  unfold single? at h
  split at h <;> cases h

namespace Token

/-- `t.IsFormed` says that the text of a token is what its kind promises: a structural character
stands alone, an at-keyword starts with its sign, and a comment has its delimiters. -/
def IsFormed (t : Token) : Prop :=
  match t.kind with
  | .space | .word | .string | .brackets => True
  | .atWord => ∃ name, t.text = '@' :: name
  | .comment => ∃ inner, t.text = "/*".toList ++ inner ++ "*/".toList
  | .leftParen => t.text = ['(']
  | .leftBracket | .rightBracket | .leftBrace | .rightBrace | .colon | .semicolon | .rightParen =>
      ∃ c, t.text = [c] ∧ Scan.single? c = some t.kind

theorem IsFormed.exists_name {t : Token} (h : t.IsFormed) (hkind : t.kind = .atWord) :
    ∃ name, t.text = '@' :: name := by
  rwa [IsFormed, hkind] at h

theorem IsFormed.single {t : Token} {kind : TokenKind} (h : t.IsFormed) (hkind : t.kind = kind)
    {c : Char} (hc : Scan.single? c = some kind) : t.text = [c] := by
  have hchar : ∀ d, Scan.single? d = some kind → d = c := by
    intro d hd
    unfold Scan.single? at hc hd
    split at hc <;> cases hc <;> (split at hd <;> cases hd; rfl)
  have hformed : ∃ d, t.text = [d] ∧ Scan.single? d = some t.kind := by
    unfold IsFormed at h
    rw [hkind] at h ⊢
    unfold Scan.single? at hc
    split at hc <;> cases hc <;> exact h
  obtain ⟨d, htext, hd⟩ := hformed
  rw [htext, hchar d (hkind ▸ hd)]

/-- `t.commentText` is the text of a comment with its end, which a comment that is healed does not
have. -/
def commentText (t : Token) : Text :=
  t.text ++ if t.healed then "*/".toList else []

/-- `t.IsSound` says that a token is what its kind promises, but for the end of a comment that is
healed. -/
structure IsSound (t : Token) : Prop where
  comment : t.kind = .comment → ∃ inner, t.commentText = "/*".toList ++ inner ++ "*/".toList
  other : t.kind ≠ .comment → t.IsFormed

theorem IsFormed.isSound {t : Token} (h : t.IsFormed) (hhealed : t.healed = false) :
    t.IsSound := by
  refine ⟨fun hkind ↦ ?_, fun _ ↦ h⟩
  rw [IsFormed, hkind] at h
  simpa [commentText, hhealed] using h

end Token

namespace Lexer

/-- A token that is read without failing is what its kind promises. -/
theorem scanNext_isFormed {l after : Lexer} {token : Token} (hpolicy : l.policy = .fail)
    (h : l.scanNext = (.ok (some token), after)) : token.IsFormed := by
  unfold scanNext at h
  rw [hpolicy] at h
  split at h
  · cases h
  next c text hrest =>
  split at h
  case h_2 => cases h
  next kind length hscan =>
  simp only [take, hrest] at h
  cases h
  have hdispatch := Scan.scan_dispatch l.classifier l.word c text
  rw [hscan] at hdispatch
  generalize hextent : Extent.closed kind length = extent at hdispatch
  cases hdispatch with
  | space | escape | word =>
      simp only [Scan.space, Scan.word, Scan.escape] at hextent
      repeat' split at hextent
      all_goals cases hextent; trivial
  | single _ hsingle =>
      cases hextent
      unfold Token.IsFormed
      unfold Scan.single? at hsingle
      split at hsingle <;> cases hsingle <;> exact ⟨_, rfl, rfl⟩
  | openParen _ hc =>
      simp only [Scan.openParen, Scan.url, Scan.group] at hextent
      repeat' split at hextent
      all_goals cases hextent
      · trivial
      · simp [Token.IsFormed, hc]
      · trivial
  | string =>
      unfold Scan.string at hextent
      split at hextent <;> cases hextent
      trivial
  | atWord _ hc =>
      cases hextent
      exact ⟨_, by simp only [hc, Nat.add_comm 1, List.take_succ_cons]; rfl⟩
  | comment _ hc hstar =>
      unfold Scan.comment at hextent
      split at hextent <;> cases hextent
      next n hn =>
      obtain ⟨inner, hinner⟩ := Scan.take_commentEnd hn
      cases text with
      | nil => cases hstar
      | cons star text =>
          simp only [List.head?_cons, Option.some.injEq] at hstar
          subst hstar
          exact ⟨inner, by simp_all [List.take_succ_cons]⟩

/-- All tokens that are read without failing are what their kinds promise. -/
theorem Reads.isFormed {l after : Lexer} {tokens : List Token} (h : l.Reads tokens after)
    (hpolicy : l.policy = .fail) {token : Token} (ht : token ∈ tokens) : token.IsFormed := by
  induction h with
  | nil => cases ht
  | cons l next after first tokens hscan _ ih =>
      rcases List.mem_cons.mp ht with rfl | ht
      · exact scanNext_isFormed hpolicy hscan
      · exact ih ((scanNext_frame hscan).2.1.trans hpolicy) ht

end Lexer

namespace Scan

/-- A comment starts with its delimiter. -/
theorem star_of_unclosed_comment {t : Classifier} {before : Option Text} {c : Char} {text : Text}
    (h : scan t before c text = .unclosed .comment) : c = '/' ∧ ∃ more, text = '*' :: more := by
  have hdispatch := scan_dispatch t before c text
  rw [h] at hdispatch
  generalize hextent : Extent.unclosed .comment = e at hdispatch
  cases hdispatch with
  | comment _ hc hstar =>
      cases text with
      | nil => cases hstar
      | cons d more =>
          cases hstar
          exact ⟨hc, more, rfl⟩
  | space | single | atWord | word => cases hextent
  | openParen =>
      unfold openParen url group at hextent
      dsimp only at hextent
      repeat' split at hextent
      all_goals cases hextent
  | string =>
      unfold Scan.string at hextent
      split at hextent <;> cases hextent
  | escape =>
      unfold escape at hextent
      dsimp only at hextent
      split at hextent <;> cases hextent

end Scan

namespace Lexer

/-- Every token that is read is sound, also if it is healed. -/
theorem scanNext_isSound {l after : Lexer} {token : Token}
    (h : l.scanNext = (.ok (some token), after)) : token.IsSound := by
  cases hhealed : token.healed with
  | false => exact (scanNext_isFormed rfl (scanNext_failing h hhealed)).isSound hhealed
  | true =>
      unfold scanNext at h
      split at h
      · cases h
      next c text hrest =>
      split at h
      · cases h
        cases hhealed
      · next construct hscan =>
          split at h
          · cases h
            refine ⟨fun hkind ↦ ?_, fun hkind ↦ ?_⟩
            · cases construct with
              | string | bracket => cases hkind
              | comment =>
                  obtain ⟨rfl, more, rfl⟩ := Scan.star_of_unclosed_comment hscan
                  exact ⟨more, by simp [Token.commentText, hrest]⟩
            · cases construct with
              | string | bracket => trivial
              | comment => exact absurd rfl hkind
          · cases h

theorem Reads.isSound {l after : Lexer} {tokens : List Token} (h : l.Reads tokens after)
    {token : Token} (ht : token ∈ tokens) : token.IsSound := by
  induction h with
  | nil => cases ht
  | cons l next after first tokens hscan _ ih =>
      rcases List.mem_cons.mp ht with rfl | ht
      · exact scanNext_isSound hscan
      · exact ih ht

end Lexer

/-! ## First characters -/

/-- `e.kind` is the kind of a token that reaches so far, also if it is healed. -/
def Extent.kind : Extent → TokenKind
  | closed kind _ => kind
  | unclosed construct => construct.tokenKind

/-- `t.leads kind c` says that a token of this kind can start with `c`, as far as its scanner is
chosen by that character: white space with one of its class, an at-keyword with its sign and a
comment with a slash. -/
def Classifier.leads (t : Classifier) : TokenKind → Char → Prop
  | .space, c => t.is .space c = true
  | .atWord, c => c = '@'
  | .comment, c => c = '/'
  | _, _ => True

theorem Scan.Dispatch.leads {t : Classifier} {before : Option Text} {c : Char} {text : Text}
    {e : Extent} (h : Dispatch t before c text e) : t.leads e.kind c := by
  cases h with
  | space h => exact h
  | single _ hsingle =>
      unfold single? at hsingle
      split at hsingle <;> cases hsingle <;> trivial
  | openParen =>
      simp only [Scan.openParen, url, group]
      repeat' split
      all_goals trivial
  | string =>
      unfold Scan.string
      split <;> trivial
  | atWord _ hc => exact hc
  | escape =>
      unfold Scan.escape
      dsimp only
      split <;> trivial
  | comment _ hc _ =>
      unfold Scan.comment
      split <;> exact hc
  | word => trivial

/-- `t.IsLed classifier` says that a token starts with a character that leads to its kind. -/
def Token.IsLed (classifier : Classifier) (t : Token) : Prop :=
  ∃ c more, t.text = c :: more ∧ classifier.leads t.kind c

namespace Lexer

/-- A token starts with a character that leads to its kind, whether or not it is healed. -/
theorem scanNext_isLed {l after : Lexer} {token : Token}
    (h : l.scanNext = (.ok (some token), after)) : token.IsLed l.classifier := by
  unfold scanNext at h
  split at h
  · cases h
  next c text hrest =>
  have hleads := (Scan.scan_dispatch l.classifier l.word c text).leads
  split at h
  · next kind length hscan =>
      rw [hscan] at hleads
      obtain ⟨n, rfl⟩ := Nat.exists_eq_succ_of_ne_zero (Nat.ne_of_gt (scan_length hscan).1)
      cases h
      exact ⟨c, text.take n, by rw [hrest, List.take_succ_cons], hleads⟩
  · next construct hscan =>
      rw [hscan] at hleads
      split at h
      · cases h
        exact ⟨c, text.take text.length, by rw [hrest, List.take_succ_cons], hleads⟩
      · cases h

theorem Reads.isLed {l after : Lexer} {tokens : List Token} (h : l.Reads tokens after)
    {token : Token} (ht : token ∈ tokens) : token.IsLed l.classifier := by
  induction h with
  | nil => cases ht
  | cons l next after first tokens hscan _ ih =>
      rcases List.mem_cons.mp ht with rfl | ht
      · exact scanNext_isLed hscan
      · exact (scanNext_frame hscan).1 ▸ ih ht

end Lexer

/-- The tokens of a run without a failure are what their kinds promise. -/
theorem Token.isFormed_of_mem_run {text : Text} (h : (run text .fail).failure = none) {t : Token}
    (ht : t ∈ (run text .fail).tokens) : t.IsFormed := by
  obtain ⟨hreads, _⟩ := Lexer.reads_of_runFor (run text .fail)
    (Lexer.isPlain_ofText text .fail .stock) (Nat.le_add_left _ _) rfl h
  exact hreads.isFormed rfl ht

end Stylesheet
