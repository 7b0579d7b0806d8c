import Stylesheet.Proofs.Bare
import Stylesheet.Proofs.Gathering
import Stylesheet.Proofs.Rescan
import Stylesheet.Proofs.Tokens

/-!
# Reading a piece of text somewhere else

A run of tokens that leaves nothing open (`Token.IsClosed`) is read again, but for its place,
wherever its text stands (`Lexer.Reads.again`), and any run is before a break that it does not run
into (`Lexer.Reads.again_at_break`). The one thing that a lexer remembers is whether the last word
is `url`. `Text.IsReadAs` says what every lexer that does not remember this word makes of a text.
-/

namespace Stylesheet

/-! ## Closed runs -/

namespace Token

/-- `IsClosed behind tokens` says that the tokens of a run with this text behind it settle how far
they reach, whatever follows the text. -/
def IsClosed (behind : Text) : List Token → Prop
  | [] => True
  | t :: rest =>
      (match t.kind with
        | .leftParen => ')' ∈ spelling rest ++ behind
        | .space | .word | .atWord =>
            ∃ d more, spelling rest ++ behind = d :: more ∧ (d = '/' → more ≠ [])
        | _ => True) ∧ IsClosed behind rest

theorem isClosed_append {behind : Text} {first second : List Token} :
    IsClosed behind (first ++ second) ↔
      IsClosed (spelling second ++ behind) first ∧ IsClosed behind second := by
  induction first with
  | nil => simp [IsClosed]
  | cons t rest ih => rw [List.cons_append, IsClosed, IsClosed, ih, spelling_append,
      List.append_assoc, and_assoc]

/-- What stands before a token is closed, if it closes its parentheses. -/
theorem isClosed_of_isCovered {init : List Token} {v : Token} (hcovered : IsCovered (init ++ [v]))
    (hformed : ∀ t ∈ init ++ [v], t.IsFormed) (hne : v.text ≠ []) (hslash : v.text ≠ ['/']) :
    IsClosed v.text init := by
  induction init with
  | nil => trivial
  | cons t rest ih =>
      have hformed' : ∀ u ∈ rest ++ [v], u.IsFormed := fun u hu ↦
        hformed u (List.mem_cons_of_mem _ hu)
      refine ⟨?_, ih hcovered.2 hformed'⟩
      have hfollows : ∃ d more, spelling rest ++ v.text = d :: more ∧ (d = '/' → more ≠ []) := by
        have hnonempty : spelling rest ++ v.text ≠ [] :=
          fun h ↦ hne (List.append_eq_nil_iff.mp h).2
        obtain ⟨d, more, htext⟩ := List.exists_cons_of_ne_nil hnonempty
        refine ⟨d, more, htext, ?_⟩
        rintro rfl rfl
        rcases List.append_eq_singleton_iff.mp htext with ⟨_, h⟩ | ⟨_, h⟩
        · exact hslash h
        · exact hne h
      split
      · next hkind =>
          obtain ⟨u, hu, hclose⟩ := hcovered.1 hkind
          have hspelling : spelling rest ++ v.text = spelling (rest ++ [v]) := by
            rw [spelling_append, spelling_cons, spelling_nil, List.append_nil]
          rw [hspelling, spelling, List.mem_flatMap]
          exact ⟨u, hu,
            by rw [(hformed' u hu).single hclose (c := ')') rfl]; exact List.mem_cons_self⟩
      · exact hfollows
      · exact hfollows
      · exact hfollows
      · trivial

/-- The kinds of the tokens that end a piece. -/
def IsStop (t : Token) : Prop :=
  t.kind = .semicolon ∨ t.kind = .leftBrace ∨ t.kind = .rightBrace ∨ t.kind = .comment

theorem IsFormed.text_of_isStop {t : Token} (h : t.IsFormed) (hstop : t.IsStop) :
    t.text ≠ [] ∧ t.text ≠ ['/'] := by
  rcases hstop with hkind | hkind | hkind | hkind
  · rw [h.single hkind (c := ';') rfl]
    decide
  · rw [h.single hkind (c := '\x7b') rfl]
    decide
  · rw [h.single hkind (c := '\x7d') rfl]
    decide
  · rw [IsFormed, hkind] at h
    obtain ⟨inner, htext⟩ := h
    rw [htext]
    simp

/-- A run that closes its parentheses and ends with a token that ends a piece is closed. -/
theorem isClosed_of_isStop {init : List Token} {v : Token} (hcovered : IsCovered (init ++ [v]))
    (hformed : ∀ t ∈ init ++ [v], t.IsFormed) (hstop : v.IsStop) : IsClosed [] (init ++ [v]) := by
  obtain ⟨hne, hslash⟩ := (hformed v (by simp)).text_of_isStop hstop
  rw [isClosed_append, spelling_cons, spelling_nil, List.append_nil, List.append_nil]
  refine ⟨isClosed_of_isCovered hcovered hformed hne hslash, ?_, trivial⟩
  rcases hstop with hkind | hkind | hkind | hkind <;> rw [hkind] <;> trivial

end Token

/-- The characters that may stand between statements: blanks and semicolons. -/
def Text.isGap (c : Char) : Bool :=
  Classifier.stock.is .space c || c == ';'

namespace Lexer

/-- `l.IsReady text` says that the text is all that a strict lexer for plain stylesheets has left,
and that it does not take an opening parenthesis there for the start of a url. -/
structure IsReady (l : Lexer) (text : Text) : Prop where
  rest : l.rest = text
  classifier : l.classifier = .stock
  policy : l.policy = .fail
  word : l.word ≠ some "url".toList

/-- `m.Resumes l text` says that a lexer goes on with a text as another one does with its own:
they classify characters alike, fail on open constructs, and agree on whether the last word is
`url`. -/
structure Resumes (m l : Lexer) (text : Text) : Prop where
  rest : m.rest = text
  classifier : m.classifier = l.classifier
  policy : m.policy = .fail
  word : (m.word == some "url".toList) = (l.word == some "url".toList)

variable {l m next after : Lexer} {token : Token} {tokens : List Token} {behind y z : Text}

/-- What a strict lexer reads is a token that was scanned. -/
theorem scanNext_closed (hpolicy : l.policy = .fail)
    (h : l.scanNext = (.ok (some token), next)) :
    ∃ c text n, l.rest = c :: text ∧ scan l.classifier l.word c text = .closed token.kind n ∧
      token = (l.take token.kind n false).1 ∧ next = (l.take token.kind n false).2 := by
  unfold scanNext at h
  rw [hpolicy] at h
  split at h
  · cases h
  · next c text hrest =>
      split at h
      · next kind n hscan =>
          cases h
          exact ⟨c, text, n, hrest, hscan, rfl, rfl⟩
      · cases h

/-- What a strict lexer reads is scanned from the characters of the token and from what
follows. -/
theorem scanNext_scan (hpolicy : l.policy = .fail) (h : l.scanNext = (.ok (some token), next)) :
    ∃ c more, token.text = c :: more ∧
      scan l.classifier l.word c (more ++ next.rest) = .closed token.kind (more.length + 1) := by
  obtain ⟨c, text, n, hl, hscan, htoken, -⟩ := scanNext_closed hpolicy h
  obtain ⟨hrest, hne⟩ := scanNext_rest h
  obtain ⟨d, more, htext⟩ := List.exists_cons_of_ne_nil hne
  have hbound := scan_length hscan
  have hlength : token.text.length = n := by
    rw [htoken]
    show (l.rest.take n).length = n
    rw [hl, List.length_take, List.length_cons]
    omega
  rw [hl, htext, List.cons_append] at hrest
  obtain ⟨rfl, rfl⟩ := List.cons.inj hrest
  rw [htext, List.length_cons] at hlength
  exact ⟨c, more, htext, by rw [hlength, hscan]⟩

/-- What is remembered behind a token agrees if it agreed before. -/
theorem remember_again (hword : (m.word == some "url".toList) = (l.word == some "url".toList))
    (kind : TokenKind) (text : Text) :
    (m.remember kind text == some "url".toList) =
      (l.remember kind text == some "url".toList) := by
  unfold remember
  split
  · split
    · exact hword
    · rfl
  · rfl
  · rfl
  · exact hword

/-- A token that is scanned again is read again. -/
theorem Resumes.scanNext (hm : m.Resumes l (token.text ++ z)) (hpolicy : l.policy = .fail)
    (h : l.scanNext = (.ok (some token), next))
    (hscan : ∀ c more, token.text = c :: more →
      scan l.classifier l.word c (more ++ next.rest) = .closed token.kind (more.length + 1) →
      scan l.classifier m.word c (more ++ z) = .closed token.kind (more.length + 1)) :
    ∃ u after, m.scanNext = (.ok (some u), after) ∧ u.bare = token.bare ∧
      after.Resumes next z := by
  obtain ⟨c, more, htext, hfirst⟩ := scanNext_scan hpolicy h
  obtain ⟨-, -, n, -, -, htoken, hnext⟩ := scanNext_closed hpolicy h
  have hagain := hscan c more htext hfirst
  have hrest := hm.rest
  rw [htext, List.cons_append] at hrest
  have htake : m.rest.take (more.length + 1) = token.text := by
    rw [hrest, htext, List.take_succ_cons, List.take_left]
  refine ⟨(m.take token.kind (more.length + 1) false).1,
    (m.take token.kind (more.length + 1) false).2, ?_, ?_, ?_, ?_, hm.policy, ?_⟩
  · unfold Lexer.scanNext
    rw [hrest]
    dsimp only
    rw [hm.classifier, hagain]
  · have hhealed := healed_eq_false hpolicy h
    obtain ⟨kind, span, text, healed⟩ := token
    cases hhealed
    show Token.mk kind ⟨0, 0⟩ (m.rest.take (more.length + 1)) false = _
    rw [htake]
    rfl
  · show m.rest.drop (more.length + 1) = _
    rw [hrest, List.drop_succ_cons, List.drop_left]
  · exact hm.classifier.trans (scanNext_frame h).1.symm
  · have hltake : l.rest.take n = token.text := by
      rw [htoken]
      rfl
    rw [hnext]
    show (m.remember token.kind (m.rest.take (more.length + 1)) == _) =
      (l.remember token.kind (l.rest.take n) == _)
    rw [htake, hltake]
    exact remember_again hm.word token.kind token.text

/-- A token of a closed run settles how far it reaches. -/
theorem settles_of_isClosed (hclosed : Token.IsClosed behind (token :: tokens)) (more : Text) :
    Scan.Settles token.kind (more.length + 1) (more ++ (Token.spelling tokens ++ behind)) := by
  have hclosed := hclosed.1
  unfold Scan.Settles
  rw [Nat.add_sub_cancel, List.drop_left]
  have hlength : more.length + 1 ≤ (more ++ (Token.spelling tokens ++ behind)).length + 1 := by
    rw [List.length_append]
    omega
  generalize token.kind = kind at hclosed ⊢
  cases kind <;> first | exact hclosed | exact List.mem_append_right _ hclosed | exact hlength

/-- A closed run is read again, but for its place, wherever it stands with the text behind it. -/
theorem Reads.again (h : l.Reads tokens after) (hpolicy : l.policy = .fail)
    (hafter : after.rest = behind ++ y) (hclosed : Token.IsClosed behind tokens)
    (hm : m.Resumes l (Token.spelling tokens ++ (behind ++ z))) :
    ∃ us last, m.Reads us last ∧ Token.Alike us tokens ∧ last.Resumes after (behind ++ z) := by
  induction h generalizing m with
  | nil l => exact ⟨[], m, .nil m, rfl, hm⟩
  | cons l next after token tokens hscan hreads ih =>
      rw [Token.spelling_cons, List.append_assoc] at hm
      obtain ⟨u, middle, hu, hbare, hmiddle⟩ := hm.scanNext hpolicy hscan fun _ more _ hfirst ↦ by
        have hsettles := settles_of_isClosed hclosed more
        rw [hreads.rest_eq, hafter, ← List.append_assoc _ behind, ← List.append_assoc] at hfirst
        rw [← List.append_assoc _ behind, ← List.append_assoc]
        exact Scan.scan_again z hm.word hfirst hsettles
      obtain ⟨us, last, hus, halike, hlast⟩ :=
        ih ((scanNext_frame hscan).2.1.trans hpolicy) hafter hclosed.2 hmiddle
      refine ⟨u :: us, last, .cons _ _ _ _ _ hu hus, ?_, hlast⟩
      unfold Token.Alike at halike ⊢
      rw [List.map_cons, List.map_cons, hbare, halike]

/-- A run that is closed up to its last token is read again, but for its place, before a break
that it does not run into. -/
theorem Reads.again_at_break (h : l.Reads (tokens ++ [token]) after) (hpolicy : l.policy = .fail)
    (hclassifier : l.classifier = .stock) (hclosed : Token.IsClosed token.text tokens)
    (hkind : token.kind ≠ .leftParen) (hz : Scan.IsBreak z)
    (hmeets : Scan.meets token.text z = true)
    (hm : m.Resumes l (Token.spelling (tokens ++ [token]) ++ z)) :
    ∃ us last, m.Reads us last ∧ Token.Alike us (tokens ++ [token]) ∧ last.Resumes after z := by
  obtain ⟨middle, hfirst, hlast⟩ := h.split
  have hrest := hlast.rest_eq
  obtain ⟨hframe, hmiddle⟩ := hfirst.frame
  rw [Token.spelling_append, List.append_assoc] at hm
  simp only [Token.spelling_cons, Token.spelling_nil, List.append_nil] at hrest hm
  obtain ⟨us, start, hus, halike, hstart⟩ := hfirst.again hpolicy hrest hclosed hm
  cases hlast with
  | cons _ _ _ _ _ hscan hnil =>
      cases hnil
      obtain ⟨u, last, hu, hbare, hend⟩ := hstart.scanNext (hmiddle.trans hpolicy) hscan
        fun _ _ htext hfirst ↦ by
          rw [hframe, hclassifier] at hfirst ⊢
          rw [htext] at hmeets
          exact Scan.scan_at_break hz hmeets hkind hstart.word hfirst
      exact ⟨us ++ [u], last, hus.append (.cons _ _ _ _ _ hu (.nil last)),
        halike.append (congrArg (fun t ↦ [t]) hbare), hend⟩

/-! ## What tokens look like -/

/-- A token starts with two dashes if the text does, and is a word then. -/
theorem isCustom_eq (hpolicy : l.policy = .fail) (hclassifier : l.classifier = .stock)
    (h : l.scanNext = (.ok (some token), next)) :
    Statement.isCustom token = (l.rest.take 2 == ['-', '-']) ∧
      (Statement.isCustom token = true → token.kind = .word) := by
  obtain ⟨c, more, htext, hscan⟩ := scanNext_scan hpolicy h
  have hrest := (scanNext_rest h).1
  rw [htext, List.cons_append] at hrest
  rw [hclassifier] at hscan
  rw [Statement.isCustom, htext, hrest]
  by_cases hc : c = '-'
  · subst hc
    replace hscan : Scan.word .stock (more ++ next.rest) =
        .closed token.kind (more.length + 1) := hscan
    rw [Scan.word, Extent.closed.injEq, Nat.add_comm, Nat.add_right_cancel_iff] at hscan
    refine ⟨?_, fun _ ↦ hscan.1.symm⟩
    cases more with
    | cons d more => rfl
    | nil =>
        -- A dash is no word of its own before another one.
        cases hnext : next.rest with
        | nil => rfl
        | cons d text =>
            have hd : d ≠ '-' := by
              rintro rfl
              have hlength := hscan.2
              rw [hnext, List.nil_append, Scan.wordLength, if_neg (by
                rw [show Classifier.stock.is .wordEnd '-' = false by decide]
                exact Bool.false_ne_true)] at hlength
              exact Nat.succ_ne_zero _ hlength
            have hne : ['-', d] ≠ ['-', '-'] := fun h ↦ hd (List.cons.inj (List.cons.inj h).2).1
            exact (beq_eq_false_iff_ne.mpr hne).symm
  · have hnot (text : Text) : ((c :: text).take 2 == ['-', '-']) = false := by
      rw [beq_eq_false_iff_ne, List.take_succ_cons]
      exact fun h ↦ hc (List.cons.inj h).1
    rw [hnot, hnot]
    exact ⟨rfl, fun h ↦ absurd h Bool.false_ne_true⟩

/-- Only blanks are scanned as white space. -/
theorem isSpace_of_scan {word : Option Text} {c : Char} {text : Text} {n : Nat}
    (h : scan .stock word c text = .closed .space n) : Classifier.stock.is .space c = true := by
  have hdispatch := Scan.scan_dispatch .stock word c text
  generalize hextent : scan .stock word c text = extent at hdispatch
  rw [h] at hextent
  cases hdispatch with
  | space hspace => exact hspace
  | single _ hsingle =>
      cases hextent
      unfold Scan.single? at hsingle
      split at hsingle <;> cases hsingle
  | openParen | string | comment | escape =>
      simp only [Scan.openParen, Scan.url, Scan.group, Scan.string, Scan.comment, Scan.escape]
        at hextent
      repeat' split at hextent
      all_goals cases hextent
  | atWord | word => cases hextent

/-- White space is made of blanks. -/
theorem forall_isSpace (hpolicy : l.policy = .fail) (hclassifier : l.classifier = .stock)
    (h : l.scanNext = (.ok (some token), next)) (hkind : token.kind = .space) :
    ∀ c ∈ token.text, Classifier.stock.is .space c = true := by
  obtain ⟨c, more, htext, hscan⟩ := scanNext_scan hpolicy h
  rw [hclassifier, hkind] at hscan
  have hspace := isSpace_of_scan hscan
  rw [scan, if_pos hspace] at hscan
  rw [htext]
  exact Scan.forall_isSpace_of_space hspace hscan

/-- White space ends with a blank, and a comment with a slash. -/
theorem last_of_isTrivia (hpolicy : l.policy = .fail) (hclassifier : l.classifier = .stock)
    (h : l.scanNext = (.ok (some token), next)) (htrivia : token.isTrivia = true) :
    ∃ c ∈ token.text.getLast?, Classifier.stock.is .space c = true ∨ c = '/' := by
  cases hkind : token.kind with
  | space =>
      exact ⟨_, List.getLast?_eq_some_getLast (scanNext_rest h).2,
        .inl (forall_isSpace hpolicy hclassifier h hkind _ (List.getLast_mem _))⟩
  | comment =>
      obtain ⟨inner, htext⟩ : ∃ inner, token.text = "/*".toList ++ inner ++ "*/".toList := by
        have hformed := scanNext_isFormed hpolicy h
        rwa [Token.IsFormed, hkind] at hformed
      refine ⟨'/', ?_, .inr rfl⟩
      rw [htext, List.getLast?_append]
      rfl
  | _ =>
      rw [Token.isTrivia, hkind] at htrivia
      cases htrivia

/-- A token starts with a blank or a semicolon only if it is white space or a semicolon. -/
theorem isGap_of_starts (hpolicy : l.policy = .fail) (hclassifier : l.classifier = .stock)
    (h : l.scanNext = (.ok (some token), next)) (hspace : token.kind ≠ .space)
    (hsemicolon : token.kind ≠ .semicolon) :
    ∃ c more, token.text = c :: more ∧ Text.isGap c = false := by
  obtain ⟨c, more, htext, hscan⟩ := scanNext_scan hpolicy h
  rw [hclassifier] at hscan
  refine ⟨c, more, htext, Bool.or_eq_false_iff.mpr ⟨?_, ?_⟩⟩
  · rw [← Bool.not_eq_true]
    intro hc
    rw [scan, if_pos hc] at hscan
    exact hspace (Extent.closed.inj hscan).1.symm
  · rw [beq_eq_false_iff_ne]
    rintro rfl
    exact hsemicolon (Extent.closed.inj hscan).1.symm

/-- A ready lexer goes on as any other one. -/
theorem IsReady.resumes {text text' : Text} (hm : m.IsReady text) (hl : l.IsReady text') :
    m.Resumes l text :=
  ⟨hm.rest, hm.classifier.trans hl.classifier.symm, hm.policy, by
    rw [beq_eq_false_iff_ne.mpr hm.word, beq_eq_false_iff_ne.mpr hl.word]⟩

/-- A lexer that goes on as a ready one is ready. -/
theorem Resumes.isReady {text text' : Text} (hm : m.Resumes l text) (hl : l.IsReady text') :
    m.IsReady text :=
  ⟨hm.rest, hm.classifier.trans hl.classifier, hm.policy, by
    have hword := hm.word
    rw [beq_eq_false_iff_ne.mpr hl.word] at hword
    exact beq_eq_false_iff_ne.mp hword⟩

end Lexer

/-! ## The last word -/

/-- `wordBehind word tokens` is the last plain word since the last opening parenthesis behind a
run, where `word` is the one before it. -/
def Token.wordBehind (word : Option Text) : List Token → Option Text
  | [] => word
  | t :: rest => wordBehind (Lexer.remember { Lexer.ofText [] with word } t.kind t.text) rest

/-- A run remembers a word of its own or leaves what was remembered before it. -/
theorem Token.wordBehind_eq (word : Option Text) (tokens : List Token) :
    wordBehind word tokens = wordBehind none tokens ∨ wordBehind word tokens = word := by
  induction tokens with
  | nil => exact .inr rfl
  | cons t rest ih =>
      rw [wordBehind, wordBehind]
      unfold Lexer.remember
      split
      · split
        · exact ih
        · exact .inl rfl
      · exact .inl rfl
      · exact .inl rfl
      · exact ih

theorem Lexer.Reads.word_eq {l after : Lexer} {tokens : List Token} (h : l.Reads tokens after)
    (hpolicy : l.policy = .fail) : after.word = Token.wordBehind l.word tokens := by
  induction h with
  | nil => rfl
  | cons l next after token tokens hscan _ ih =>
      obtain ⟨c, text, n, -, -, htoken, hnext⟩ := scanNext_closed hpolicy hscan
      rw [ih ((scanNext_frame hscan).2.1.trans hpolicy), Token.wordBehind, hnext, htoken]
      rfl

theorem Token.wordBehind_append (word : Option Text) (first second : List Token) :
    wordBehind word (first ++ second) = wordBehind (wordBehind word first) second := by
  induction first generalizing word with
  | nil => rfl
  | cons t rest ih =>
      rw [List.cons_append, wordBehind, wordBehind]
      exact ih _

/-- A token that is neither a word nor opens a bracket. -/
def Token.IsMute (t : Token) : Prop :=
  t.kind ≠ .word ∧ t.kind ≠ .leftParen ∧ t.kind ≠ .brackets

theorem Token.isMute_of_isTrivia {t : Token} (h : t.isTrivia = true) : t.IsMute := by
  rw [isTrivia] at h
  rw [IsMute]
  cases hkind : t.kind <;> rw [hkind] at h <;> first | decide | cases h

theorem Token.wordBehind_of_isMute {tokens : List Token} (h : ∀ t ∈ tokens, t.IsMute)
    (word : Option Text) : wordBehind word tokens = word := by
  induction tokens with
  | nil => rfl
  | cons t rest ih =>
      obtain ⟨⟨hword, hparen, hbrackets⟩, hrest⟩ := List.forall_mem_cons.mp h
      rw [wordBehind]
      unfold Lexer.remember
      split
      · next hkind => exact absurd hkind hword
      · next hkind => exact absurd hkind hparen
      · next hkind => exact absurd hkind hbrackets
      · exact ih hrest

/-- A run that does not end with the word `url` leaves a ready lexer ready. -/
theorem Lexer.IsReady.behind {l after : Lexer} {text : Text} {tokens : List Token}
    (hl : l.IsReady text) (h : l.Reads tokens after)
    (hword : Token.wordBehind none tokens ≠ some "url".toList) : after.IsReady after.rest := by
  obtain ⟨hclassifier, hpolicy⟩ := h.frame
  refine ⟨rfl, hclassifier.trans hl.classifier, hpolicy.trans hl.policy, ?_⟩
  rw [h.word_eq hl.policy]
  rcases Token.wordBehind_eq l.word tokens with heq | heq
  · rw [heq]
    exact hword
  · rw [heq]
    exact hl.word

/-! ## What a text is read as -/

namespace Text

variable {x y z : Text} {P Q : List Token → Prop}

/-- `x.IsReadAs z P` says that every ready lexer reads the text `x` with `z` behind it as tokens
that `P` holds of, and is ready behind them. -/
def IsReadAs (x z : Text) (P : List Token → Prop) : Prop :=
  ∀ m : Lexer, m.IsReady (x ++ z) → ∃ us after, m.Reads us after ∧ P us ∧ after.IsReady z

theorem IsReadAs.imp (h : x.IsReadAs z P) (hP : ∀ us, P us → Q us) : x.IsReadAs z Q := by
  intro m hm
  obtain ⟨us, after, hreads, hus, hafter⟩ := h m hm
  exact ⟨us, after, hreads, hP us hus, hafter⟩

theorem isReadAs_nil (hP : P []) : IsReadAs [] z P :=
  fun m hm ↦ ⟨[], m, .nil m, hP, hm⟩

theorem IsReadAs.append (hx : x.IsReadAs (y ++ z) P) (hy : y.IsReadAs z Q) :
    (x ++ y).IsReadAs z fun us ↦ ∃ xs ys, us = xs ++ ys ∧ P xs ∧ Q ys := by
  intro m hm
  rw [List.append_assoc] at hm
  obtain ⟨xs, middle, hxs, hPxs, hmiddle⟩ := hx m hm
  obtain ⟨ys, after, hys, hQys, hafter⟩ := hy middle hmiddle
  exact ⟨xs ++ ys, after, hxs.append hys, ⟨xs, ys, rfl, hPxs, hQys⟩, hafter⟩

end Text

namespace Lexer

variable {m l after : Lexer} {tokens : List Token} {token : Token} {text z : Text}

/-- What a ready lexer reads is read again wherever it stands, if it leaves nothing open. -/
theorem IsReady.isReadAs (hl : l.IsReady text) (h : l.Reads tokens after)
    (hclosed : Token.IsClosed [] tokens)
    (hword : Token.wordBehind none tokens ≠ some "url".toList) (z : Text) :
    (Token.spelling tokens).IsReadAs z (Token.Alike · tokens) := by
  intro m hm
  obtain ⟨us, last, hus, halike, hlast⟩ :=
    h.again hl.policy (List.nil_append _).symm hclosed (hm.resumes hl)
  exact ⟨us, last, hus, halike, hlast.isReady (hl.behind h hword)⟩

/-- What a ready lexer reads is read again before a break that it does not run into. -/
theorem IsReady.isReadAs_at_break (hl : l.IsReady text) (h : l.Reads (tokens ++ [token]) after)
    (hcovered : Token.IsCovered (tokens ++ [token]))
    (hword : Token.wordBehind none (tokens ++ [token]) ≠ some "url".toList)
    (hz : Scan.IsBreak z) (hmeets : Scan.meets (Token.spelling (tokens ++ [token])) z = true) :
    (Token.spelling (tokens ++ [token])).IsReadAs z (Token.Alike · (tokens ++ [token])) := by
  have hne : token.text ≠ [] := by
    obtain ⟨_, _, hlast⟩ := h.split
    cases hlast with
    | cons _ _ _ _ _ hscan _ => exact (scanNext_rest hscan).2
  have hmeets : Scan.meets token.text z = true := by
    rw [Token.spelling_append, Token.spelling_cons, Token.spelling_nil, List.append_nil] at hmeets
    exact Scan.meets_of_append hne hmeets
  have hslash : token.text ≠ ['/'] := by
    intro heq
    rw [heq] at hmeets
    cases hmeets
  have hkind : token.kind ≠ .leftParen := by
    intro hkind
    obtain ⟨_, hu, -⟩ := hcovered.of_append.1 hkind
    cases hu
  have hclosed := Token.isClosed_of_isCovered hcovered
    (fun t ht ↦ h.isFormed hl.policy ht) hne hslash
  intro m hm
  obtain ⟨us, last, hus, halike, hlast⟩ :=
    h.again_at_break hl.policy hl.classifier hclosed hkind hz hmeets (hm.resumes hl)
  exact ⟨us, last, hus, halike, hlast.isReady (hl.behind h hword)⟩

/-- A ready lexer reads a token that was scanned, and is ready behind it if the token is no
word. -/
theorem IsReady.scanNext_of_scan {c : Char} {kind : TokenKind} {n : Nat}
    (hm : m.IsReady (c :: text)) (hscan : scan .stock m.word c text = .closed kind n)
    (hkind : kind = .space ∨ kind = .semicolon ∨ kind = .rightBrace) :
    ∃ u after, m.scanNext = (.ok (some u), after) ∧ u.kind = kind ∧ u.text = (c :: text).take n ∧
      after.IsReady ((c :: text).drop n) := by
  refine ⟨(m.take kind n false).1, (m.take kind n false).2, ?_, rfl, ?_, ?_, hm.classifier,
    hm.policy, ?_⟩
  · unfold scanNext
    rw [hm.rest]
    dsimp only
    rw [hm.classifier, hscan]
  · show m.rest.take n = _
    rw [hm.rest]
  · show m.rest.drop n = _
    rw [hm.rest]
  · show m.remember kind _ ≠ _
    rcases hkind with rfl | rfl | rfl <;> exact hm.word

end Lexer

namespace Text

variable {x z : Text}

/-- White space and semicolons are read as such, if no more white space follows. -/
theorem isReadAs_gap (hx : ∀ c ∈ x, isGap c = true)
    (hz : z.head?.any (Classifier.stock.is .space) = false) :
    x.IsReadAs z fun us ↦ (∀ t ∈ us, t.kind = .space ∨ t.kind = .semicolon) ∧
      ((∀ c ∈ x, Classifier.stock.is .space c = true) → ∀ t ∈ us, t.kind = .space) := by
  induction hlength : x.length using Nat.strongRecOn generalizing x with
  | ind length ih =>
  subst hlength
  cases x with
  | nil => exact isReadAs_nil ⟨List.forall_mem_nil _, fun _ ↦ List.forall_mem_nil _⟩
  | cons c x =>
      obtain ⟨hc, hmore⟩ := List.forall_mem_cons.mp hx
      intro m hm
      by_cases hspace : Classifier.stock.is .space c = true
      · -- The token takes the white space at the start of the text.
        have hscan : scan .stock m.word c (x ++ z) =
            .closed .space (1 + (x.takeWhile (Classifier.stock.is .space)).length) := by
          rw [scan, if_pos hspace, Scan.space, Text.takeWhile_append_of_head? hz]
        have hsplit := List.takeWhile_append_dropWhile (p := Classifier.stock.is .space) (l := x)
        generalize x.takeWhile (Classifier.stock.is .space) = spaces at hscan hsplit
        generalize x.dropWhile (Classifier.stock.is .space) = rest at hsplit
        have hm : m.IsReady (c :: (x ++ z)) := hm
        obtain ⟨u, next, hu, hkind, -, hnext⟩ := hm.scanNext_of_scan hscan (.inl rfl)
        have hrest : (c :: (x ++ z)).drop (1 + spaces.length) = rest ++ z := by
          rw [Nat.add_comm, List.drop_succ_cons, ← hsplit, List.append_assoc, List.drop_left]
        rw [hrest] at hnext
        have hsub : ∀ d ∈ rest, d ∈ x := fun d hd ↦ by
          rw [← hsplit]
          exact List.mem_append_right _ hd
        have hshort : rest.length < (c :: x).length := by
          rw [← hsplit, List.length_cons, List.length_append]
          omega
        obtain ⟨us, after, hus, ⟨hgap, hblank⟩, hafter⟩ :=
          ih _ hshort (fun d hd ↦ hmore d (hsub d hd)) rfl next hnext
        refine ⟨u :: us, after, .cons _ _ _ _ _ hu hus, ⟨?_, fun hall ↦ ?_⟩, hafter⟩
        · exact List.forall_mem_cons.mpr ⟨.inl hkind, hgap⟩
        · exact List.forall_mem_cons.mpr ⟨hkind, hblank fun d hd ↦
            hall d (List.mem_cons_of_mem _ (hsub d hd))⟩
      · obtain rfl := eq_of_beq ((Bool.or_eq_true_iff.mp hc).resolve_left hspace)
        obtain ⟨u, next, hu, hkind, -, hnext⟩ :=
          hm.scanNext_of_scan
            (show scan .stock m.word ';' (x ++ z) = .closed .semicolon 1 from rfl)
            (.inr (.inl rfl))
        have hnext : next.IsReady (x ++ z) := hnext
        obtain ⟨us, after, hus, ⟨hgap, -⟩, hafter⟩ :=
          ih x.length (Nat.lt_succ_self _) hmore rfl next hnext
        exact ⟨u :: us, after, .cons _ _ _ _ _ hu hus,
          ⟨List.forall_mem_cons.mpr ⟨.inr hkind, hgap⟩,
            fun hall ↦ absurd (hall _ List.mem_cons_self) hspace⟩, hafter⟩

/-- A closing brace is read as such. -/
theorem isReadAs_brace (z : Text) :
    IsReadAs ['\x7d'] z fun us ↦ ∃ brace : Token, us = [brace] ∧ brace.kind = .rightBrace := by
  intro m hm
  obtain ⟨u, after, hu, hkind, -, hafter⟩ :=
    hm.scanNext_of_scan (show scan .stock m.word '\x7d' z = .closed .rightBrace 1 from rfl)
      (.inr (.inr rfl))
  exact ⟨[u], after, .cons _ _ _ _ _ hu (.nil after), ⟨u, rfl, hkind⟩, hafter⟩

end Text

end Stylesheet
