import Stylesheet.Token.Scan

/-!
# Scanning a token somewhere else

How far a token reaches depends on what follows it only up to the next character, but for an
opening parenthesis, which looks for the next closing one. So a token is scanned again whatever
follows a text that settles how far it reaches (`Scan.scan_again`). At the end of a text it is
enough that words end there (`Scan.IsBreak`) and that the token does not run into what follows
(`Scan.meets`); this is `Scan.scan_at_break`.
-/

namespace Stylesheet

namespace Scan

variable {t : Classifier} {before again : Option Text} {c : Char} {x y : Text} {n : Nat}

/-! ## Searching in a text that goes on in another way -/

/-- A run of characters that ends within a text ends there whatever follows the text. -/
theorem takeWhile_again (p : Char → Bool) (z : Text)
    (h : ((x ++ y).takeWhile p).length < x.length) :
    (x ++ z).takeWhile p = (x ++ y).takeWhile p := by
  have hshort : (x.takeWhile p).length ≠ x.length := by
    intro heq
    rw [List.takeWhile_append, if_pos heq, List.length_append] at h
    omega
  rw [List.takeWhile_append, List.takeWhile_append, if_neg hshort, if_neg hshort]

/-- A run of characters ends before the first one that ends it. -/
theorem length_takeWhile_lt {p : Char → Bool} (y : Text) (hmem : c ∈ x) (hc : p c = false) :
    ((x ++ y).takeWhile p).length < x.length := by
  induction x with
  | nil => cases hmem
  | cons d x ih =>
      rw [List.cons_append, List.takeWhile_cons]
      split
      · next hd =>
          rcases List.mem_cons.mp hmem with rfl | hmem
          · rw [hc] at hd
            cases hd
          · exact Nat.succ_lt_succ (ih hmem)
      · exact Nat.succ_pos _

theorem le_findUnescapedFrom {seen : Text} {terminator : Char}
    (h : findUnescapedFrom seen terminator x = some n) : seen.length ≤ n := by
  induction x generalizing seen with
  | nil => cases h
  | cons d x ih =>
      rw [findUnescapedFrom] at h
      split at h
      · cases h
        exact Nat.le_refl _
      · have := ih h
        rw [List.length_cons] at this
        omega

theorem findUnescapedFrom_again {seen : Text} {terminator : Char} (z : Text)
    (h : findUnescapedFrom seen terminator (x ++ y) = some n)
    (hn : n < seen.length + x.length) : findUnescapedFrom seen terminator (x ++ z) = some n := by
  induction x generalizing seen with
  | nil =>
      have := le_findUnescapedFrom h
      rw [List.length_nil] at hn
      omega
  | cons d x ih =>
      rw [List.cons_append, findUnescapedFrom] at h ⊢
      split at h
      · next hend => rw [if_pos hend, h]
      · next hend =>
          rw [if_neg hend]
          refine ih h ?_
          rw [List.length_cons] at hn ⊢
          omega

theorem findUnescaped_again (z : Text) (h : findUnescaped c (x ++ y) = some n)
    (hn : n < x.length) : findUnescaped c (x ++ z) = some n := by
  refine findUnescapedFrom_again z h ?_
  rw [List.length_nil]
  omega

theorem two_le_commentEnd (h : commentEnd x = some n) : 2 ≤ n := by
  induction x using commentEnd.induct generalizing n with
  | case1 x =>
      cases h
      exact Nat.le_refl _
  | case2 d x hne ih =>
      rw [commentEnd.eq_2 d x hne] at h
      obtain ⟨m, hm, rfl⟩ := Option.map_eq_some_iff.mp h
      have := ih hm
      omega
  | case3 => cases h

theorem commentEnd_again (z : Text) (h : commentEnd (x ++ y) = some n) (hn : n ≤ x.length) :
    commentEnd (x ++ z) = some n := by
  have htwo := two_le_commentEnd h
  induction x generalizing n with
  | nil =>
      rw [List.length_nil] at hn
      omega
  | cons d x ih =>
      cases x with
      | nil =>
          rw [List.length_singleton] at hn
          omega
      | cons e x =>
          by_cases hend : d = '*' ∧ e = '/'
          · obtain ⟨rfl, rfl⟩ := hend
            exact h
          · have hskip (w : Text) : ∀ v, d = '*' → e :: (x ++ w) = '/' :: v → False := by
              intro v hd he
              cases he
              exact hend ⟨hd, rfl⟩
            rw [List.cons_append, List.cons_append] at h ⊢
            rw [commentEnd.eq_2 d _ (hskip y)] at h
            rw [commentEnd.eq_2 d _ (hskip z)]
            obtain ⟨m, hm, rfl⟩ := Option.map_eq_some_iff.mp h
            have := two_le_commentEnd hm
            rw [List.length_cons] at hn
            rw [← List.cons_append, ih hm (by omega) this]
            rfl

/-- A word that ends within a text ends there whatever follows the text, if the text goes on
behind it and not only with the first half of a comment sign. -/
theorem wordLength_again (z : Text) {d : Char} {more : Text}
    (h : x.drop (wordLength t (x ++ y)) = d :: more) (hslash : d = '/' → more ≠ []) :
    wordLength t (x ++ z) = wordLength t (x ++ y) := by
  induction x with
  | nil => cases List.drop_nil.symm.trans h
  | cons c x ih =>
      have hends : (t.is .wordEnd c || (c == '/' && (x ++ z).head? == some '*')) =
          (t.is .wordEnd c || (c == '/' && (x ++ y).head? == some '*')) := by
        cases x with
        | cons e x => rfl
        | nil =>
            rw [List.cons_append, wordLength] at h
            split at h
            · obtain ⟨hcd, hmore⟩ := List.cons.inj h
              have hc : (c == '/') = false :=
                beq_eq_false_iff_ne.mpr fun hc ↦ hslash (hcd.symm.trans hc) hmore.symm
              rw [hc, Bool.false_and, Bool.false_and]
            · rw [List.drop_succ_cons, List.drop_nil] at h
              cases h
      rw [List.cons_append, wordLength] at h ⊢
      rw [List.cons_append, wordLength, hends]
      split at h
      · next hend => rw [if_pos hend, if_pos hend]
      · next hend => rw [if_neg hend, if_neg hend, ih h]

/-! ## One token -/

/-- `Settles kind n x` says that how far a token of this kind and length reaches is settled by its
first character and the text `x` behind that: the token ends in `x`, and so does what it looks
ahead at. -/
def Settles (kind : TokenKind) (n : Nat) (x : Text) : Prop :=
  match kind with
  | .leftParen => ')' ∈ x
  | .space | .word | .atWord => ∃ d more, x.drop (n - 1) = d :: more ∧ (d = '/' → more ≠ [])
  | _ => n ≤ x.length + 1

theorem length_lt_of_drop {k : Nat} {d : Char} {more : Text} (h : x.drop k = d :: more) :
    k < x.length := by
  have hlength := congrArg List.length h
  rw [List.length_drop, List.length_cons] at hlength
  omega

theorem space_again {kind : TokenKind} (z : Text) (h : Scan.space t (x ++ y) = .closed kind n)
    (hsettles : Settles kind n x) : Scan.space t (x ++ z) = .closed kind n := by
  cases h
  obtain ⟨d, more, hdrop, _⟩ := hsettles
  rw [Nat.add_sub_cancel_left] at hdrop
  rw [Scan.space, takeWhile_again _ z (length_lt_of_drop hdrop)]

theorem atWord_again {kind : TokenKind} (z : Text) (h : Scan.atWord t (x ++ y) = .closed kind n)
    (hsettles : Settles kind n x) : Scan.atWord t (x ++ z) = .closed kind n := by
  cases h
  obtain ⟨d, more, hdrop, _⟩ := hsettles
  rw [Nat.add_sub_cancel_left] at hdrop
  rw [Scan.atWord, takeWhile_again _ z (length_lt_of_drop hdrop)]

theorem word_again {kind : TokenKind} (z : Text) (h : Scan.word t (x ++ y) = .closed kind n)
    (hsettles : Settles kind n x) : Scan.word t (x ++ z) = .closed kind n := by
  cases h
  obtain ⟨d, more, hdrop, hslash⟩ := hsettles
  rw [Nat.add_sub_cancel_left] at hdrop
  rw [Scan.word, wordLength_again z hdrop hslash]

theorem string_again {kind : TokenKind} (z : Text) (h : Scan.string c (x ++ y) = .closed kind n)
    (hsettles : Settles kind n x) : Scan.string c (x ++ z) = .closed kind n := by
  unfold Scan.string at h
  split at h
  · next k hk =>
      cases h
      have hn : k + 2 ≤ x.length + 1 := hsettles
      unfold Scan.string
      rw [findUnescaped_again z hk (by omega)]
  · cases h

theorem comment_again {kind : TokenKind} (z : Text) (h : Scan.comment (x ++ y) = .closed kind n)
    (hsettles : Settles kind n x) : Scan.comment (x ++ z) = .closed kind n := by
  unfold Scan.comment at h
  split at h
  · next k hk =>
      cases h
      have hn : k + 2 ≤ x.length + 1 := hsettles
      have hpos : 1 ≤ x.length := by omega
      unfold Scan.comment
      rw [List.drop_append_of_le_length hpos] at hk ⊢
      rw [commentEnd_again z hk (by rw [List.length_drop]; omega)]
  · cases h

theorem escapedLength_again (z : Text) (h : escapedLength t (x ++ y) < x.length) :
    escapedLength t (x ++ z) = escapedLength t (x ++ y) := by
  cases x with
  | nil =>
      rw [List.length_nil] at h
      omega
  | cons d x =>
      rw [List.cons_append, escapedLength] at h ⊢
      rw [List.cons_append, escapedLength]
      split at h
      · next hstop => rw [if_pos hstop, if_pos hstop]
      · next hstop =>
          rw [if_neg hstop, if_neg hstop]
          split at h
          · next hhex =>
              rw [if_pos hhex, if_pos hhex]
              dsimp only at h ⊢
              have hdigits : ((x ++ y).takeWhile (t.is .hex)).length < x.length := by
                rw [List.length_cons] at h
                omega
              rw [takeWhile_again _ z hdigits,
                List.drop_append_of_le_length (Nat.le_of_lt hdigits),
                List.drop_append_of_le_length (Nat.le_of_lt hdigits)]
              have hne : x.drop ((x ++ y).takeWhile (t.is .hex)).length ≠ [] := by
                rw [Ne, List.drop_eq_nil_iff]
                omega
              obtain ⟨e, rest, he⟩ := List.exists_cons_of_ne_nil hne
              rw [he]
              rfl
          · next hhex => rw [if_neg hhex, if_neg hhex]

theorem escape_again {kind : TokenKind} (z : Text) (h : Scan.escape t (x ++ y) = .closed kind n)
    (hsettles : Settles kind n x) : Scan.escape t (x ++ z) = .closed kind n := by
  unfold Scan.escape at h ⊢
  dsimp only at h ⊢
  have hsettles : ∃ d more, x.drop (n - 1) = d :: more := by
    split at h <;> cases h <;> exact ⟨_, _, hsettles.choose_spec.choose_spec.1⟩
  obtain ⟨d, more, hdrop⟩ := hsettles
  have hlt := length_lt_of_drop hdrop
  have hslashes : ((x ++ y).takeWhile (· == '\\')).length < x.length := by
    split at h <;> cases h <;> omega
  rw [takeWhile_again _ z hslashes]
  rw [List.drop_append_of_le_length (Nat.le_of_lt hslashes)] at h ⊢
  split at h
  · next hodd =>
      cases h
      have hescaped : escapedLength t (x.drop ((x ++ y).takeWhile (· == '\\')).length ++ y) <
          (x.drop ((x ++ y).takeWhile (· == '\\')).length).length := by
        rw [List.length_drop]
        omega
      rw [if_pos hodd, escapedLength_again z hescaped]
  · next hodd => rw [if_neg hodd, h]

theorem group_again {kind : TokenKind} (z : Text) (h : Scan.group t (x ++ y) = .closed kind n)
    (hsettles : Settles kind n x) : Scan.group t (x ++ z) = .closed kind n := by
  unfold Scan.group at h ⊢
  dsimp only at h ⊢
  have hbody : ((x ++ y).takeWhile (· != ')')).length < x.length := by
    split at h
    · cases h
      exact length_takeWhile_lt y hsettles rfl
    · cases h
      have hn : _ + 2 ≤ x.length + 1 := hsettles
      omega
  have hnot (w : Text) : ¬((x ++ y).takeWhile (· != ')')).length = (x ++ w).length := by
    rw [List.length_append]
    omega
  rw [takeWhile_again _ z hbody, decide_eq_false (hnot z)]
  rw [decide_eq_false (hnot y)] at h
  exact h

theorem url_again {kind : TokenKind} (z : Text) (h : Scan.url (x ++ y) = .closed kind n)
    (hsettles : Settles kind n x) : Scan.url (x ++ z) = .closed kind n := by
  unfold Scan.url at h
  split at h
  · next k hk =>
      cases h
      have hn : k + 2 ≤ x.length + 1 := hsettles
      unfold Scan.url
      rw [findUnescaped_again z hk (by omega)]
  · cases h

theorem openParen_again {kind : TokenKind} (z : Text)
    (hword : (again == some "url".toList) = (before == some "url".toList))
    (h : Scan.openParen t before (x ++ y) = .closed kind n)
    (hsettles : Settles kind n x) : Scan.openParen t again (x ++ z) = .closed kind n := by
  -- A parenthesis that stands alone has another one behind it, and a group does not end at once.
  have hx : x ≠ [] := by
    rintro rfl
    unfold Scan.openParen Scan.url Scan.group at h
    dsimp only at h
    repeat' split at h
    all_goals cases h
    · have hn : _ + 2 ≤ 1 := hsettles
      omega
    · cases hsettles
    · have hn : _ + 2 ≤ 1 := hsettles
      omega
  obtain ⟨d, x, rfl⟩ := List.exists_cons_of_ne_nil hx
  have hopens : opensUrl again (d :: x ++ z) = opensUrl before (d :: x ++ y) := by
    rw [opensUrl, opensUrl, hword]
    rfl
  unfold Scan.openParen at h ⊢
  rw [hopens]
  split at h
  · next hurl => exact (if_pos hurl).trans (url_again z h hsettles)
  · next hurl => exact (if_neg hurl).trans (group_again z h hsettles)

/-- A token that settles how far it reaches is scanned again whatever follows, and whatever the
last word is, but for the word `url`. -/
theorem scan_again {kind : TokenKind} (z : Text)
    (hword : (again == some "url".toList) = (before == some "url".toList))
    (h : scan t before c (x ++ y) = .closed kind n) (hsettles : Settles kind n x) :
    scan t again c (x ++ z) = .closed kind n := by
  unfold scan at h ⊢
  split at h
  · next hspace => exact (if_pos hspace).trans (space_again z h hsettles)
  next hspace =>
  rw [if_neg hspace]
  cases hsingle : single? c with
  | some single =>
      rw [hsingle] at h
      exact h
  | none =>
      rw [hsingle] at h
      dsimp only at h ⊢
      split at h
      · next hparen => exact (if_pos hparen).trans (openParen_again z hword h hsettles)
      next hparen =>
      rw [if_neg hparen]
      split at h
      · next hquote => exact (if_pos hquote).trans (string_again z h hsettles)
      next hquote =>
      rw [if_neg hquote]
      split at h
      · next hat => exact (if_pos hat).trans (atWord_again z h hsettles)
      next hat =>
      rw [if_neg hat]
      split at h
      · next hslash => exact (if_pos hslash).trans (escape_again z h hsettles)
      next hslash =>
      rw [if_neg hslash]
      have hx : x ≠ [] := by
        rintro rfl
        split at h
        · unfold Scan.comment at h
          split at h <;> cases h
          have hn : _ + 2 ≤ 1 := hsettles
          omega
        · cases h
          obtain ⟨d, more, hdrop, _⟩ := hsettles
          cases List.drop_nil.symm.trans hdrop
      obtain ⟨d, x, rfl⟩ := List.exists_cons_of_ne_nil hx
      split at h
      · next hcomment => exact (if_pos hcomment).trans (comment_again z h hsettles)
      · next hcomment => exact (if_neg hcomment).trans (word_again z h hsettles)

/-! ## Where words end -/

/-- `IsBreak text` says that a word or an at-keyword in front of a text ends there: the text is
empty, or it starts with white space, a semicolon, a closing brace or a comment. -/
def IsBreak : Text → Prop
  | [] => True
  | c :: text =>
      Classifier.stock.is .space c = true ∨ c = ';' ∨ c = '\x7d' ∨ c = '/' ∧ text.head? = some '*'

/-- `meets front behind` says that a text does not run into the one behind it: its last character
is neither a backslash, which would escape what follows, nor a slash, which could start a comment;
white space does not meet white space, and a hexadecimal escape does not meet a space. -/
def meets (front behind : Text) : Bool :=
  front.getLast?.all (fun c ↦ c != '\\' && c != '/') &&
    !(front.getLast?.any (Classifier.stock.is .space) &&
      behind.head?.any (Classifier.stock.is .space)) &&
    !((front.reverse.dropWhile (Classifier.stock.is .hex)).head? == some '\\' &&
      behind.head? == some ' ')

section Break

variable {z : Text}

/-- No run of characters goes on at a break, if none of the characters of a break belongs to
it. -/
theorem IsBreak.takeWhile_eq_nil {p : Char → Bool} (hz : IsBreak z)
    (hspace : ∀ c, Classifier.stock.is .space c = true → p c = false) (hsemicolon : p ';' = false)
    (hbrace : p '\x7d' = false) (hslash : p '/' = false) : z.takeWhile p = [] := by
  cases z with
  | nil => rfl
  | cons c z =>
      rw [List.takeWhile_cons_of_neg]
      rw [Bool.not_eq_true]
      rcases hz with hc | rfl | rfl | ⟨rfl, -⟩
      · exact hspace c hc
      · exact hsemicolon
      · exact hbrace
      · exact hslash

/-- The characters that are white space to the lexer. -/
theorem mem_of_isSpace {c : Char} (h : Classifier.stock.is .space c = true) :
    c ∈ CharClass.stockMembers .space :=
  Classifier.stock_is_iff.mp h

/-- What holds of the five characters of white space holds of all white space. -/
theorem forall_isSpace {p : Char → Bool} {b : Bool}
    (h : ((CharClass.stockMembers .space).all fun c ↦ p c == b) = true) (c : Char)
    (hc : Classifier.stock.is .space c = true) : p c = b :=
  eq_of_beq (List.all_eq_true.mp h c (mem_of_isSpace hc))

/-- A run of characters has the same length before a text in which it does not go on. -/
theorem length_takeWhile_at_break {p : Char → Bool} (hz : z.takeWhile p = [])
    (h : ((x ++ y).takeWhile p).length = x.length) :
    ((x ++ z).takeWhile p).length = x.length := by
  rw [List.takeWhile_append] at h ⊢
  split at h
  · next hall => rw [if_pos hall, hz, List.append_nil]
  · next hshort => exact absurd h hshort

theorem IsBreak.wordLength_eq_zero (hz : IsBreak z) : wordLength .stock z = 0 := by
  cases z with
  | nil => rfl
  | cons c z =>
      rw [wordLength, if_pos]
      rcases hz with hc | rfl | rfl | ⟨rfl, hstar⟩
      · rw [forall_isSpace (p := Classifier.stock.is .wordEnd) (b := true) rfl c hc,
          Bool.true_or]
      · rfl
      · rfl
      · rw [hstar]
        rfl

theorem IsBreak.head?_ne_star (hz : IsBreak z) : z.head? ≠ some '*' := by
  cases z with
  | nil => exact nofun
  | cons c z =>
      intro hc
      obtain rfl := Option.some.inj hc
      rcases hz with h | h | h | ⟨h, -⟩
      · exact absurd h (by decide)
      · exact absurd h (by decide)
      · exact absurd h (by decide)
      · exact absurd h (by decide)

/-- A word has the same length before a break. -/
theorem wordLength_at_break (hz : IsBreak z) (h : wordLength .stock (x ++ y) = x.length) :
    wordLength .stock (x ++ z) = x.length := by
  induction x with
  | nil => exact hz.wordLength_eq_zero
  | cons c x ih =>
      rw [List.cons_append, wordLength] at h ⊢
      split at h
      · exact absurd h (Nat.succ_ne_zero _).symm
      next hends =>
      have hends' : ¬(Classifier.stock.is .wordEnd c ||
          (c == '/' && (x ++ z).head? == some '*')) = true := by
        cases x with
        | cons d x => exact hends
        | nil =>
            simp only [Bool.or_eq_true, Bool.and_eq_true, beq_iff_eq, not_or] at hends ⊢
            exact ⟨hends.1, fun hcomment ↦ hz.head?_ne_star hcomment.2⟩
      rw [if_neg hends', ih (Nat.succ.inj h)]
      rfl

theorem IsBreak.takeWhile_hex (hz : IsBreak z) : z.takeWhile (Classifier.stock.is .hex) = [] :=
  hz.takeWhile_eq_nil (forall_isSpace rfl) rfl rfl rfl

/-- An escape has the same length before a break, if no space meets its digits. -/
theorem escapedLength_at_break (hx : x ≠ []) (hz : IsBreak z)
    (hdigits : z.head? = some ' ' → ∃ d ∈ x, Classifier.stock.is .hex d = false)
    (h : escapedLength .stock (x ++ y) = x.length) :
    escapedLength .stock (x ++ z) = x.length := by
  obtain ⟨c, x, rfl⟩ := List.exists_cons_of_ne_nil hx
  rw [List.cons_append, escapedLength] at h ⊢
  split at h
  · exact absurd h (Nat.succ_ne_zero _).symm
  next hstop =>
  rw [if_neg hstop]
  split at h
  · next hhex =>
      rw [if_pos hhex]
      dsimp only at h ⊢
      by_cases hall : (x.takeWhile (Classifier.stock.is .hex)).length = x.length
      · -- All of it are digits, and no space stands behind them.
        have htake {w : Text} (hw : w.takeWhile (Classifier.stock.is .hex) = []) :
            ((x ++ w).takeWhile (Classifier.stock.is .hex)).length = x.length := by
          rw [List.takeWhile_append, if_pos hall, hw, List.append_nil]
        rw [htake hz.takeWhile_hex, List.drop_left, if_neg, List.length_cons]
        · omega
        · intro hspace
          obtain ⟨d, hd, hnot⟩ := hdigits hspace
          rcases List.mem_cons.mp hd with rfl | hd
          · exact absurd hhex (by rw [hnot]; exact Bool.false_ne_true)
          · have htaken : x.takeWhile (Classifier.stock.is .hex) = x :=
              (List.takeWhile_sublist _).eq_of_length hall
            rw [← htaken] at hd
            have := List.all_eq_true.mp List.all_takeWhile d hd
            rw [hnot] at this
            cases this
      · -- The digits end within it, and so does the space behind them.
        have hshort : ((x ++ y).takeWhile (Classifier.stock.is .hex)).length < x.length := by
          rw [List.takeWhile_append, if_neg hall]
          exact Nat.lt_of_le_of_ne (length_takeWhile_le _ x) hall
        rw [takeWhile_again _ z hshort, List.drop_append_of_le_length (Nat.le_of_lt hshort)]
        rw [List.drop_append_of_le_length (Nat.le_of_lt hshort)] at h
        have hne : x.drop ((x ++ y).takeWhile (Classifier.stock.is .hex)).length ≠ [] := by
          rw [Ne, List.drop_eq_nil_iff]
          omega
        obtain ⟨e, rest, he⟩ := List.exists_cons_of_ne_nil hne
        rw [he] at h ⊢
        exact h
  · next hhex =>
      rw [if_neg hhex]
      exact h

/-- Digits behind a backslash are an escape. -/
theorem head?_dropWhile_hex (front : Text) {digits : Text}
    (h : ∀ d ∈ digits, Classifier.stock.is .hex d = true) :
    ((front ++ '\\' :: digits).reverse.dropWhile (Classifier.stock.is .hex)).head? =
      some '\\' := by
  rw [List.reverse_append, List.reverse_cons, List.append_assoc,
    List.dropWhile_append_of_pos fun d hd ↦ h d (List.mem_reverse.mp hd)]
  rfl

theorem escape_at_break {kind : TokenKind} (hz : IsBreak z)
    (hmeets : meets ('\\' :: x) z = true)
    (h : Scan.escape .stock (x ++ y) = .closed kind (x.length + 1)) :
    Scan.escape .stock (x ++ z) = .closed kind (x.length + 1) := by
  simp only [meets, Bool.and_eq_true, Bool.not_eq_true', Bool.and_eq_false_iff,
    beq_eq_false_iff_ne] at hmeets
  obtain ⟨⟨hlast, -⟩, hescape⟩ := hmeets
  unfold Scan.escape at h ⊢
  dsimp only at h ⊢
  have hsplit := List.takeWhile_append_dropWhile (p := (· == '\\')) (l := x)
  generalize hslashes : x.takeWhile (· == '\\') = slashes at hsplit
  have hall : slashes = List.replicate slashes.length '\\' :=
    List.eq_replicate_iff.mpr ⟨rfl, fun d hd ↦ by
      rw [← hslashes] at hd
      exact beq_iff_eq.mp (List.all_eq_true.mp List.all_takeWhile d hd)⟩
  have hback (rest : Text) : '\\' :: (slashes ++ rest) = slashes ++ '\\' :: rest := by
    rw [hall, ← List.cons_append, ← List.replicate_succ, List.replicate_succ', List.append_assoc]
    rfl
  -- The last backslash stands before something else.
  have hrest : x.dropWhile (· == '\\') ≠ [] := by
    intro hnil
    rw [hnil, List.append_nil] at hsplit
    rw [← hsplit, ← List.append_nil slashes, hback, List.getLast?_concat] at hlast
    cases hlast
  have hshort : slashes.length < x.length := by
    have := congrArg List.length hsplit
    have := List.length_pos_iff.mpr hrest
    rw [List.length_append] at *
    omega
  have htake (w : Text) : (x ++ w).takeWhile (· == '\\') = slashes := by
    rw [List.takeWhile_append, hslashes, if_neg (Nat.ne_of_lt hshort)]
  have hdrop (w : Text) : (x ++ w).drop slashes.length = x.dropWhile (· == '\\') ++ w := by
    rw [← hsplit, List.append_assoc, List.drop_left, hsplit]
  rw [htake, hdrop] at h ⊢
  split at h
  · next heven =>
      rw [if_pos heven]
      have hlength : x.length = slashes.length + (x.dropWhile (· == '\\')).length := by
        rw [← List.length_append, hsplit]
      simp only [Extent.closed.injEq] at h
      rw [escapedLength_at_break (y := y) hrest hz _ (by omega), ← h.1]
      · congr 1
        omega
      · intro hspace
        apply Classical.byContradiction
        intro hhex
        simp only [not_exists, not_and, Bool.not_eq_false] at hhex
        refine hescape.elim (fun hnot ↦ hnot ?_) (fun hnot ↦ hnot hspace)
        rw [← hsplit, hback]
        exact head?_dropWhile_hex slashes hhex
  · simp only [Extent.closed.injEq] at h
    omega

theorem length_takeWhile_of_space {kind : TokenKind}
    (h : Scan.space .stock (x ++ y) = .closed kind (x.length + 1)) :
    ((x ++ y).takeWhile (Classifier.stock.is .space)).length = x.length := by
  have := (Extent.closed.inj h).2
  omega

/-- White space is made of blanks. -/
theorem forall_isSpace_of_space {kind : TokenKind} (hspace : Classifier.stock.is .space c = true)
    (h : Scan.space .stock (x ++ y) = .closed kind (x.length + 1)) :
    ∀ d ∈ c :: x, Classifier.stock.is .space d = true := by
  refine List.forall_mem_cons.mpr ⟨hspace, fun d hd ↦ ?_⟩
  have htaken : (x ++ y).takeWhile (Classifier.stock.is .space) = x := by
    have hprefix := List.takeWhile_prefix (Classifier.stock.is .space) (l := x ++ y)
    rw [List.prefix_iff_eq_take, length_takeWhile_of_space h, List.take_left] at hprefix
    exact hprefix
  rw [← htaken] at hd
  exact List.all_eq_true.mp List.all_takeWhile d hd

theorem space_at_break {kind : TokenKind} (hspace : Classifier.stock.is .space c = true)
    (hmeets : meets (c :: x) z = true)
    (h : Scan.space .stock (x ++ y) = .closed kind (x.length + 1)) :
    Scan.space .stock (x ++ z) = .closed kind (x.length + 1) := by
  have hlength := length_takeWhile_of_space h
  have hlast : (c :: x).getLast?.any (Classifier.stock.is .space) = true := by
    rw [List.getLast?_eq_some_getLast (List.cons_ne_nil c x), Option.any_some]
    exact forall_isSpace_of_space hspace h _ (List.getLast_mem _)
  have hnot : z.takeWhile (Classifier.stock.is .space) = [] := by
    cases z with
    | nil => rfl
    | cons d z =>
        rw [List.takeWhile_cons_of_neg]
        intro hd
        simp [meets, hlast, hd] at hmeets
  rw [← h, Scan.space, Scan.space, length_takeWhile_at_break hnot hlength, hlength]

theorem atWord_at_break {kind : TokenKind} (hz : IsBreak z)
    (h : Scan.atWord .stock (x ++ y) = .closed kind (x.length + 1)) :
    Scan.atWord .stock (x ++ z) = .closed kind (x.length + 1) := by
  have hlength : ((x ++ y).takeWhile fun d ↦ !Classifier.stock.is .atEnd d).length =
      x.length := by
    have := (Extent.closed.inj h).2
    omega
  have hnot : z.takeWhile (fun d ↦ !Classifier.stock.is .atEnd d) = [] :=
    hz.takeWhile_eq_nil (forall_isSpace rfl) rfl rfl rfl
  rw [← h, Scan.atWord, Scan.atWord, length_takeWhile_at_break hnot hlength, hlength]

theorem word_at_break {kind : TokenKind} (hz : IsBreak z)
    (h : Scan.word .stock (x ++ y) = .closed kind (x.length + 1)) :
    Scan.word .stock (x ++ z) = .closed kind (x.length + 1) := by
  have hlength : wordLength .stock (x ++ y) = x.length := by
    have := (Extent.closed.inj h).2
    omega
  rw [← h, Scan.word, Scan.word, wordLength_at_break hz hlength, hlength]

/-- `RunsOn kind` says that a token of this kind is ended by what follows it. -/
def RunsOn (kind : TokenKind) : Prop :=
  kind = .space ∨ kind = .word ∨ kind = .atWord

instance (kind : TokenKind) : Decidable (RunsOn kind) :=
  inferInstanceAs (Decidable (_ ∨ _ ∨ _))

/-- A token that its text does not settle is one that runs on. -/
theorem runsOn_of_not_settles {kind : TokenKind} (hkind : kind ≠ .leftParen)
    (h : ¬Settles kind (x.length + 1) x) : RunsOn kind := by
  unfold Settles at h
  split at h
  · exact absurd rfl hkind
  · exact .inl rfl
  · exact .inr (.inl rfl)
  · exact .inr (.inr rfl)
  · exact absurd (Nat.le_refl _) h

theorem not_runsOn_of_openParen {kind : TokenKind}
    (h : Scan.openParen t before x = .closed kind n) : ¬RunsOn kind := by
  unfold Scan.openParen Scan.url Scan.group at h
  dsimp only at h
  split at h <;> split at h <;> cases h <;> decide

theorem not_runsOn_of_string {kind : TokenKind} (h : Scan.string c x = .closed kind n) :
    ¬RunsOn kind := by
  unfold Scan.string at h
  split at h <;> cases h
  decide

theorem not_runsOn_of_comment {kind : TokenKind} (h : Scan.comment x = .closed kind n) :
    ¬RunsOn kind := by
  unfold Scan.comment at h
  split at h <;> cases h
  decide

/-- A token is scanned again before a break that it does not run into, whatever the last word is,
but for the word `url`. -/
theorem scan_at_break {kind : TokenKind} (hz : IsBreak z)
    (hmeets : meets (c :: x) z = true) (hkind : kind ≠ .leftParen)
    (hword : (again == some "url".toList) = (before == some "url".toList))
    (h : scan .stock before c (x ++ y) = .closed kind (x.length + 1)) :
    scan .stock again c (x ++ z) = .closed kind (x.length + 1) := by
  by_cases hsettles : Settles kind (x.length + 1) x
  · exact scan_again z hword h hsettles
  have hruns := runsOn_of_not_settles hkind hsettles
  -- The branches of `scan` are taken again, as all but one look at the first character alone.
  unfold scan at h ⊢
  split at h
  · next hspace =>
      rw [if_pos hspace]
      exact space_at_break hspace hmeets h
  next hspace =>
  rw [if_neg hspace]
  cases hsingle : single? c with
  | some single =>
      rw [hsingle] at h
      exact h
  | none =>
      rw [hsingle] at h
      dsimp only at h ⊢
      split at h
      · exact absurd hruns (not_runsOn_of_openParen h)
      next hparen =>
      rw [if_neg hparen]
      split at h
      · exact absurd hruns (not_runsOn_of_string h)
      next hquote =>
      rw [if_neg hquote]
      split at h
      · next hat =>
          rw [if_pos hat]
          exact atWord_at_break hz h
      next hat =>
      rw [if_neg hat]
      split at h
      · next hslash =>
          rw [if_pos hslash]
          exact escape_at_break hz (hslash ▸ hmeets) h
      next hslash =>
      rw [if_neg hslash]
      split at h
      · exact absurd hruns (not_runsOn_of_comment h)
      next hcomment =>
      have hcomment' : ¬(c = '/' ∧ (x ++ z).head? = some '*') := by
        rintro ⟨hc, hstar⟩
        cases x with
        | nil => exact hz.head?_ne_star hstar
        | cons d x => exact hcomment ⟨hc, hstar⟩
      rw [if_neg hcomment']
      exact word_at_break hz h

/-- The end of a text decides on what it runs into. -/
theorem meets_of_append {front : Text} (hx : x ≠ []) (h : meets (front ++ x) z = true) :
    meets x z = true := by
  have hlast : (front ++ x).getLast? = x.getLast? := by
    rw [List.getLast?_append]
    cases hx' : x.getLast? with
    | none => exact absurd (List.getLast?_eq_none_iff.mp hx') hx
    | some d => rfl
  unfold meets at h ⊢
  rw [hlast, List.reverse_append, List.dropWhile_append] at h
  split at h
  · next hhex =>
      rw [List.isEmpty_iff.mp hhex]
      simp only [Bool.and_eq_true] at h ⊢
      exact ⟨h.1, rfl⟩
  · next hhex =>
      rw [List.head?_append] at h
      cases hdrop : x.reverse.dropWhile (Classifier.stock.is .hex) with
      | nil => exact absurd (List.isEmpty_iff.mpr hdrop) hhex
      | cons d rest =>
          rw [hdrop] at h
          exact h

end Break

end Scan

end Stylesheet
