import Mathlib.Algebra.Ring.Parity
import Mathlib.Data.Bool.AllAny
import Mathlib.Data.List.DropRight
import Stylesheet.Proofs.Reread
import Stylesheet.Proofs.Runs
import Stylesheet.Proofs.Scanners

/-!
# How far tokens reach

`Lexeme behind kind text` is a grammar of tokens: it says which texts a token of some kind can
have if `behind` is what follows. Nothing is searched for in it. A run of characters is said to be
longest by the character behind it, a string or a comment by what its text does not have inside.

The extent of a token is exact: of two texts of a kind that start in the same place none is longer
(`Lexeme.unique`). `Token.lexeme_of_mem_run` says that all tokens of a strict run are in the
grammar, each with what follows it in the source.
-/

namespace Stylesheet

namespace Text

/-- `IsRun p run behind` says that `run` has only characters with `p`, and that `behind` does not
start with one. -/
structure IsRun (p : Char → Prop) (run behind : Text) : Prop where
  all : ∀ c ∈ run, p c
  stops : ∀ c, behind.head? = some c → ¬p c

/-- `Avoids mark text behind` says that no `mark` starts within `text`, not even one that ends in
`behind`. -/
def Avoids (mark text behind : Text) : Prop :=
  ∀ front back, text ++ behind = front ++ (mark ++ back) → text.length ≤ front.length

/-- `slashesAtEnd text` is the number of backslashes that a text ends with. -/
def slashesAtEnd (text : Text) : Nat :=
  (text.rtakeWhile (· == '\\')).length

/-- `Encloses terminator inner` says that a terminator behind `inner` is the first one behind an
even number of backslashes. -/
structure Encloses (terminator : Char) (inner : Text) : Prop where
  even : Even inner.slashesAtEnd
  odd : ∀ front back : Text, inner = front ++ terminator :: back → Odd front.slashesAtEnd

/-- `Escaped behind text` says that a backslash before `text` escapes it: one character,
hexadecimal digits up to the last one with a space behind them, or nothing before a slash or white
space. -/
inductive Escaped (behind : Text) : Text → Prop where
  | nothing (h : ∀ c, behind.head? = some c → c ∈ "/ \n\t\r\x0c".toList) : Escaped behind []
  | character {c} (hstop : c ∉ "/ \n\t\r\x0c".toList) (hhex : c ∉ CharClass.hex.stockMembers) :
      Escaped behind [c]
  | digits {run} (hne : run ≠ []) (hrun : IsRun (· ∈ CharClass.hex.stockMembers) run behind)
      (hspace : behind.head? ≠ some ' ') : Escaped behind run
  | spaced {run} (hne : run ≠ []) (hall : ∀ c ∈ run, c ∈ CharClass.hex.stockMembers) :
      Escaped behind (run ++ [' '])

end Text

/-- `kind.sign?` is the character that a token of this kind is on its own. -/
def TokenKind.sign? : TokenKind → Option Char
  | .leftParen => some '('
  | .rightParen => some ')'
  | .leftBracket => some '['
  | .rightBracket => some ']'
  | .leftBrace => some '\x7b'
  | .rightBrace => some '\x7d'
  | .colon => some ':'
  | .semicolon => some ';'
  | _ => none

open Text

/-- `Lexeme behind kind text` says that `text` can be a token of a plain stylesheet, of this kind,
if `behind` follows. White space and the name of an at-keyword are longest runs, strings, comments
and groups reach to their first end, and a word to the first character that ends one or to a
comment. Of a run of backslashes the last one escapes what follows if their number is odd. -/
inductive Lexeme (behind : Text) : TokenKind → Text → Prop where
  | space {run} (hne : run ≠ []) (hrun : IsRun (· ∈ " \t\n\r\x0c".toList) run behind) :
      Lexeme behind .space run
  | sign {kind c} (h : kind.sign? = some c) : Lexeme behind kind [c]
  | brackets {inner} (h : Encloses ')' inner) : Lexeme behind .brackets ('(' :: (inner ++ [')']))
  | string {quote inner} (hquote : quote = '"' ∨ quote = '\'') (h : Encloses quote inner) :
      Lexeme behind .string (quote :: (inner ++ [quote]))
  | comment {inner} (h : Avoids "*/".toList inner ("*/".toList ++ behind)) :
      Lexeme behind .comment ("/*".toList ++ (inner ++ "*/".toList))
  | atWord {name} (hrun : IsRun (· ∉ CharClass.atEnd.stockMembers) name behind) :
      Lexeme behind .atWord ('@' :: name)
  | word {c more} (hfirst : c = '!' ∨ c = '#' ∨ c ∉ CharClass.wordEnd.stockMembers)
      (hmore : ∀ d ∈ more, d ∉ CharClass.wordEnd.stockMembers)
      (hcomment : Avoids "/*".toList (c :: more) behind)
      (hstop : ∀ d, behind.head? = some d →
        d ∈ CharClass.wordEnd.stockMembers ∨ "/*".toList <+: behind) :
      Lexeme behind .word (c :: more)
  | escape {n escaped} (hstop : (escaped ++ behind).head? ≠ some '\\')
      (heven : Even (n + 1) → escaped = [])
      (hodd : Odd (n + 1) → Escaped behind escaped) : Lexeme behind .word
        (List.replicate (n + 1) '\\' ++ escaped)

/-! ## Searching by character -/

namespace Text

variable {mark text run inner behind : Text} {c terminator : Char}

theorem avoids_nil (mark behind : Text) : Avoids mark [] behind :=
  fun _ _ _ ↦ Nat.zero_le _

theorem avoids_cons : Avoids mark (c :: text) behind ↔
    ¬mark <+: c :: (text ++ behind) ∧ Avoids mark text behind := by
  refine ⟨fun h ↦ ⟨fun ⟨back, hback⟩ ↦ ?_, fun front back hsplit ↦ ?_⟩,
    fun ⟨hhead, htail⟩ front back hsplit ↦ ?_⟩
  · have hlength := h [] back hback.symm
    rw [List.length_cons] at hlength
    exact Nat.not_succ_le_zero _ hlength
  · exact Nat.le_of_succ_le_succ (h (c :: front) back (congrArg (c :: ·) hsplit))
  · cases front with
    | nil => exact absurd ⟨back, hsplit.symm⟩ hhead
    | cons d front => exact Nat.succ_le_succ (htail front back (List.cons.inj hsplit).2)

/-- A text that avoids a mark does not have it inside. -/
theorem Avoids.not_infix (h : Avoids mark text behind) (hne : mark ≠ []) : ¬mark <:+: text := by
  rintro ⟨front, back, rfl⟩
  have hlength := h front (back ++ behind) (by simp only [List.append_assoc])
  have hpos := List.length_pos_iff.mpr hne
  simp only [List.length_append] at hlength
  omega

/-- The longest run at the start of a text is what is taken as long as `p` holds. -/
theorem isRun_iff {p : Char → Bool} : IsRun (p · = true) run behind ↔
    (run ++ behind).takeWhile p = run := by
  constructor
  · intro h
    rw [List.takeWhile_append_of_pos h.all, List.append_right_eq_self]
    cases behind with
    | nil => rfl
    | cons c rest => exact List.takeWhile_cons_of_neg (h.stops c rfl)
  · intro h
    have hall : ∀ c ∈ run, p c = true := by
      rw [← h]
      exact fun c hc ↦ List.mem_takeWhile_imp hc
    refine ⟨hall, fun c hc hp ↦ ?_⟩
    obtain ⟨rest, rfl⟩ := List.head?_eq_some_iff.mp hc
    rw [List.takeWhile_append_of_pos hall, List.takeWhile_cons_of_pos hp,
      List.append_right_eq_self] at h
    cases h

theorem isRun_of_length {p : Char → Bool}
    (h : ((run ++ behind).takeWhile p).length = run.length) : IsRun (p · = true) run behind :=
  isRun_iff.mpr
    ((List.prefix_of_prefix_length_le (List.takeWhile_prefix p) (List.prefix_append run behind)
    (Nat.le_of_eq h)).eq_of_length h)

/-- A text is a longest run and what follows it. -/
theorem exists_isRun (p : Char → Bool) (text : Text) :
    ∃ run behind, text = run ++ behind ∧ IsRun (p · = true) run behind := by
  have hsplit : text.takeWhile p ++ text.dropWhile p = text := List.takeWhile_append_dropWhile
  exact ⟨_, _, hsplit.symm, isRun_of_length (by rw [hsplit])⟩

theorem IsRun.imp {p q : Char → Prop} (h : IsRun p run behind) (hiff : ∀ c, p c ↔ q c) :
    IsRun q run behind :=
  ⟨fun c hc ↦ (hiff c).mp (h.all c hc), fun c hc hq ↦ h.stops c hc ((hiff c).mpr hq)⟩

theorem pair_prefix_iff {a b : Char} : [a, b] <+: c :: text ↔ c = a ∧ text.head? = some b := by
  rw [List.cons_prefix_cons, List.head?_eq_some_iff, eq_comm]
  refine and_congr_right fun _ ↦ ⟨fun ⟨rest, hrest⟩ ↦ ⟨rest, hrest.symm⟩,
    fun ⟨rest, hrest⟩ ↦ ⟨rest, hrest.symm⟩⟩

theorem eq_concat_of_length {more rest : Text} (h : more ++ behind = inner ++ c :: rest)
    (hlength : more.length = inner.length + 1) : more = inner ++ [c] := by
  rw [← List.singleton_append, ← List.append_assoc] at h
  exact (List.append_inj h (by rw [hlength, List.length_append, List.length_singleton])).1

theorem endsEscaped_reverse (text : Text) :
    Scan.endsEscaped text.reverse = true ↔ Odd text.slashesAtEnd := by
  rw [Nat.odd_iff, slashesAtEnd, List.rtakeWhile, List.length_reverse,
    Scan.endsEscaped, beq_iff_eq]

/-- The search for a terminator passes those that are escaped, and stops behind an even number of
backslashes. -/
theorem endsEscaped_of_findUnescapedFrom (passed : Text) {more : Text}
    (h : Scan.findUnescapedFrom passed.reverse terminator (inner ++ terminator :: more) =
      some (passed.length + inner.length)) :
    Scan.endsEscaped (passed ++ inner).reverse = false ∧
      ∀ front back, inner = front ++ terminator :: back →
        Scan.endsEscaped (passed ++ front).reverse = true := by
  induction inner generalizing passed with
  | nil =>
      rw [List.append_nil]
      refine ⟨?_, fun front back hnil ↦ by simp at hnil⟩
      rw [List.nil_append, Scan.findUnescapedFrom] at h
      split at h
      · next hends => exact hends.2
      · -- A later terminator would be further away.
        have hle := Scan.le_findUnescapedFrom h
        simp only [List.length_cons, List.length_reverse, List.length_nil] at hle
        omega
  | cons c inner ih =>
      rw [List.cons_append, Scan.findUnescapedFrom] at h
      split at h
      · simp only [List.length_reverse, List.length_cons, Option.some.injEq] at h
        omega
      · next hpassed =>
          have hreverse : c :: passed.reverse = (passed ++ [c]).reverse := by simp
          have hlength : passed.length + (c :: inner).length =
              (passed ++ [c]).length + inner.length := by
            simp only [List.length_cons, List.length_append, List.length_nil]
            omega
          rw [hreverse, hlength] at h
          obtain ⟨hends, hinner⟩ := ih _ h
          rw [List.append_assoc, List.singleton_append] at hends
          refine ⟨hends, fun front back hsplit ↦ ?_⟩
          cases front with
          | nil =>
              obtain ⟨rfl, -⟩ := List.cons.inj hsplit
              rw [List.append_nil]
              exact eq_true_of_ne_false fun hfalse ↦ hpassed ⟨rfl, hfalse⟩
          | cons d front =>
              obtain ⟨rfl, hmore⟩ := List.cons.inj hsplit
              have hfront := hinner front back hmore
              rwa [List.append_assoc, List.singleton_append] at hfront

theorem encloses_of_findUnescaped {more : Text} {n : Nat}
    (h : Scan.findUnescaped terminator (more ++ behind) = some n)
    (hlength : more.length = n + 1) : ∃ inner, more = inner ++ [terminator] ∧
      Encloses terminator inner := by
  obtain ⟨inner, rest, hsplit, hn⟩ := Cursor.exists_findUnescapedFrom h
  rw [List.length_nil, Nat.zero_add] at hn
  subst hn
  refine ⟨inner, eq_concat_of_length hsplit hlength, ?_⟩
  rw [hsplit, ← Nat.zero_add inner.length] at h
  obtain ⟨hends, hinner⟩ := endsEscaped_of_findUnescapedFrom [] h
  refine ⟨?_, fun front back hfront ↦ (endsEscaped_reverse front).mp (hinner front back hfront)⟩
  rw [← Nat.not_odd_iff_even, ← endsEscaped_reverse]
  exact ne_true_of_eq_false hends

/-- Without backslashes the first terminator is the first one that is not escaped. -/
theorem encloses_of_not_mem (hterminator : terminator ∉ inner) (hslash : '\\' ∉ inner) :
    Encloses terminator inner := by
  have hnil : inner.rtakeWhile (· == '\\') = [] := by
    refine List.eq_nil_iff_forall_not_mem.mpr fun c hc ↦ hslash ?_
    rw [← beq_iff_eq.mp (List.mem_rtakeWhile_imp (p := (· == '\\')) hc)]
    exact (List.rtakeWhile_suffix _ inner).mem hc
  refine ⟨?_, fun front back hsplit ↦ absurd ?_ hterminator⟩
  · rw [slashesAtEnd, hnil]
    exact Even.zero
  · rw [hsplit]
    exact List.mem_append_right front List.mem_cons_self

/-- The end of a comment is its first one. -/
theorem avoids_of_commentEnd {n : Nat} (h : Scan.commentEnd text = some n) :
    ∃ inner rest, text = inner ++ ("*/".toList ++ rest) ∧ n = inner.length + 2 ∧
      Avoids "*/".toList inner ("*/".toList ++ rest) := by
  induction text using Scan.commentEnd.induct generalizing n with
  | case1 text =>
      cases h
      exact ⟨[], text, rfl, rfl, avoids_nil _ _⟩
  | case2 c text hne ih =>
      rw [Scan.commentEnd.eq_2 c text hne] at h
      obtain ⟨m, hm, rfl⟩ := Option.map_eq_some_iff.mp h
      obtain ⟨inner, rest, rfl, rfl, havoids⟩ := ih hm
      refine ⟨c :: inner, rest, rfl, Nat.add_right_comm _ _ _,
        avoids_cons.mpr ⟨fun hstart ↦ ?_, havoids⟩⟩
      obtain ⟨rfl, hhead⟩ := pair_prefix_iff.mp hstart
      obtain ⟨more, hmore⟩ := List.head?_eq_some_iff.mp hhead
      exact hne more rfl hmore
  | case3 => cases h

/-- What a word takes ends nowhere before its end, and there it does. -/
theorem ends_of_wordLength {t : Classifier} (h : Scan.wordLength t (run ++ behind) = run.length) :
    (∀ d ∈ run, t.is .wordEnd d = false) ∧ Avoids "/*".toList run behind ∧
      ∀ d, behind.head? = some d → t.is .wordEnd d = true ∨ "/*".toList <+: behind := by
  induction run with
  | nil =>
      refine ⟨List.forall_mem_nil _, avoids_nil _ _, fun d hd ↦ ?_⟩
      obtain ⟨rest, rfl⟩ := List.head?_eq_some_iff.mp hd
      rw [List.nil_append, Scan.wordLength] at h
      split at h
      · next hends =>
          rw [Bool.or_eq_true, Bool.and_eq_true, beq_iff_eq, beq_iff_eq] at hends
          exact hends.imp_right pair_prefix_iff.mpr
      · cases h
  | cons c run ih =>
      rw [List.cons_append, Scan.wordLength] at h
      split at h
      · cases h
      · next hgoes =>
          rw [Bool.or_eq_true, Bool.and_eq_true, beq_iff_eq, beq_iff_eq, not_or,
            Bool.not_eq_true] at hgoes
          obtain ⟨hall, havoids, hstop⟩ := ih (Nat.succ.inj h)
          exact ⟨List.forall_mem_cons.mpr ⟨hgoes.1, hall⟩,
            avoids_cons.mpr ⟨mt pair_prefix_iff.mp hgoes.2, havoids⟩, hstop⟩

end Text

/-! ## Scanners are in the grammar -/

namespace Scan

variable {c : Char} {more behind : Text} {kind : TokenKind}

theorem lexeme_of_space (hc : Classifier.stock.is .space c = true)
    (h : Scan.space .stock (more ++ behind) = .closed kind (more.length + 1)) :
    Lexeme behind kind (c :: more) := by
  have hrun := (isRun_of_length (length_takeWhile_of_space h)).imp fun _ ↦ Classifier.stock_is_iff
  obtain ⟨rfl, -⟩ := Extent.closed.inj h
  exact .space (List.cons_ne_nil c more)
    ⟨List.forall_mem_cons.mpr ⟨Classifier.stock_is_iff.mp hc, hrun.all⟩, hrun.stops⟩

theorem lexeme_of_single {sign : TokenKind} (hc : single? c = some sign)
    (h : Extent.closed sign 1 = .closed kind (more.length + 1)) :
    Lexeme behind kind (c :: more) := by
  obtain ⟨rfl, hlength⟩ := Extent.closed.inj h
  obtain rfl : more = [] := List.length_eq_zero_iff.mp (Nat.succ.inj hlength).symm
  refine .sign ?_
  unfold single? at hc
  split at hc <;> cases hc <;> rfl

theorem lexeme_of_url (h : url (more ++ behind) = .closed kind (more.length + 1)) :
    Lexeme behind kind ('(' :: more) := by
  unfold url at h
  split at h
  · next n hn =>
      obtain ⟨rfl, hlength⟩ := Extent.closed.inj h
      obtain ⟨inner, rfl, hinner⟩ := encloses_of_findUnescaped hn (Nat.succ.inj hlength).symm
      exact .brackets hinner
  · cases h

theorem lexeme_of_group (h : group .stock (more ++ behind) = .closed kind (more.length + 1)) :
    Lexeme behind kind ('(' :: more) := by
  simp only [group] at h
  split at h
  · obtain ⟨rfl, hlength⟩ := Extent.closed.inj h
    obtain rfl : more = [] := List.length_eq_zero_iff.mp (Nat.succ.inj hlength).symm
    exact .sign rfl
  · next hgood =>
      simp only [Bool.or_eq_true, decide_eq_true_eq, not_or, List.any_eq_true,
        not_exists, not_and, Bool.not_eq_true] at hgood
      obtain ⟨hshort, hgood⟩ := hgood
      obtain ⟨rfl, hlength⟩ := Extent.closed.inj h
      -- Without a closing parenthesis the opening one would stand alone.
      have hmem : ')' ∈ more ++ behind := by
        refine Classical.byContradiction fun hmem ↦ hshort (congrArg List.length ?_)
        exact List.takeWhile_eq_self_iff.mpr
          fun d hd ↦ bne_iff_ne.mpr (ne_of_mem_of_not_mem hd hmem)
      obtain ⟨inner, rest, hsplit, hinner⟩ := List.eq_append_cons_of_mem hmem
      rw [hsplit, Cursor.takeWhile_ne hinner] at hgood hlength
      rw [eq_concat_of_length hsplit (Nat.succ.inj hlength).symm]
      refine .brackets (encloses_of_not_mem hinner fun hslash ↦ ?_)
      exact absurd (hgood '\\' hslash) (by decide)

theorem lexeme_of_string (hc : c = '"' ∨ c = '\'')
    (h : Scan.string c (more ++ behind) = .closed kind (more.length + 1)) :
    Lexeme behind kind (c :: more) := by
  unfold Scan.string at h
  split at h
  · next n hn =>
      obtain ⟨rfl, hlength⟩ := Extent.closed.inj h
      obtain ⟨inner, rfl, hinner⟩ := encloses_of_findUnescaped hn (Nat.succ.inj hlength).symm
      exact .string hc hinner
  · cases h

theorem lexeme_of_atWord
    (h : Scan.atWord .stock (more ++ behind) = .closed kind (more.length + 1)) :
    Lexeme behind kind ('@' :: more) := by
  obtain ⟨rfl, hlength⟩ := Extent.closed.inj h
  have hrun := isRun_of_length (Nat.add_left_cancel (hlength.trans (Nat.add_comm _ _)))
  exact .atWord
    (hrun.imp fun d ↦ by rw [Bool.not_eq_true', ← Bool.not_eq_true, Classifier.stock_is_iff])

theorem lexeme_of_comment (hstar : (more ++ behind).head? = some '*')
    (h : Scan.comment (more ++ behind) = .closed kind (more.length + 1)) :
    Lexeme behind kind ('/' :: more) := by
  unfold Scan.comment at h
  split at h
  · next n hn =>
      obtain ⟨rfl, hlength⟩ := Extent.closed.inj h
      obtain ⟨inner, rest, hinner, rfl, havoids⟩ := avoids_of_commentEnd hn
      cases more with
      | nil => cases hlength
      | cons star more =>
          obtain rfl : star = '*' := Option.some.inj hstar
          have hlength : more.length = inner.length + 2 :=
            (Nat.succ.inj (Nat.succ.inj hlength)).symm
          have hsplit : more ++ behind = (inner ++ "*/".toList) ++ rest := by
            rw [List.append_assoc]
            exact hinner
          obtain ⟨rfl, rfl⟩ := List.append_inj hsplit (by rw [hlength, List.length_append]; rfl)
          exact .comment havoids
  · cases h

theorem lexeme_of_word (hc : c = '!' ∨ c = '#' ∨ c ∉ CharClass.wordEnd.stockMembers)
    (hcomment : ¬(c = '/' ∧ (more ++ behind).head? = some '*'))
    (h : Scan.word .stock (more ++ behind) = .closed kind (more.length + 1)) :
    Lexeme behind kind (c :: more) := by
  obtain ⟨rfl, hlength⟩ := Extent.closed.inj h
  obtain ⟨hall, havoids, hstop⟩ :=
    ends_of_wordLength (Nat.add_left_cancel (hlength.trans (Nat.add_comm _ _)))
  refine .word hc (fun d hd ↦ ?_) (avoids_cons.mpr ⟨mt pair_prefix_iff.mp hcomment, havoids⟩)
    fun d hd ↦ ?_
  · rw [← Classifier.stock_is_iff, Bool.not_eq_true]
    exact hall d hd
  · exact (hstop d hd).imp_left Classifier.stock_is_iff.mp

/-- A backslash escapes all hexadecimal digits behind it, and a space behind the last one. -/
theorem escapedLength_digits {digits : Text} (hne : digits ≠ [])
    (hrun : IsRun (· ∈ CharClass.hex.stockMembers) digits behind) :
    escapedLength .stock (digits ++ behind) = digits.length + if behind.head? =
      some ' ' then 1 else 0 := by
  have hstops : ∀ d ∈ CharClass.hex.stockMembers, escapeStops.contains d = false :=
    List.all_iff_forall_prop.mp (by decide)
  obtain ⟨c, more, rfl⟩ := List.exists_cons_of_ne_nil hne
  obtain ⟨hc, hmore⟩ := List.forall_mem_cons.mp hrun.all
  have htake : (more ++ behind).takeWhile (Classifier.stock.is .hex) = more :=
    isRun_iff.mp (IsRun.imp ⟨hmore, hrun.stops⟩ fun _ ↦ Classifier.stock_is_iff.symm)
  rw [List.cons_append, escapedLength, hstops c hc, if_neg Bool.false_ne_true,
    if_pos (Classifier.stock_is_iff.mpr hc), htake]
  dsimp only
  rw [List.drop_left, List.length_cons, Nat.add_comm 1]

/-- A backslash escapes as much as the scanner computes. -/
theorem escaped_of_escapedLength (h : escapedLength .stock (more ++ behind) = more.length) :
    Escaped behind more := by
  have hstops {d : Char} : escapeStops.contains d = true ↔ d ∈ "/ \n\t\r\x0c".toList :=
    List.contains_iff_mem
  cases more with
  | nil =>
      refine .nothing fun d hd ↦ hstops.mp ?_
      obtain ⟨rest, rfl⟩ := List.head?_eq_some_iff.mp hd
      simp only [List.nil_append, escapedLength, List.length_nil] at h
      split at h
      · assumption
      · split at h <;> omega
  | cons c more =>
      by_cases hhex : c ∈ CharClass.hex.stockMembers
      · obtain ⟨run, rest, hsplit, hrun⟩ :=
          exists_isRun (Classifier.stock.is .hex) (more ++ behind)
        have hrun := hrun.imp fun _ ↦ Classifier.stock_is_iff
        have hdigits : IsRun (· ∈ CharClass.hex.stockMembers) (c :: run) rest :=
          ⟨List.forall_mem_cons.mpr ⟨hhex, hrun.all⟩, hrun.stops⟩
        rw [List.cons_append, hsplit, ← List.cons_append,
          escapedLength_digits (List.cons_ne_nil c run) hdigits,
          List.length_cons, List.length_cons] at h
        split at h
        · next hspace =>
            obtain ⟨tail, rfl⟩ := List.head?_eq_some_iff.mp hspace
            rw [eq_concat_of_length hsplit (by omega)]
            exact .spaced (List.cons_ne_nil c run) hdigits.all
        · next hspace =>
            obtain ⟨rfl, rfl⟩ := List.append_inj hsplit (by omega)
            exact .digits (List.cons_ne_nil c more) hdigits hspace
      · rw [List.cons_append, escapedLength, if_neg (mt Classifier.stock_is_iff.mp hhex)] at h
        split at h
        · cases h
        · next hstop =>
            obtain rfl : more = [] := List.length_eq_zero_iff.mp (Nat.succ.inj h).symm
            exact .character (mt hstops.mpr hstop) hhex

/-- What is escaped has the length that the scanner computes. -/
theorem escapedLength_of_escaped (h : Escaped behind more) :
    escapedLength .stock (more ++ behind) = more.length := by
  have hstops {d : Char} : escapeStops.contains d = true ↔ d ∈ "/ \n\t\r\x0c".toList :=
    List.contains_iff_mem
  cases h with
  | nothing h =>
      cases behind with
      | nil => rfl
      | cons d rest =>
          rw [List.nil_append, escapedLength, hstops.mpr (h d rfl), if_pos rfl, List.length_nil]
  | character hstop hhex =>
      rw [List.cons_append, escapedLength, if_neg (mt hstops.mp hstop),
        if_neg (mt Classifier.stock_is_iff.mp hhex)]
      rfl
  | digits hne hrun hspace => rw [escapedLength_digits hne hrun, if_neg hspace, Nat.add_zero]
  | spaced hne hall =>
      have hspace : ∀ d, (' ' :: behind).head? = some d → d ∉ CharClass.hex.stockMembers := by
        rintro d hd hmem
        cases hd
        exact absurd hmem (by decide)
      rw [List.append_assoc, List.singleton_append, escapedLength_digits hne ⟨hall, hspace⟩,
        List.head?_cons, if_pos rfl, List.length_append, List.length_singleton]

theorem lexeme_of_escape
    (h : Scan.escape .stock (more ++ behind) = .closed kind (more.length + 1)) :
    Lexeme behind kind ('\\' :: more) := by
  obtain ⟨n, rest, hslashes, hsplit, hrest⟩ := Cursor.exists_slashes (more ++ behind)
  simp only [Scan.escape, hslashes, List.length_replicate] at h
  rw [hsplit, List.drop_left' List.length_replicate] at h
  split at h
  · next heven =>
      obtain ⟨rfl, hlength⟩ := Extent.closed.inj h
      have hstart : List.replicate n '\\' <+: more :=
        List.prefix_of_prefix_length_le ⟨rest, hsplit.symm⟩ (List.prefix_append more behind)
          (by rw [List.length_replicate]; omega)
      obtain ⟨escaped, rfl⟩ := hstart
      obtain rfl : escaped ++ behind = rest :=
        List.append_cancel_left ((List.append_assoc ..).symm.trans hsplit)
      rw [List.length_append, List.length_replicate] at hlength
      have hescaped : Escaped behind escaped := escaped_of_escapedLength (by omega)
      have hodd : Odd (n + 1) := (Nat.even_iff.mpr heven).add_one
      exact .escape hrest (fun heven ↦ absurd hodd (Nat.not_odd_iff_even.mpr heven))
        fun _ ↦ hescaped
  · next hodd =>
      obtain ⟨rfl, hlength⟩ := Extent.closed.inj h
      obtain ⟨rfl, rfl⟩ := List.append_inj hsplit (by rw [List.length_replicate]; omega)
      -- The first backslash is not among those that are counted, so the parity is the other one.
      have heven : Even (n + 1) := (Nat.odd_iff.mpr (Nat.mod_two_ne_zero.mp hodd)).add_one
      rw [← List.replicate_succ, ← List.append_nil (List.replicate _ _)]
      exact .escape hrest (fun _ ↦ rfl) fun hodd ↦ absurd heven (Nat.not_even_iff_odd.mpr hodd)

/-- What a word can start with if no other token does. -/
theorem first_of_word (hspace : Classifier.stock.is .space c = false) (hsingle : single? c = none)
    (hchars : c ≠ '(' ∧ c ≠ '"' ∧ c ≠ '\'' ∧ c ≠ '@' ∧ c ≠ '\\') :
    c = '!' ∨ c = '#' ∨ c ∉ CharClass.wordEnd.stockMembers := by
  have hends : ∀ d ∈ CharClass.wordEnd.stockMembers, d = '!' ∨ d = '#' ∨
      Classifier.stock.is .space d = true ∨ single? d ≠ none ∨ d = '(' ∨ d = '"' ∨ d = '\'' ∨
      d = '@' ∨ d = '\\' :=
    List.all_iff_forall_prop.mp (by decide)
  by_cases hmem : c ∈ CharClass.wordEnd.stockMembers
  · rcases hends c hmem with h | h | h | h | h
    · exact .inl h
    · exact .inr (.inl h)
    · rw [hspace] at h
      cases h
    · exact absurd hsingle h
    · obtain ⟨hparen, hquote, happ, hat, hslash⟩ := hchars
      simp only [hparen, hquote, happ, hat, hslash, or_self] at h
  · exact .inr (.inr hmem)

/-- What a scanner takes is in the grammar. -/
theorem lexeme_of_scan {before : Option Text}
    (h : scan .stock before c (more ++ behind) = .closed kind (more.length + 1)) :
    Lexeme behind kind (c :: more) := by
  have hdispatch := scan_dispatch .stock before c (more ++ behind)
  rw [h] at hdispatch
  generalize hextent : Extent.closed kind (more.length + 1) = extent at hdispatch
  cases hdispatch with
  | space hspace => exact lexeme_of_space hspace hextent.symm
  | single _ hsingle => exact lexeme_of_single hsingle hextent.symm
  | openParen _ hc =>
      subst hc
      unfold openParen at hextent
      split at hextent
      · exact lexeme_of_url hextent.symm
      · exact lexeme_of_group hextent.symm
  | string _ hc => exact lexeme_of_string hc hextent.symm
  | atWord _ hc =>
      subst hc
      exact lexeme_of_atWord hextent.symm
  | escape _ hc =>
      subst hc
      exact lexeme_of_escape hextent.symm
  | comment _ hc hstar =>
      subst hc
      exact lexeme_of_comment hstar hextent.symm
  | word hspace hsingle hchars hcomment =>
      exact lexeme_of_word (first_of_word hspace hsingle hchars) hcomment hextent.symm

end Scan

/-! ## Extents are exact -/

namespace Text

variable {p : Char → Prop} {mark run run' inner inner' behind behind' : Text} {terminator : Char}

/-- Of two texts at the same place that are no longer than each other there is only one. -/
theorem eq_of_length_le (hsame : run ++ behind = run' ++ behind') (hle : run.length ≤ run'.length)
    (hge : run'.length ≤ run.length) : run = run' :=
  (List.append_inj hsame (Nat.le_antisymm hle hge)).1

/-- The longer one of two texts at the same place goes on with what is behind the other. -/
theorem exists_of_length_lt (hsame : run ++ behind = run' ++ behind')
    (hlt : run.length < run'.length) :
    ∃ c more, run' = run ++ c :: more ∧ behind = c :: (more ++ behind') := by
  obtain ⟨more, rfl⟩ : run <+: run' :=
    List.prefix_of_prefix_length_le ⟨behind, hsame⟩ (List.prefix_append run' behind')
      (Nat.le_of_lt hlt)
  cases more with
  | nil =>
      rw [List.append_nil] at hlt
      exact absurd hlt (Nat.lt_irrefl _)
  | cons c more =>
      rw [List.append_assoc] at hsame
      exact ⟨c, more, rfl, List.append_cancel_left hsame⟩

theorem IsRun.length_le (h : IsRun p run behind) (hall : ∀ c ∈ run', p c)
    (hsame : run ++ behind = run' ++ behind') : run'.length ≤ run.length := by
  refine Nat.le_of_not_lt fun hlt ↦ ?_
  obtain ⟨c, more, rfl, rfl⟩ := exists_of_length_lt hsame hlt
  exact h.stops c rfl (hall c (List.mem_append_right run List.mem_cons_self))

theorem IsRun.unique (h : IsRun p run behind) (h' : IsRun p run' behind')
    (hsame : run ++ behind = run' ++ behind') : run = run' :=
  eq_of_length_le hsame (h'.length_le h.all hsame.symm) (h.length_le h'.all hsame)

theorem Encloses.length_le (h : Encloses terminator inner) (h' : Encloses terminator inner')
    (hsame : inner ++ terminator :: behind = inner' ++ terminator :: behind') :
    inner'.length ≤ inner.length := by
  refine Nat.le_of_not_lt fun hlt ↦ ?_
  obtain ⟨c, more, rfl, hbehind⟩ := exists_of_length_lt hsame hlt
  obtain ⟨rfl, -⟩ := List.cons.inj hbehind
  exact Nat.not_even_iff_odd.mpr (h'.odd inner more rfl) h.even

theorem Encloses.unique (h : Encloses terminator inner) (h' : Encloses terminator inner')
    (hsame : inner ++ terminator :: behind = inner' ++ terminator :: behind') : inner = inner' :=
  eq_of_length_le hsame (h'.length_le h hsame.symm) (h.length_le h' hsame)

theorem Avoids.unique (h : Avoids mark inner (mark ++ behind))
    (h' : Avoids mark inner' (mark ++ behind'))
    (hsame : inner ++ (mark ++ behind) = inner' ++ (mark ++ behind')) : inner = inner' :=
  eq_of_length_le hsame (h inner' behind' hsame) (h' inner behind hsame.symm)

theorem Escaped.unique (h : Escaped behind inner) (h' : Escaped behind' inner')
    (hsame : inner ++ behind = inner' ++ behind') : inner = inner' := by
  have hlength : inner.length = inner'.length := by
    rw [← Scan.escapedLength_of_escaped h, hsame, Scan.escapedLength_of_escaped h']
  exact (List.append_inj hsame hlength).1

/-- Texts that start with backslashes start with the same number of them. -/
theorem slashes_unique {n m : Nat} (h : behind.head? ≠ some '\\') (h' : behind'.head? ≠ some '\\')
    (hsame : List.replicate n '\\' ++ behind = List.replicate m '\\' ++ behind') :
    n = m ∧ behind = behind' := by
  have hrun {n : Nat} {behind : Text} (h : behind.head? ≠ some '\\') :
      IsRun (· = '\\') (List.replicate n '\\') behind :=
    ⟨fun c hc ↦ List.eq_of_mem_replicate hc, fun c hc hslash ↦ h (hslash ▸ hc)⟩
  have hreplicate := (hrun h).unique (hrun h') hsame
  have hlength := congrArg List.length hreplicate
  rw [List.length_replicate, List.length_replicate] at hlength
  rw [hreplicate] at hsame
  exact ⟨hlength, List.append_cancel_left hsame⟩

end Text

namespace Lexeme

variable {behind behind' text text' : Text} {kind : TokenKind}

/-- A word is no shorter than another one at its place. -/
theorem length_le_of_word {c : Char} {more more' : Text}
    (hstop : ∀ d, behind.head? = some d →
      d ∈ CharClass.wordEnd.stockMembers ∨ "/*".toList <+: behind)
    (hmore : ∀ d ∈ more', d ∉ CharClass.wordEnd.stockMembers)
    (hcomment : Avoids "/*".toList (c :: more') behind')
    (hsame : more ++ behind = more' ++ behind') : more'.length ≤ more.length := by
  refine Nat.le_of_not_lt fun hlt ↦ ?_
  obtain ⟨d, rest, rfl, hbehind⟩ := exists_of_length_lt hsame hlt
  -- What ends the shorter word would be inside of the longer one.
  rcases hstop d (by rw [hbehind]; rfl) with hd | ⟨back, hback⟩
  · exact hmore d (List.mem_append_right more List.mem_cons_self) hd
  · have hle := hcomment (c :: more) back (by rw [hback, List.cons_append, ← hsame]; rfl)
    simp only [List.length_cons] at hle hlt
    omega

/-- A word that is no escape does not start with a backslash. -/
theorem ne_slash_of_first {c : Char}
    (hfirst : c = '!' ∨ c = '#' ∨ c ∉ CharClass.wordEnd.stockMembers) : c ≠ '\\' := by
  rintro rfl
  exact absurd hfirst (by decide)

/-- Two tokens of the same kind that start at the same place are the same. -/
theorem unique (h : Lexeme behind kind text) (h' : Lexeme behind' kind text')
    (hsame : text ++ behind = text' ++ behind') : text = text' := by
  cases h with
  | space _ hrun =>
      cases h' with
      | space _ hrun' => exact hrun.unique hrun' hsame
      | sign hsign => cases hsign
  | sign hsign =>
      cases h' with
      | sign hsign' => rw [Option.some.inj (hsign.symm.trans hsign')]
      | _ => cases hsign
  | brackets hinner =>
      cases h' with
      | brackets hinner' =>
          simp only [List.cons_append, List.append_assoc, List.cons.injEq, true_and] at hsame
          rw [hinner.unique hinner' hsame]
      | sign hsign => cases hsign
  | string _ hinner =>
      cases h' with
      | string _ hinner' =>
          simp only [List.cons_append, List.append_assoc, List.cons.injEq] at hsame
          obtain ⟨rfl, hsame⟩ := hsame
          rw [hinner.unique hinner' hsame]
      | sign hsign => cases hsign
  | comment havoids =>
      cases h' with
      | comment havoids' =>
          simp only [List.append_assoc, List.append_cancel_left_eq] at hsame
          rw [havoids.unique havoids' hsame]
      | sign hsign => cases hsign
  | atWord hrun =>
      cases h' with
      | atWord hrun' => rw [hrun.unique hrun' (List.cons.inj hsame).2]
      | sign hsign => cases hsign
  | word hfirst hmore hcomment hstop =>
      cases h' with
      | word _ hmore' hcomment' hstop' =>
          obtain ⟨rfl, htail⟩ := List.cons.inj hsame
          exact congrArg _
            (eq_of_length_le htail (length_le_of_word hstop' hmore hcomment htail.symm)
            (length_le_of_word hstop hmore' hcomment' htail))
      | escape => exact absurd (List.cons.inj hsame).1 (ne_slash_of_first hfirst)
      | sign hsign => cases hsign
  | escape hstop heven hodd =>
      cases h' with
      | word hfirst => exact absurd (List.cons.inj hsame).1.symm (ne_slash_of_first hfirst)
      | escape hstop' heven' hodd' =>
          rw [List.append_assoc, List.append_assoc] at hsame
          obtain ⟨hn, hescaped⟩ := slashes_unique hstop hstop' hsame
          rw [← hn] at heven' hodd' ⊢
          rcases Nat.even_or_odd _ with h | h
          · rw [heven h, heven' h]
          · rw [(hodd h).unique (hodd' h) hescaped]
      | sign hsign => cases hsign

end Lexeme

/-! ## What words hide -/

namespace Lexeme

variable {behind text : Text} {kind : TokenKind}

theorem slash_not_mem_escaped (h : Escaped behind text) : '/' ∉ text := by
  have hhex {run : Text} (hall : ∀ c ∈ run, c ∈ CharClass.hex.stockMembers) : '/' ∉ run :=
    fun hmem ↦ absurd (hall '/' hmem) (by decide)
  cases h with
  | nothing => exact List.not_mem_nil
  | character hstop =>
      rw [List.mem_singleton]
      rintro rfl
      exact hstop (by decide)
  | digits _ hrun => exact hhex hrun.all
  | spaced _ hall =>
      rw [List.mem_append, not_or]
      exact ⟨hhex hall, by decide⟩

/-- No comment starts in a word or an at-keyword. -/
theorem not_comment (h : Lexeme behind kind text) (hkind : kind = .word ∨ kind = .atWord) :
    ¬"/*".toList <:+: text := by
  have hslash {text : Text} (hmem : '/' ∉ text) : ¬"/*".toList <:+: text :=
    fun hpart ↦ hmem (hpart.subset List.mem_cons_self)
  cases h with
  | word _ _ hcomment => exact hcomment.not_infix (List.cons_ne_nil _ _)
  | atWord hrun =>
      refine hslash fun hmem ↦ ?_
      rcases List.mem_cons.mp hmem with hmem | hmem
      · cases hmem
      · exact hrun.all '/' hmem (by decide)
  | escape _ heven hodd =>
      refine hslash fun hmem ↦ ?_
      rcases List.mem_append.mp hmem with hmem | hmem
      · cases List.eq_of_mem_replicate hmem
      · rcases Nat.even_or_odd _ with h | h
        · rw [heven h] at hmem
          cases hmem
        · exact slash_not_mem_escaped (hodd h) hmem
  | space | brackets | string | comment => simp at hkind
  | sign hsign => rcases hkind with rfl | rfl <;> cases hsign

/-- No character that the structure of a stylesheet depends on is in an at-keyword, nor in a word
without escapes. -/
theorem not_structural (h : Lexeme behind kind text)
    (hkind : kind = .atWord ∨ kind = .word ∧ text.head? ≠ some '\\') :
    ∀ c ∈ text, c ∉ "\x7b\x7d()[];\"'\\".toList := by
  cases h with
  | atWord hrun =>
      have hall : ∀ c ∈ "\x7b\x7d()[];\"'\\".toList, c ∈ CharClass.atEnd.stockMembers :=
        List.all_iff_forall_prop.mp (by decide)
      exact List.forall_mem_cons.mpr ⟨by decide, fun c hc hmem ↦ hrun.all c hc (hall c hmem)⟩
  | word hfirst hmore =>
      have hall : ∀ c ∈ "\x7b\x7d()[];\"'\\".toList, c ∈ CharClass.wordEnd.stockMembers :=
        List.all_iff_forall_prop.mp (by decide)
      refine List.forall_mem_cons.mpr ⟨fun hmem ↦ ?_, fun c hc hmem ↦ hmore c hc (hall c hmem)⟩
      rcases hfirst with rfl | rfl | hfirst
      · exact absurd hmem (by decide)
      · exact absurd hmem (by decide)
      · exact hfirst (hall _ hmem)
  | escape => simp [List.replicate_succ] at hkind
  | space | brackets | string | comment => simp at hkind
  | sign hsign => rcases hkind with rfl | ⟨rfl, -⟩ <;> cases hsign

end Lexeme

namespace Lexer

variable {l next after : Lexer} {token : Token} {tokens : List Token}

/-- What a strict lexer of plain stylesheets reads is in the grammar. -/
theorem scanNext_lexeme (hstock : l.classifier = .stock) (hpolicy : l.policy = .fail)
    (h : l.scanNext = (.ok (some token), next)) : Lexeme next.rest token.kind token.text := by
  obtain ⟨c, more, htext, hscan⟩ := scanNext_scan hpolicy h
  rw [hstock] at hscan
  rw [htext]
  exact Scan.lexeme_of_scan hscan

/-- All that it reads is in the grammar, each token with what follows it. -/
theorem Reads.lexeme (h : l.Reads tokens after) (hstock : l.classifier = .stock)
    (hpolicy : l.policy = .fail) (front : Text) (hposition : l.position = front.utf8Size)
    (ht : token ∈ tokens) :
    ∃ before behind, front ++ l.rest = before ++ (token.text ++ behind) ∧
      token.span = ⟨before.utf8Size, (before ++ token.text).utf8Size⟩ ∧
      Lexeme behind token.kind token.text := by
  induction h generalizing front with
  | nil => cases ht
  | cons l next after first tokens hscan _ ih =>
      obtain ⟨hclassifier, hsame, -, -⟩ := scanNext_frame hscan
      obtain ⟨hspan, hnext⟩ := scanNext_place hscan
      have hrest := (scanNext_rest hscan).1
      have hstop : l.position + first.text.utf8Size = (front ++ first.text).utf8Size := by
        rw [Text.utf8Size_append, hposition]
      rcases List.mem_cons.mp ht with rfl | ht
      · exact ⟨front, next.rest, by rw [hrest], by rw [hspan, hstop, hposition],
          scanNext_lexeme hstock hpolicy hscan⟩
      · rw [hrest, ← List.append_assoc]
        refine ih (hclassifier.trans hstock) (hsame.trans hpolicy) (front ++ first.text) ?_ ht
        rw [hnext, hspan, hstop]

end Lexer

namespace Token

variable {text : Text} {t : Token}

/-- Every token of a strict run over a plain stylesheet is in the grammar, where it stands in the
text. No comment starts in a word or an at-keyword, and no bracket, semicolon, quote or backslash
is in one that is not an escape. -/
theorem lexeme_of_mem_run (ht : t ∈ (run text .fail).tokens) :
    ∃ before behind, text = before ++ (t.text ++ behind) ∧
      t.span = ⟨before.utf8Size, (before ++ t.text).utf8Size⟩ ∧ Lexeme behind t.kind t.text ∧
      (t.kind = .word ∨ t.kind = .atWord → ¬"/*".toList <:+: t.text) ∧
      (t.kind = .atWord ∨ t.kind = .word ∧ t.text.head? ≠ some '\\' →
        ∀ c ∈ t.text, c ∉ "\x7b\x7d()[];\"'\\".toList) := by
  obtain ⟨last, hreads, -, -⟩ := Lexer.stops_of_runFor (run text .fail)
    (Lexer.isPlain_ofText text .fail .stock) (Nat.le_add_left _ _) rfl
  obtain ⟨before, behind, htext, hspan, hlexeme⟩ := hreads.lexeme rfl rfl [] rfl ht
  exact ⟨before, behind, htext, hspan, hlexeme, hlexeme.not_comment, hlexeme.not_structural⟩

/-- The name of an at-keyword ends before a comment, and the semicolon in that is not part of
it. -/
theorem lexeme_of_mem_run_atWord :
    let name : Token := ⟨.atWord, ⟨0, 2⟩, "@a".toList, false⟩
    name ∈ (run "@a/*;*/b".toList .fail).tokens ∧ ¬"/*".toList <:+: name.text ∧
      ∀ c ∈ name.text, c ∉ "\x7b\x7d()[];\"'\\".toList := by
  intro name
  have hmem : name ∈ (run "@a/*;*/b".toList .fail).tokens := by decide
  obtain ⟨_, _, _, _, _, hcomment, hplain⟩ := lexeme_of_mem_run hmem
  exact ⟨hmem, hcomment (.inr rfl), hplain (.inl rfl)⟩

end Token

end Stylesheet
