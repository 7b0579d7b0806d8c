import Stylesheet.Proofs.Texts
import Stylesheet.Proofs.Values

/-!
# Tidying twice

Tidying decides about a token by the tokens around it in the whole run, not by those that are
kept. So white space that is kept can end up at the end of what is left, and a comment next to
white space. Then tidying what was kept leaves out more. `tidiesOnce` says of a run that this does
not happen: there is something other than white space and comments behind all white space but that
at its end, and there is white space or an edge on both sides of two comments in a row or on none,
unless they stand behind a comma.

`tidy_tidy_of_tidiesOnce` and `tidiesOnce_of_tidy_tidy` compare this with tidying twice. They
differ only behind a token that ends with a blank although it is no white space, as an escape
does, since tidying takes the blank for white space. `tidy_again_of_parse` says so of all runs of
a source that is taken.
-/

namespace Stylesheet

variable {t : Token} {tokens rest : List Token} {before held : Option TokenKind}
  {last : Option Char} {dropped : Bool}

/-! ## Steps of tidying -/

/-- The kind of what follows. -/
abbrev nextKind (tokens : List Token) : Option TokenKind := tokens.head?.map (·.kind)

theorem nextKind_cons (t : Token) (rest : List Token) : nextKind (t :: rest) = some t.kind := rfl

/-- White space is left out at the end of a run, and behind a comment that is left out if there is
a blank before it. -/
theorem tidyFrom_edge (hkind : t.kind = .space)
    (h : rest = [] ∨ dropped = true ∧ last.any Char.isBlank = true) :
    tidyFrom false before last dropped (t :: rest) =
      tidyFrom false (some .space) last false rest := by
  rw [tidyFrom, if_pos]
  · rw [hkind]
  · rcases h with rfl | ⟨rfl, hblank⟩
    · simp [Token.is, hkind]
    · simp [Token.is, hkind, hblank]

theorem tidyFrom_space (hkind : t.kind = .space) (hrest : rest ≠ [])
    (h : ¬(dropped = true ∧ last.any Char.isBlank = true)) :
    tidyFrom false before last dropped (t :: rest) =
      t :: tidyFrom false (some .space) (t.text.getLast? <|> last) false rest := by
  rw [tidyFrom, if_neg, if_neg, hkind]
  · simp [Token.is, hkind]
  · simpa [Token.is, hkind, hrest] using h

/-- A comment is left out next to white space, at an edge and behind a comma. -/
theorem tidyFrom_remark (hkind : t.kind = .comment)
    (h : (isLoose before || isLoose (nextKind rest) || last == some ',') = true) :
    tidyFrom false before last dropped (t :: rest) =
      tidyFrom false (some .comment) last true rest := by
  rw [tidyFrom, if_neg, if_pos, hkind]
  · simpa [Token.is, hkind] using h
  · simp [Token.is, hkind]

theorem tidyFrom_comment (hkind : t.kind = .comment)
    (h : (isLoose before || isLoose (nextKind rest) || last == some ',') = false) :
    tidyFrom false before last dropped (t :: rest) =
      t :: tidyFrom false (some .comment) (t.text.getLast? <|> last) false rest := by
  rw [tidyFrom, if_neg, if_neg, hkind]
  · simpa [Token.is, hkind] using h
  · simp [Token.is, hkind]

theorem tidyFrom_word (hspace : t.kind ≠ .space) (hcomment : t.kind ≠ .comment) :
    tidyFrom false before last dropped (t :: rest) =
      t :: tidyFrom false (some t.kind) (t.text.getLast? <|> last) false rest := by
  rw [tidyFrom, if_neg, if_neg]
  · simp [Token.is, hcomment]
  · simp [Token.is, hspace]

/-! ## Runs that are tidy -/

/-- `isTidyFrom before last tokens` says that tidying leaves nothing out of tokens behind one of
the kind `before`, where `last` is the last character in front of them. -/
def isTidyFrom (before : Option TokenKind) (last : Option Char) : List Token → Bool
  | [] => true
  | t :: rest =>
      !(t.is .space && rest.isEmpty) &&
        !(t.is .comment && (isLoose before || isLoose (nextKind rest) || last == some ',')) &&
        isTidyFrom (some t.kind) (t.text.getLast? <|> last) rest

theorem isTidyFrom_space (hkind : t.kind = .space) :
    isTidyFrom before last (t :: rest) =
      (!rest.isEmpty && isTidyFrom (some .space) (t.text.getLast? <|> last) rest) := by
  have hcomment : t.is .comment = false := by rw [Token.is, hkind]; rfl
  rw [isTidyFrom, hcomment, hkind]
  simp [Token.is, hkind]

theorem isTidyFrom_comment (hkind : t.kind = .comment) :
    isTidyFrom before last (t :: rest) =
      (!(isLoose before || isLoose (nextKind rest) || last == some ',') &&
        isTidyFrom (some .comment) (t.text.getLast? <|> last) rest) := by
  have hspace : t.is .space = false := by rw [Token.is, hkind]; rfl
  rw [isTidyFrom, hspace, hkind]
  simp [Token.is, hkind]

theorem isTidyFrom_word (hspace : t.kind ≠ .space) (hcomment : t.kind ≠ .comment) :
    isTidyFrom before last (t :: rest) =
      isTidyFrom (some t.kind) (t.text.getLast? <|> last) rest := by
  simp [isTidyFrom, Token.is, hspace, hcomment]

theorem tidyFrom_eq_self_iff :
    tidyFrom false before last false tokens = tokens ↔ isTidyFrom before last tokens = true := by
  induction tokens generalizing before last with
  | nil => exact iff_of_true rfl rfl
  | cons t rest ih =>
      have hshorter (before : Option TokenKind) (last : Option Char) (dropped : Bool) :
          tidyFrom false before last dropped rest ≠ t :: rest := fun heq ↦ by
        have hlength := (tidyFrom_sublist false before last dropped rest).length_le
        rw [heq, List.length_cons] at hlength
        omega
      rw [tidyFrom, isTidyFrom]
      split
      · next hedge =>
          have hedge : (t.is .space && rest.isEmpty) = true := by simpa using hedge
          simp [hedge, hshorter]
      · next hedge =>
          have hedge : (t.is .space && rest.isEmpty) = false := by simpa using hedge
          split
          · next hremark =>
              refine iff_of_false (hshorter _ _ _) ?_
              simp [hremark]
          · next hremark =>
              rw [List.cons.injEq, ih, hedge, Bool.eq_false_iff.mpr hremark]
              simp

/-- A text is kept as it is if the run is tidy. -/
theorem Value.ofTokens_eq_iff {custom : Bool} :
    ofTokens custom tokens = ⟨Token.spelling tokens, none⟩ ↔ tidy custom tokens = tokens := by
  constructor
  · intro h
    have hraw : (ofTokens custom tokens).raw = none := congrArg Value.raw h
    unfold ofTokens at hraw
    dsimp only at hraw
    split at hraw
    · next hlength => exact (tidy_sublist custom tokens).eq_of_length hlength
    · cases hraw
  · intro h
    simp only [ofTokens, h, if_true]

/-- A run that is tidy does not end with white space or a comment. -/
theorem exists_of_isTidyFrom (h : isTidyFrom before last tokens = true) (hne : tokens ≠ []) :
    ∃ t ∈ tokens, t.isTrivia = false := by
  induction tokens generalizing before last with
  | nil => exact absurd rfl hne
  | cons t rest ih =>
      cases htrivia : t.isTrivia with
      | false => exact ⟨t, List.mem_cons_self, htrivia⟩
      | true =>
          simp only [isTidyFrom, Bool.and_eq_true, Bool.not_eq_true'] at h
          obtain ⟨⟨hspace, hcomment⟩, hrest⟩ := h
          have hne : rest ≠ [] := by
            rintro rfl
            cases hkind : t.kind <;> simp_all [Token.is, Token.isTrivia,
              TokenKind.isTrivia, isLoose]
          obtain ⟨u, hu, huword⟩ := ih hrest hne
          exact ⟨u, List.mem_cons_of_mem _ hu, huword⟩

/-! ## Runs that are tidied at once -/

/-- `isEven before rest` says of a comment behind a token of the kind `before` and in front of
`rest` that, if another comment follows, there is white space or an edge on both sides of the two
or on none. -/
def isEven (before : Option TokenKind) : List Token → Bool
  | [] => true
  | t :: rest => !t.is .comment || isLoose before == isLoose (nextKind rest)

/-- `tidiesOnceFrom before comma tokens` says that nothing is left out of tokens that was kept at
first. They stand behind one of the kind `before`, and `comma` says that, comments apart, there is
a comma in front of them. -/
def tidiesOnceFrom (before : Option TokenKind) (comma : Bool) : List Token → Bool
  | [] => true
  | t :: rest =>
      if t.is .space then (rest.isEmpty || rest.any (!·.isTrivia)) &&
        tidiesOnceFrom (some .space) false rest
      else if t.is .comment then (comma || isEven before rest) &&
        tidiesOnceFrom (some .comment) comma rest
      else tidiesOnceFrom (some t.kind) (t.text.getLast? == some ',') rest

theorem tidiesOnceFrom_space {comma : Bool} (hkind : t.kind = .space) :
    tidiesOnceFrom before comma (t :: rest) =
      ((rest.isEmpty || rest.any (!·.isTrivia)) && tidiesOnceFrom (some .space) false rest) := by
  simp [tidiesOnceFrom, Token.is, hkind]

theorem tidiesOnceFrom_comment {comma : Bool} (hkind : t.kind = .comment) :
    tidiesOnceFrom before comma (t :: rest) =
      ((comma || isEven before rest) && tidiesOnceFrom (some .comment) comma rest) := by
  simp [tidiesOnceFrom, Token.is, hkind]

theorem tidiesOnceFrom_word {comma : Bool} (hspace : t.kind ≠ .space)
    (hcomment : t.kind ≠ .comment) :
    tidiesOnceFrom before comma (t :: rest) =
      tidiesOnceFrom (some t.kind) (t.text.getLast? == some ',') rest := by
  simp [tidiesOnceFrom, Token.is, hspace, hcomment]

/-- `tidiesOnce tokens` says that behind all white space in a run, but for its end, is something
other than white space and comments, and that there is white space or an edge on both sides of two
comments in a row or on none, unless a comma is before them. -/
def tidiesOnce (tokens : List Token) : Bool :=
  tidiesOnceFrom none false tokens

/-- `padsComment tokens` says that a comment follows a token which ends with a blank and is no
white space. -/
def padsComment : List Token → Bool
  | [] => false
  | t :: rest =>
      nextKind rest == some .comment && !t.is .space && t.text.getLast?.any Char.isBlank ||
        padsComment rest

/-! ## The ends of tokens -/

namespace Token.IsScanned

theorem text_ne_nil (h : t.IsScanned) : t.text ≠ [] := by
  obtain ⟨l, next, -, -, hscan⟩ := h
  exact (Lexer.scanNext_rest hscan).2

theorem last_orElse (h : t.IsScanned) (last : Option Char) :
    (t.text.getLast? <|> last) = t.text.getLast? := by
  rw [List.getLast?_eq_some_getLast h.text_ne_nil]
  rfl

/-- White space ends with a blank. -/
theorem last_space (h : t.IsScanned) (hkind : t.kind = .space) :
    t.text.getLast?.any Char.isBlank = true := by
  rw [List.getLast?_eq_some_getLast h.text_ne_nil]
  exact isBlank_of_is_space (h.forall_isSpace hkind _ (List.getLast_mem _))

/-- A comment ends with a slash. -/
theorem last_comment (h : t.IsScanned) (hkind : t.kind = .comment) :
    t.text.getLast? = some '/' := by
  have hformed := h.isFormed
  rw [IsFormed, hkind] at hformed
  obtain ⟨inner, htext⟩ := hformed
  rw [htext, List.getLast?_append]
  rfl

end Token.IsScanned

/-- A blank is no comma. -/
theorem comma_of_isBlank (h : last.any Char.isBlank = true) : (last == some ',') = false := by
  refine Bool.eq_false_iff.mpr fun hcomma ↦ ?_
  rw [beq_iff_eq.mp hcomma] at h
  exact absurd h (by decide)

/-! ## What is tidied at once is tidy then -/

/-- A comment behind one that is left out is left out on the same grounds. -/
theorem remark_of_isEven {u : Token} {more : List Token} (hu : u.kind = .comment)
    (h : (isLoose before || isLoose (nextKind (u :: more)) || last == some ',') = true)
    (heven : (last == some ',' || isEven before (u :: more)) = true) :
    (isLoose (nextKind more) || last == some ',') = true := by
  have hnext : isLoose (nextKind (u :: more)) = false := by
    rw [nextKind_cons, hu]
    rfl
  cases hcomma : last == some ',' with
  | true => exact Bool.or_true _
  | false =>
      rw [hnext, hcomma, Bool.or_false, Bool.or_false] at h
      simpa [hcomma, isEven, Token.is, hu, h] using heven

/-- Behind a comment that was kept, the next token but white space is kept as well. -/
theorem nextKind_tidyFrom (hnext : isLoose (nextKind tokens) = false)
    (heven : isEven before tokens = true) (hbefore : isLoose before = false)
    (hlast : (last == some ',') = false) :
    isLoose (nextKind (tidyFrom false (some .comment) last false tokens)) = false := by
  cases tokens with
  | nil => exact hnext
  | cons u more =>
      have hspace : u.kind ≠ .space := by
        intro hkind
        rw [nextKind_cons, hkind] at hnext
        cases hnext
      by_cases hcomment : u.kind = .comment
      · have hloose : isLoose (nextKind more) = false := by
          simpa [isEven, Token.is, hcomment, hbefore] using heven
        rw [tidyFrom_comment hcomment (by simp [hloose, hlast]; rfl)]
        exact hnext
      · rw [tidyFrom_word hspace hcomment]
        exact hnext

/-- A run that is tidied at once is tidy then. `held` is the kind of the last token that was
kept. -/
theorem isTidyFrom_tidyFrom (hscanned : tokens.Pairwise fun t _ ↦ t.IsScanned)
    (htight : dropped = false → isLoose before = false → held = before)
    (hremark : dropped = true → ∀ t rest, tokens = t :: rest → t.kind = .comment →
      (isLoose (nextKind rest) || last == some ',') = true)
    (h : tidiesOnceFrom before (last == some ',') tokens = true) :
    isTidyFrom held last (tidyFrom false before last dropped tokens) = true := by
  induction tokens generalizing before held last dropped with
  | nil => rfl
  | cons t rest ih =>
      obtain ⟨hfirst, hrest⟩ := List.pairwise_cons.mp hscanned
      by_cases hspace : t.kind = .space
      · rw [tidiesOnceFrom_space hspace, Bool.and_eq_true] at h
        by_cases hedge : rest = [] ∨ dropped = true ∧ last.any Char.isBlank = true
        · rw [tidyFrom_edge hspace hedge]
          refine ih hrest (fun _ hloose ↦ by cases hloose) nofun ?_
          rcases hedge with rfl | ⟨-, hblank⟩
          · rfl
          · rw [comma_of_isBlank hblank]
            exact h.2
        · obtain ⟨hne, hkept⟩ := not_or.mp hedge
          have ht : t.IsScanned := hfirst _ (List.head_mem hne)
          obtain ⟨u, hu, hword⟩ : ∃ u ∈ rest, u.isTrivia = false := by simpa [hne] using h.1
          rw [tidyFrom_space hspace hne hkept, isTidyFrom_space hspace, ht.last_orElse,
            Bool.and_eq_true]
          refine ⟨?_, ih hrest (fun _ _ ↦ rfl) nofun ?_⟩
          · simpa using List.ne_nil_of_mem (mem_tidyFrom hu hword)
          · rw [comma_of_isBlank (ht.last_space hspace)]
            exact h.2
      by_cases hcomment : t.kind = .comment
      · rw [tidiesOnceFrom_comment hcomment, Bool.and_eq_true] at h
        cases hloose : isLoose before || isLoose (nextKind rest) || last == some ',' with
        | true =>
            rw [tidyFrom_remark hcomment hloose]
            refine ih hrest nofun ?_ h.2
            rintro - u more rfl hu
            exact remark_of_isEven hu hloose h.1
        | false =>
            obtain ⟨⟨hbefore, hnext⟩, hcomma⟩ :
                (isLoose before = false ∧ isLoose (nextKind rest) = false) ∧
                  (last == some ',') = false := by
              simpa using hloose
            -- Behind a comment that was left out, this one would be left out as well.
            have hdropped : dropped = false := eq_false_of_ne_true fun hdropped ↦ by
              have hremark := hremark hdropped t rest rfl hcomment
              rw [hnext, hcomma] at hremark
              cases hremark
            have hne : rest ≠ [] := by
              rintro rfl
              cases hnext
            have ht : t.IsScanned := hfirst _ (List.head_mem hne)
            have hlast : (t.text.getLast? == some ',') = false := by
              rw [ht.last_comment hcomment]
              rfl
            rw [hcomma, Bool.false_or] at h
            rw [tidyFrom_comment hcomment hloose, isTidyFrom_comment hcomment, ht.last_orElse,
              nextKind_tidyFrom hnext h.1 hbefore hlast, htight hdropped hbefore, hbefore, hcomma]
            exact ih hrest (fun _ _ ↦ rfl) nofun (hlast ▸ h.2)
      · rw [tidyFrom_word hspace hcomment, isTidyFrom_word hspace hcomment]
        rw [tidiesOnceFrom_word hspace hcomment] at h
        rcases eq_or_ne rest [] with rfl | hne
        · rfl
        · rw [(hfirst _ (List.head_mem hne)).last_orElse]
          exact ih hrest (fun _ _ ↦ rfl) nofun h

/-! ## What is tidy then is tidied at once -/

/-- No comment follows if white space or an edge does. -/
theorem isEven_of_isLoose (h : isLoose (nextKind rest) = true) : isEven before rest = true := by
  cases rest with
  | nil => rfl
  | cons u more =>
      have hu : u.kind = .space := by simpa [nextKind, isLoose] using h
      have hcomment : u.is .comment = false := by
        rw [Token.is, hu]
        rfl
      simp [isEven, hcomment]

/-- What is kept is not tidy if one of two comments is kept and the other is not. -/
theorem isEven_of_remark (hremark : isLoose before = true)
    (hloose : isLoose before = true → isLoose held = true) (hcomma : (last == some ',') = false)
    (h : isTidyFrom held last (tidyFrom false (some .comment) last true rest) = true) :
    isEven before rest = true := by
  cases rest with
  | nil => rfl
  | cons u more =>
      by_cases hu : u.kind = .comment
      · cases hnext : isLoose (nextKind more) with
        | true => simp [isEven, hremark, hnext]
        | false =>
            have hkept : (isLoose (some .comment) || isLoose (nextKind more) ||
                last == some ',') = false := by
              rw [hnext, hcomma]
              rfl
            rw [tidyFrom_comment hu hkept, isTidyFrom_comment hu, hloose hremark] at h
            cases h
      · have hu : u.is .comment = false := beq_eq_false_iff_ne.mpr hu
        simp [isEven, hu]

/-- Behind a comment that is left out, white space is kept unless it is the last. -/
theorem nextKind_tidyFrom_of_isLoose (hnext : isLoose (nextKind rest) = true)
    (hlast : last.any Char.isBlank = false) :
    isLoose (nextKind (tidyFrom false before last dropped rest)) = true := by
  cases rest with
  | nil => rfl
  | cons u more =>
      have hu : u.kind = .space := by simpa [nextKind, isLoose] using hnext
      rcases eq_or_ne more [] with rfl | hne
      · rw [tidyFrom_edge hu (.inl rfl)]
        rfl
      · rw [tidyFrom_space hu hne (by simp [hlast])]
        exact hnext

theorem isEven_of_kept (hbefore : isLoose before = false) (hlast : last.any Char.isBlank = false)
    (h : isLoose (nextKind (tidyFrom false (some .comment) last false rest)) = false) :
    isEven before rest = true := by
  cases rest with
  | nil => rfl
  | cons u more =>
      by_cases hu : u.kind = .comment
      · cases hnext : isLoose (nextKind more) with
        | false => simp [isEven, hbefore, hnext]
        | true =>
            rw [tidyFrom_remark hu (by simp [hnext]),
              nextKind_tidyFrom_of_isLoose hnext hlast] at h
            cases h
      · have hu : u.is .comment = false := beq_eq_false_iff_ne.mpr hu
        simp [isEven, hu]

/-- A comment that was left out leaves something tidy behind it. -/
theorem comma_or_isEven_of_remark
    (hremark : (isLoose before || isLoose (nextKind rest) || last == some ',') = true)
    (hloose : isLoose before = true → isLoose held = true)
    (h : isTidyFrom held last (tidyFrom false (some .comment) last true rest) = true) :
    (last == some ',' || isEven before rest) = true := by
  cases hcomma : last == some ',' with
  | true => rfl
  | false =>
      rw [Bool.false_or]
      rw [hcomma, Bool.or_false, Bool.or_eq_true] at hremark
      rcases hremark with hbefore | hnext
      · exact isEven_of_remark hbefore hloose hcomma h
      · exact isEven_of_isLoose hnext

/-- What is kept and tidy has more than white space and comments. -/
theorem any_of_isTidyFrom
    (h : isTidyFrom held last (tidyFrom false before last false tokens) = true)
    (hne : tidyFrom false before last false tokens ≠ []) : tokens.any (!·.isTrivia) = true := by
  obtain ⟨u, hu, hword⟩ := exists_of_isTidyFrom h hne
  exact List.any_eq_true.mpr ⟨u, (tidyFrom_sublist ..).subset hu, by rw [hword]; rfl⟩

/-- A run of which tidying leaves something tidy is tidied at once. `held` is the kind of the last
token that was kept. -/
theorem tidiesOnceFrom_of_isTidyFrom (hscanned : tokens.Pairwise fun t _ ↦ t.IsScanned)
    (hpads : padsComment tokens = false) (hloose : isLoose before = true → isLoose held = true)
    (hdropped : dropped = true → last.any Char.isBlank = true → held = some .space)
    (hhead : nextKind tokens = some .comment → last.any Char.isBlank = true → held = some .space)
    (hspace : held = some .space → tidyFrom false before last dropped tokens ≠ [])
    (h : isTidyFrom held last (tidyFrom false before last dropped tokens) = true) :
    tidiesOnceFrom before (last == some ',') tokens = true := by
  induction tokens generalizing before held last dropped with
  | nil => rfl
  | cons t rest ih =>
      obtain ⟨hfirst, hrest⟩ := List.pairwise_cons.mp hscanned
      obtain ⟨hpad, hpads⟩ := Bool.or_eq_false_iff.mp hpads
      rcases eq_or_ne rest [] with rfl | hne
      · simp [tidiesOnceFrom, isEven]
      have ht : t.IsScanned := hfirst _ (List.head_mem hne)
      by_cases hkind : t.kind = .space
      · rw [tidiesOnceFrom_space hkind, Bool.and_eq_true, Bool.or_eq_true]
        by_cases hedge : dropped = true ∧ last.any Char.isBlank = true
        · have hheld := hdropped hedge.1 hedge.2
          rw [tidyFrom_edge hkind (.inr hedge)] at h hspace
          refine ⟨.inr (any_of_isTidyFrom h (hspace hheld)), ?_⟩
          rw [← comma_of_isBlank hedge.2]
          exact ih hrest hpads (fun _ ↦ by rw [hheld]; rfl) (by nofun) (fun _ _ ↦ hheld) hspace h
        · rw [tidyFrom_space hkind hne hedge, isTidyFrom_space hkind, ht.last_orElse,
            Bool.and_eq_true] at h
          have hkept : tidyFrom false (some .space) t.text.getLast? false rest ≠ [] := by
            simpa using h.1
          refine ⟨.inr (any_of_isTidyFrom h.2 hkept), ?_⟩
          rw [← comma_of_isBlank (ht.last_space hkind)]
          exact ih hrest hpads (fun _ ↦ rfl) (by nofun) (fun _ _ ↦ rfl) (fun _ ↦ hkept) h.2
      by_cases hcomment : t.kind = .comment
      · have hhead := hhead (by rw [nextKind_cons, hcomment])
        rw [tidiesOnceFrom_comment hcomment, Bool.and_eq_true]
        cases hremark : isLoose before || isLoose (nextKind rest) || last == some ',' with
        | true =>
            rw [tidyFrom_remark hcomment hremark] at h hspace
            exact ⟨comma_or_isEven_of_remark hremark hloose h,
              ih hrest hpads nofun (fun _ ↦ hhead) (fun _ ↦ hhead) hspace h⟩
        | false =>
            rw [tidyFrom_comment hcomment hremark, isTidyFrom_comment hcomment, ht.last_orElse,
              Bool.and_eq_true] at h
            have hslash : t.text.getLast?.any Char.isBlank = false := by
              rw [ht.last_comment hcomment]
              rfl
            have hcomma : (last == some ',') = (t.text.getLast? == some ',') := by
              rw [ht.last_comment hcomment, (Bool.or_eq_false_iff.mp hremark).2]
              rfl
            obtain ⟨hbefore, -⟩ := Bool.or_eq_false_iff.mp (Bool.or_eq_false_iff.mp hremark).1
            have hnext :
                isLoose (nextKind (tidyFrom false (some .comment) t.text.getLast? false rest)) =
                  false := by
              simp only [Bool.not_eq_true', Bool.or_eq_false_iff] at h
              exact h.1.1.2
            refine ⟨Bool.or_eq_true_iff.mpr (.inr (isEven_of_kept hbefore hslash hnext)), ?_⟩
            rw [hcomma]
            exact ih hrest hpads (by nofun) (by nofun)
              (fun _ hblank ↦ absurd (hslash.symm.trans hblank) Bool.false_ne_true) (by nofun) h.2
      · rw [tidyFrom_word hkind hcomment, isTidyFrom_word hkind hcomment, ht.last_orElse] at h
        rw [tidiesOnceFrom_word hkind hcomment]
        refine ih hrest hpads id (by nofun) (fun hnext hblank ↦ ?_)
          (fun heq ↦ absurd (Option.some.inj heq) hkind) h
        have hspace : t.is .space = false := beq_eq_false_iff_ne.mpr hkind
        rw [hnext, hspace, hblank] at hpad
        cases hpad

/-- Nothing more is left out of what was kept of a run that is tidied at once. -/
theorem tidy_tidy_of_tidiesOnce (hscanned : tokens.Pairwise fun t _ ↦ t.IsScanned)
    (h : tidiesOnce tokens = true) : tidy false (tidy false tokens) = tidy false tokens :=
  tidyFrom_eq_self_iff.mpr (isTidyFrom_tidyFrom hscanned (fun _ _ ↦ rfl) nofun h)

/-- If nothing more is left out of what was kept, the run is tidied at once, unless a comment
stands behind a token that ends with a blank. -/
theorem tidiesOnce_of_tidy_tidy (hscanned : tokens.Pairwise fun t _ ↦ t.IsScanned)
    (hpads : padsComment tokens = false)
    (h : tidy false (tidy false tokens) = tidy false tokens) : tidiesOnce tokens = true :=
  tidiesOnceFrom_of_isTidyFrom hscanned hpads id (by nofun) (by nofun) (by nofun)
    (tidyFrom_eq_self_iff.mp h)

/-! ## The runs of a source -/

/-- Tidying again what is kept of a run of a source that is taken in either mode. The nodes of the
document have the texts that the runs are tidied to. Where a run is not the value of a custom
property, the tokens that are kept of it are tidied to the same text without a written form if the
run is tidied at once, and only then, unless a comment of the run stands behind a token that ends
with a blank. -/
theorem tidy_again_of_parse {source : Source} {mode : Mode} {doc : Document}
    (h : parse source mode = .ok doc) :
    (doc.walk Document.root).filterMap (fun id ↦ (doc.node id).tidied?) =
        (source.runs mode).map TidyRun.value ∧
      ∀ tokens, ⟨false, tokens⟩ ∈ source.runs mode →
        (tidiesOnce tokens = true →
          Value.ofTokens false (tidy false tokens) = ⟨(Value.ofTokens false tokens).text, none⟩) ∧
        (padsComment tokens = false →
          Value.ofTokens false (tidy false tokens) = ⟨(Value.ofTokens false tokens).text, none⟩ →
            tidiesOnce tokens = true) := by
  refine ⟨tidied_of_parse h, fun tokens hrun ↦ ?_⟩
  have hscanned : tokens.Pairwise fun t _ ↦ t.IsScanned := pairwise_isScanned_of_parse h hrun
  have hagain : Value.ofTokens false (tidy false tokens) =
      ⟨(Value.ofTokens false tokens).text, none⟩ ↔
        tidy false (tidy false tokens) = tidy false tokens := Value.ofTokens_eq_iff
  rw [hagain]
  exact ⟨tidy_tidy_of_tidiesOnce hscanned, tidiesOnce_of_tidy_tidy hscanned⟩

/-- Comments and white space between words are tidied at once. -/
theorem tidy_again_of_parse_words :
    ∃ doc run, parse ⟨"a\x7bb:c /*1*/ /*2*/d\x7d".toList, none⟩ .strict = .ok doc ∧
      (doc.node 2).tidied? = some ⟨"c d".toList, some ⟨"c d".toList, "c /*1*/ /*2*/d".toList⟩⟩ ∧
      (Source.runs ⟨"a\x7bb:c /*1*/ /*2*/d\x7d".toList, none⟩ .strict)[1]? = some ⟨false, run⟩ ∧
      Value.ofTokens false (tidy false run) = ⟨"c d".toList, none⟩ := by
  have h (source : Source) {doc : Document} {run : List Token}
      (hparse : parse source .strict = .ok doc)
      (hnode : (doc.node 2).tidied? = some ⟨"c d".toList,
        some ⟨"c d".toList, "c /*1*/ /*2*/d".toList⟩⟩)
      (hrun : (source.runs .strict)[1]? = some ⟨false, run⟩)
      (hvalue : (Value.ofTokens false run).text = "c d".toList)
      (honce : tidiesOnce run = true) :
      ∃ doc run, parse source .strict = .ok doc ∧
        (doc.node 2).tidied? = some ⟨"c d".toList, some ⟨"c d".toList, "c /*1*/ /*2*/d".toList⟩⟩ ∧
        (source.runs .strict)[1]? = some ⟨false, run⟩ ∧
        Value.ofTokens false (tidy false run) = ⟨"c d".toList, none⟩ := by
    have hagain := ((tidy_again_of_parse hparse).2 run (List.mem_of_getElem? hrun)).1 honce
    exact ⟨doc, run, hparse, hnode, hrun, hvalue ▸ hagain⟩
  exact h ⟨"a\x7bb:c /*1*/ /*2*/d\x7d".toList, none⟩ rfl rfl rfl rfl rfl

/-- White space before a comment at the end of a value is kept at first. -/
theorem not_tidy_again_of_parse_comment :
    ∃ doc run, parse ⟨"a\x7bb:c /**/;\x7d".toList, none⟩ .strict = .ok doc ∧
      (doc.node 2).tidied? = some ⟨"c ".toList, some ⟨"c ".toList, "c /**/".toList⟩⟩ ∧
      (Source.runs ⟨"a\x7bb:c /**/;\x7d".toList, none⟩ .strict)[1]? = some ⟨false, run⟩ ∧
      Value.ofTokens false (tidy false run) = ⟨"c".toList, some ⟨"c".toList, "c ".toList⟩⟩ :=
  ⟨_, _, rfl, rfl, rfl, rfl⟩

end Stylesheet
