import Stylesheet.Proofs.Lines
import Stylesheet.Proofs.Reporting
import Stylesheet.Proofs.Runs
import Stylesheet.Proofs.Spans
import Stylesheet.Proofs.Trailing

/-!
# The places of errors

An error of strict reading names a range of bytes: a token, an empty range where a declaration
ends, the bracket that a statement leaves open, the first byte of a construct that the lexer fails
on, or the first byte of a block that is not closed. `Source.Locates` says that an error has such
a range in the source and the position of its start. Every statement of a run names ranges between
characters (`Statement.isWithin_of_mem_ofRun`), and what assembly says of a statement is located
(`Assembly.locatesAll_add`).

Only the first byte of a block need not be a whole character: it is the first byte of the selector
in front of the block. `errors_located` says when the range of an error can be sliced.
-/

namespace Stylesheet

/-! ## Ranges -/

namespace Source

/-- `s.IsRange span` says that a range of bytes starts and ends between characters of the
source. -/
structure IsRange (s : Source) (span : Span) : Prop where
  le : span.start ≤ span.stop
  start : s.IsBoundary span.start
  stop : s.IsBoundary span.stop

variable {s : Source} {span : Span} {offset : Nat}

theorem IsBoundary.isRange_point (h : s.IsBoundary offset) : s.IsRange (.point offset) :=
  ⟨Nat.le_refl _, h, h⟩

/-- The text of a range can be sliced, and of nothing else. -/
theorem isSome_slice?_iff : (s.text.slice? span.start span.stop).isSome = true ↔
    s.IsRange span := by
  rw [Option.isSome_iff_exists]
  constructor
  · rintro ⟨piece, hpiece⟩
    obtain ⟨before, behind, htext, hstart, hstop⟩ := Text.slice?_eq_some_iff.mp hpiece
    refine ⟨?_, ⟨before, piece ++ behind, htext, hstart⟩,
      ⟨before ++ piece, behind, by rw [htext, List.append_assoc], hstop⟩⟩
    rw [← hstart, ← hstop, Text.utf8Size_append]
    exact Nat.le_add_right _ _
  · rintro ⟨hle, ⟨before, rest, htext, hstart⟩, ⟨first, behind, htext', hstop⟩⟩
    rcases List.append_eq_append_iff.mp (htext.symm.trans htext') with ⟨piece, rfl, rfl⟩ |
      ⟨extra, rfl, rfl⟩
    · exact ⟨piece, Text.slice?_eq_some_iff.mpr ⟨before, behind, htext, hstart, hstop⟩⟩
    · -- The range does not end before it starts, so that nothing is between the two.
      rw [Text.utf8Size_append] at hstart
      obtain rfl : extra = [] := Text.utf8Size_eq_zero_iff.mp (by omega)
      exact ⟨[],
        Text.slice?_eq_some_iff.mpr ⟨first, rest, htext', hstart, by rwa [List.append_nil]⟩⟩

/-- A character ends one byte behind its start if it has one byte. -/
theorem isBoundary_succ_iff {before : Text} {c : Char} {behind : Text}
    (h : s.text = before ++ c :: behind) :
    s.IsBoundary (before.utf8Size + 1) ↔ c.utf8Size = 1 := by
  have hpos := c.utf8Size_pos
  constructor
  · rintro ⟨first, second, htext, hsize⟩
    by_contra hne
    have hinside := Text.isBoundary_inside before c behind (Nat.succ_pos 0) (by omega)
    rw [← h, htext, ← hsize, Text.isBoundary_append] at hinside
    cases hinside
  · intro hone
    refine ⟨before ++ [c], behind, by rw [h, List.append_assoc]; rfl, ?_⟩
    rw [Text.utf8Size_append, Text.utf8Size_cons, Text.utf8Size_nil, hone]

end Source

/-- `e.span` is the first byte of a construct that is open at the end of the text. -/
def TokenizeError.span (e : TokenizeError) : Span := ⟨e.offset, e.offset + 1⟩

/-- Tokens that stand one behind the other stand in ranges. -/
theorem Token.Placed.isRange {s : Source} {tokens : List Token} {start stop : Nat}
    (h : Placed s start tokens stop) : ∀ t ∈ tokens, s.IsRange t.span := by
  induction h with
  | nil => exact List.forall_mem_nil _
  | cons hboundary _ hspan hrest ih =>
      refine List.forall_mem_cons.mpr ⟨?_, ih⟩
      have hstop := hrest.isBoundary_start
      rw [hspan] at hstop ⊢
      exact ⟨Nat.le_add_right _ _, hboundary, hstop⟩

/-- The tokens of a run stand one behind the other up to where it stops, and a construct that it
fails on starts with a character of one byte. -/
theorem Token.placed_run_stop (s : Source) (policy : OpenPolicy) :
    ∃ stop, Placed s 0 (run s.text policy).tokens stop ∧
      ∀ e ∈ (run s.text policy).failure, s.IsRange e.span := by
  obtain ⟨last, hreads, hstops, -⟩ := Lexer.stops_of_runFor (run s.text policy)
    (Lexer.isPlain_ofText s.text policy .stock) (Nat.le_add_left _ _) rfl
  refine ⟨last.position, hreads.placed [] rfl rfl, fun e he ↦ ?_⟩
  rw [Option.mem_def.mp he] at hstops
  have hplaced := hreads.placed (s := s) [] rfl rfl
  have hposition : last.position = (spelling (run s.text policy).tokens).utf8Size :=
    hplaced.stop_eq.trans (Nat.zero_add _)
  have htext : s.text = spelling (run s.text policy).tokens ++ last.rest := hreads.rest_eq
  cases hstops with
  | @failure _ construct c text hrest hscan _ =>
      have hone : ∀ d ∈ ['(', '"', '\'', '/'], d.utf8Size = 1 := by
        simp only [List.forall_mem_cons]
        exact ⟨rfl, rfl, rfl, rfl, List.forall_mem_nil _⟩
      have hsize := hone c (Scan.mem_openers_of_unclosed hscan)
      rw [hrest] at htext
      refine ⟨Nat.le_succ _, hplaced.isBoundary_stop, ?_⟩
      show s.IsBoundary (last.position + 1)
      rw [hposition]
      exact (Source.isBoundary_succ_iff htext).mpr hsize

/-! ## The ranges that statements name -/

/-- `e.ranges` is the range of the construct that the parameters of an at-rule end at. -/
def AtRuleEnd.ranges : AtRuleEnd → List Span
  | failure e => [e.span]
  | semicolon _ | block _ | close _ | input => []

namespace Statement

/-- `x.ranges` are the ranges that a statement names besides its tokens: where a declaration ends,
a bracket that is open, and a construct that is open. -/
def ranges : Statement → List Span
  | declaration _ _ terminator opened => .point terminator :: opened.toList
  | stray _ opened => opened.toList
  | atRule _ _ ending => ending.ranges
  | failure e => [e.span]
  | space _ | semicolon _ | close _ | comment _ | rule _ _ => []

/-- `x.IsWithin s` says that the tokens of a statement and all that it names are ranges of a
source. -/
structure IsWithin (s : Source) (x : Statement) : Prop where
  tokens : ∀ t ∈ x.tokens, s.IsRange t.span
  ranges : ∀ span ∈ x.ranges, s.IsRange span

variable {s : Source} {failure : Option TokenizeError} {t : Token} {rest : List Token}
  {start stop size : Nat}

/-- A bracket that a gathering leaves open is one of its tokens, or was open before. -/
theorem Gathered.opened_gather (custom colon : Bool) (expected : List TokenKind)
    (opened : Option Span) (tokens : List Token) :
    ∀ span ∈ (gather custom colon expected opened tokens).opened,
      span ∈ opened ∨ ∃ t ∈ tokens, t.span = span := by
  induction tokens generalizing colon expected opened with
  | nil => exact fun span h ↦ .inl h
  | cons t rest ih =>
      intro span
      -- Behind the token a bracket is open that was open before, or the token itself.
      have hlater {colon : Bool} {expected : List TokenKind} {inner : Option Span}
          (hinner : ∀ span ∈ inner, span ∈ opened ∨ t.span = span)
          (h : span ∈ (gather custom colon expected inner rest).opened) :
          span ∈ opened ∨ ∃ u ∈ t :: rest, u.span = span := by
        rcases ih _ _ _ span h with h | ⟨u, hu, hspan⟩
        · exact (hinner span h).imp_right fun hspan ↦ ⟨t, List.mem_cons_self, hspan⟩
        · exact .inr ⟨u, List.mem_cons_of_mem t hu, hspan⟩
      simp only [gather]
      split
      · refine hlater fun span h ↦ ?_
        cases opened with
        | none => exact .inr (Option.some.inj h)
        | some first => exact .inl h
      · split
        · exact .inl
        · exact .inl
        · exact .inl
        · exact hlater fun span h ↦ .inl h
        · exact hlater fun span h ↦ .inl h
      · split
        · refine hlater fun span h ↦ ?_
          split at h
          · cases h
          · exact .inl h
        · exact hlater fun span h ↦ .inl h

theorem ranges_settle (custom : Bool) (tokens : List Token) (terminator : Nat)
    (opened : Option Span) (colon : Bool) (rest : List Token) :
    ∀ span ∈ (settle custom tokens terminator opened colon rest).1.ranges,
      span = .point terminator ∨ span ∈ opened := by
  intro span h
  cases colon with
  | false => exact .inr (Option.mem_toList.mp h)
  | true => cases custom <;> exact (List.mem_cons.mp h).imp_right Option.mem_toList.mp

/-- An error behind a rule or a declaration matters only where the tokens end. -/
theorem other_eq_or (size : Nat) (failure : Option TokenizeError) (t : Token)
    (rest : List Token) :
    other size failure t rest = other size none t rest ∨
      ∃ e, failure = some e ∧ other size failure t rest = (.failure e, []) := by
  cases failure with
  | none => exact .inl rfl
  | some e =>
      simp only [other]
      generalize Gathered.gather (isCustom t) false [] none (t :: rest) = gathered
      obtain ⟨tokens, ending, colon, opened, behind⟩ := gathered
      cases ending with
      | semicolon | brace | close => exact .inl rfl
      | input => exact .inr ⟨e, rfl, rfl⟩

/-- The tokens of a statement and what follows are the tokens that were read, or an error cuts the
statement off. -/
theorem tokens_first_or (size : Nat) (failure : Option TokenizeError) (t : Token)
    (rest : List Token) :
    (first size failure t rest).1.tokens ++ (first size failure t rest).2 = t :: rest ∨
      ∃ e, failure = some e ∧ first size failure t rest = (.failure e, []) := by
  simp only [first]
  split
  case h_6 => exact .inl (congrArg (t :: ·) (Params.tokens_gather failure [] rest))
  case h_7 =>
    rcases other_eq_or size failure t rest with h | h
    · rw [h]
      exact .inl (tokens_other size t rest)
    · exact .inr h
  all_goals exact .inl rfl

theorem ranges_other (hplaced : Token.Placed s start (t :: rest) stop) :
    ∀ span ∈ (other s.size none t rest).1.ranges, s.IsRange span := by
  have htokens := hplaced.isRange
  have hgather := Gathered.tokens_gather (isCustom t) false [] none (t :: rest)
  have hopened := Gathered.opened_gather (isCustom t) false [] none (t :: rest)
  simp only [other]
  generalize Gathered.gather (isCustom t) false [] none (t :: rest) =
    gathered at hgather hopened ⊢
  obtain ⟨tokens, ending, colon, opened, behind⟩ := gathered
  have hopen : ∀ span ∈ opened, s.IsRange span := by
    intro span h
    obtain ⟨u, hu, rfl⟩ := (hopened span h).resolve_left (Option.not_mem_none span)
    exact htokens u hu
  cases ending with
  | semicolon u =>
      have hu : s.IsRange u.span := by
        refine htokens u (hgather ▸ ?_)
        simp [GatherEnd.tokens]
      cases colon with
      | false => exact List.forall_mem_nil _
      | true =>
          exact List.forall_mem_cons.mpr ⟨hu.start.isRange_point, List.forall_mem_nil _⟩
  | brace b => exact List.forall_mem_nil _
  | close =>
      intro span h
      rcases ranges_settle _ _ _ _ _ _ span h with rfl | h
      · cases behind with
        | nil => exact s.isBoundary_size.isRange_point
        | cons u behind =>
            have hu : u ∈ t :: rest := hgather ▸ List.mem_append_right _ List.mem_cons_self
            exact (htokens u hu).start.isRange_point
      · exact absurd h (Option.not_mem_none span)
  | input =>
      intro span h
      rcases ranges_settle _ _ _ _ _ _ span h with rfl | h
      · exact s.isBoundary_size.isRange_point
      · exact hopen span h

/-- The first statement of a run names ranges of the source, and what follows it stands in the
source. -/
theorem isWithin_first (hplaced : Token.Placed s start (t :: rest) stop)
    (hfailure : ∀ e ∈ failure, s.IsRange e.span) :
    (first s.size failure t rest).1.IsWithin s ∧
      ∃ middle, Token.Placed s middle (first s.size failure t rest).2 stop := by
  rcases tokens_first_or s.size failure t rest with happend | ⟨e, rfl, hcut⟩
  · have hsplit := hplaced
    rw [← happend] at hsplit
    obtain ⟨middle, htokens, hbehind⟩ := hsplit.split
    refine ⟨⟨htokens.isRange, ?_⟩, middle, hbehind⟩
    simp only [first]
    split
    case h_6 =>
      intro span h
      have hfits := Params.fits_gather failure [] rest
      generalize Params.gather failure [] rest = params at h hfits
      obtain ⟨_, ending, _⟩ := params
      cases ending with
      | failure e =>
          obtain rfl := List.mem_singleton.mp h
          exact hfailure e hfits
      | semicolon | block | close | input => cases h
    case h_7 =>
      rcases other_eq_or s.size failure t rest with h | ⟨e, rfl, h⟩
      · rw [h]
        exact ranges_other hplaced
      · rw [h]
        exact List.forall_mem_singleton.mpr (hfailure e rfl)
    all_goals exact List.forall_mem_nil _
  · rw [hcut]
    exact ⟨⟨List.forall_mem_nil _, List.forall_mem_singleton.mpr (hfailure e rfl)⟩, stop,
      .nil hplaced.isBoundary_stop⟩

theorem isWithin_of_mem_group {steps : Nat} {tokens : List Token}
    (hplaced : Token.Placed s start tokens stop) (hfailure : ∀ e ∈ failure, s.IsRange e.span) :
    ∀ x ∈ group s.size failure steps tokens, x.IsWithin s := by
  induction steps generalizing start tokens with
  | zero => exact List.forall_mem_nil _
  | succ steps ih =>
      cases tokens with
      | nil =>
          intro x h
          obtain ⟨e, he, rfl⟩ := List.mem_map.mp h
          exact ⟨List.forall_mem_nil _,
            List.forall_mem_singleton.mpr (hfailure e (Option.mem_toList.mp he))⟩
      | cons t rest =>
          obtain ⟨hfirst, middle, hbehind⟩ := isWithin_first hplaced hfailure
          exact List.forall_mem_cons.mpr ⟨hfirst, ih hbehind⟩

/-- All statements of a source name ranges of it. -/
theorem isWithin_of_mem_ofRun (s : Source) (policy : OpenPolicy) :
    ∀ x ∈ ofRun s.size (Token.run s.text policy), x.IsWithin s := by
  obtain ⟨stop, hplaced, hfailure⟩ := Token.placed_run_stop s policy
  exact isWithin_of_mem_group hplaced hfailure

end Statement

/-! ## Located errors -/

namespace Source

/-- `s.Locates e` says that an error names a range of the source and the position of its start.
The range of a block that is not closed is the first byte of a character, any other one is cut
between characters. -/
structure Locates (s : Source) (e : ParseError) : Prop where
  position_eq : e.position = s.position e.span.start
  range : e.defect ≠ .unclosedBlock → s.IsRange e.span
  opening : e.defect = .unclosedBlock →
    s.IsBoundary e.span.start ∧ e.span.start < s.size ∧ e.span.stop = e.span.start + 1

/-- `s.LocatesAll x` says that a computation fails only with errors that are located in `s`. -/
def LocatesAll {α : Type} (s : Source) (x : Except ParseError α) : Prop :=
  ∀ e, x = .error e → s.Locates e

variable {s : Source} {α β : Type}

theorem locatesAll_ok (x : α) : s.LocatesAll (.ok x) := nofun

/-- Behind a computation that fails only so another one may follow. -/
theorem LocatesAll.bind {x : Except ParseError α} {f : α → Except ParseError β}
    (hx : s.LocatesAll x) (hf : ∀ y, x = .ok y → s.LocatesAll (f y)) :
    s.LocatesAll (x >>= f) := by
  cases x with
  | error e => exact fun e' h ↦ hx e' (by cases h; rfl)
  | ok y => exact hf y rfl

theorem locates_place {defect : Defect} {span : Span} (hspan : s.IsRange span)
    (h : defect ≠ .unclosedBlock) : s.Locates (ParseError.place s defect span) :=
  ⟨rfl, fun _ ↦ hspan, fun heq ↦ absurd heq h⟩

theorem locates_ofTokenizeError {e : TokenizeError} (h : s.IsRange e.span) :
    s.Locates (ParseError.ofTokenizeError s e) :=
  locates_place h (by cases e.construct <;> nofun)

end Source

namespace Assembly

variable {a b : Assembly} {t : Token} {tokens : List Token} {opened : Option Span}
  {terminator : Nat}

theorem locatesAll_report {defect : Defect} {span : Span} (hspan : a.source.IsRange span)
    (h : defect ≠ .unclosedBlock) (node : Option NodeId) :
    a.source.LocatesAll (a.report defect span node) := by
  intro e he
  unfold report at he
  split at he
  · cases he
    exact Source.locates_place hspan h
  · cases he

theorem locatesAll_reportOpened (h : ∀ span ∈ opened, a.source.IsRange span) :
    a.source.LocatesAll (a.reportOpened opened) := by
  cases opened with
  | none => exact Source.locatesAll_ok a
  | some span => exact locatesAll_report (h span rfl) (by nofun) none

theorem locatesAll_stray (h : ∀ t ∈ tokens, a.source.IsRange t.span) :
    a.source.LocatesAll (a.stray tokens) := by
  cases tokens with
  | nil => exact Source.locatesAll_ok a
  | cons t rest =>
      exact (locatesAll_report (h t List.mem_cons_self) (by nofun) none).bind
        fun b _ ↦ Source.locatesAll_ok _

theorem locatesAll_closeBlock (h : a.source.IsRange t.span) :
    a.source.LocatesAll (a.closeBlock t) := by
  unfold closeBlock
  cases a.enclosing with
  | cons outer enclosing => exact Source.locatesAll_ok _
  | nil =>
      refine Source.LocatesAll.bind ?_ fun b _ ↦ Source.locatesAll_ok _
      exact locatesAll_report (by exact h) (by nofun) _

theorem locatesAll_atRule {word : Token} {params : List Token} {ending : AtRuleEnd}
    (h : (Statement.atRule word params ending).IsWithin a.source) :
    a.source.LocatesAll (a.atRule word params ending) := by
  have hword : a.source.IsRange word.span := h.tokens word List.mem_cons_self
  rw [atRule_eq]
  refine Source.LocatesAll.bind ?_ fun b hb ↦ ?_
  · split
    · exact locatesAll_report hword (by nofun) _
    · exact Source.locatesAll_ok a
  · have hsource : b.source = a.source := by
      split at hb
      · exact (steps_report hb).source_eq
      · cases hb
        rfl
    rw [← hsource] at h ⊢
    unfold atRuleBody
    cases ending with
    | semicolon | block => exact Source.locatesAll_ok _
    | close t =>
        exact locatesAll_closeBlock (h.tokens t (by simp [Statement.tokens, AtRuleEnd.tokens]))
    | input =>
        dsimp only
        split <;> exact Source.locatesAll_ok _
    | failure e =>
        intro e' he
        cases he
        exact Source.locates_ofTokenizeError (h.ranges e.span (List.mem_singleton_self _))

/-! ## Declarations -/

theorem locatesAll_reportColon {value : List Token} (h : ∀ t ∈ value, a.source.IsRange t.span)
    (id : NodeId) : a.source.LocatesAll (a.reportColon value id) := by
  unfold reportColon
  split
  · next t ht =>
      obtain ⟨hhead, -⟩ := Option.filter_eq_some_iff.mp ht
      exact locatesAll_report (h t (List.mem_of_head? hhead)) (by nofun) _
  · exact Source.locatesAll_ok a

/-- A semicolon is missed at the start or the end of a token. -/
theorem isBoundary_missedAt {s : Source} {before : List Token}
    (h : ∀ t ∈ before, s.IsRange t.span) : s.IsBoundary (missedAt before) := by
  unfold missedAt
  dsimp only
  split
  · next t ht =>
      have hmem : t ∈ before := by
        split at ht
        · next u v more hfilter =>
            cases ht
            have hv : t ∈ before.reverse.filter (!·.is .space) :=
              hfilter ▸ List.mem_cons_of_mem u List.mem_cons_self
            exact List.mem_reverse.mp (List.mem_filter.mp hv).1
        · exact List.mem_of_head? ht
      split
      · exact (h t hmem).stop
      · exact (h t hmem).start
  · exact s.isBoundary_zero

theorem locatesAll_checkColons {custom : Bool} {value : Text}
    (h : ∀ t ∈ tokens, a.source.IsRange t.span) (id : NodeId) :
    a.source.LocatesAll (a.checkColons custom value tokens id) := by
  unfold checkColons
  split
  · refine (locatesAll_reportColon h id).bind fun b hb ↦ ?_
    rw [← (steps_reportColon hb).source_eq] at h ⊢
    split
    · next before behind hsecond =>
        refine locatesAll_report (isBoundary_missedAt fun t ht ↦ h t ?_).isRange_point
          (by nofun) _
        rw [← (secondColon_append hsecond).1]
        exact List.mem_append_left _ ht
    · exact Source.locatesAll_ok _
  · exact Source.locatesAll_ok a

theorem locatesAll_checkValue {custom : Bool} {value : Text} (h : a.source.IsBoundary terminator)
    (id : NodeId) : a.source.LocatesAll (a.checkValue custom value terminator id) := by
  unfold checkValue
  split
  · exact locatesAll_report h.isRange_point (by nofun) _
  · exact Source.locatesAll_ok a

theorem locatesAll_unknownWords {words : List Token} (h : ∀ t ∈ words, a.source.IsRange t.span)
    (id : NodeId) :
    a.source.LocatesAll
      (words.foldlM (fun a t ↦ a.report (.unknownWord t.text) t.span (some id)) a) := by
  induction words generalizing a with
  | nil => exact Source.locatesAll_ok a
  | cons t words ih =>
      rw [List.foldlM_cons]
      refine (locatesAll_report (h t List.mem_cons_self) (by nofun) _).bind fun b hb ↦ ?_
      rw [← (steps_report hb).source_eq] at h ⊢
      exact ih fun u hu ↦ h u (List.mem_cons_of_mem t hu)

/-- Strict assembly finds the defects of a declaration at its tokens and where it ends. -/
theorem locatesAll_declare (hmode : a.mode = .strict) {cuts : Nat} {custom : Bool}
    (htokens : ∀ t ∈ tokens, a.source.IsRange t.span)
    (hterminator : a.source.IsBoundary terminator) :
    a.source.LocatesAll (declare cuts a tokens custom terminator) := by
  have hbody : ∀ t ∈ Statement.bodyOf tokens, a.source.IsRange t.span := by
    obtain ⟨ending, -, happend⟩ := Statement.bodyOf_append tokens
    exact fun t ht ↦ htokens t (happend ▸ List.mem_append_left ending ht)
  cases cuts with
  | zero => exact Source.locatesAll_ok a
  | succ cuts =>
      unfold declare
      unfold Statement.bodyOf at hbody
      simp only [hmode, reduceCtorEq, false_and, if_false]
      generalize (if tokens.getLast?.any (·.is .semicolon) =
        true then tokens.dropLast else tokens) = body at hbody ⊢
      cases hparts : Parts.ofTokens? body with
      | none =>
          exact locatesAll_stray fun t ht ↦
            hbody t (List.mem_of_getLast? (Option.mem_toList.mp ht))
      | some parts =>
          rw [← Parts.tokens_ofTokens? hparts] at hbody
          have hcolon : ∀ t ∈ parts.unknownWords, a.source.IsRange t.span := fun t ht ↦
            hbody t (by simp [Parts.tokens, (List.mem_filter.mp ht).1])
          have hvalue : ∀ t ∈ (takeImportant parts.value).tokens, a.source.IsRange t.span :=
            fun t ht ↦
            hbody t (by simp [Parts.tokens, (prefix_takeImportant parts.value).mem ht])
          refine (locatesAll_unknownWords hcolon a.created).bind fun b hb ↦ ?_
          obtain ⟨-, rfl⟩ := unknownWords_eq_nil hmode hb
          simp only [splitValue, hmode]
          refine Source.LocatesAll.bind (Source.locatesAll_ok _) fun c hc ↦ ?_
          cases hc
          refine Source.LocatesAll.bind (Source.locatesAll_ok _) fun c hc ↦ ?_
          cases hc
          refine Source.LocatesAll.bind (locatesAll_checkColons (by exact hvalue) _) fun c hc ↦ ?_
          have hsource : c.source = b.source := (steps_checkColons hc).source_eq
          rw [← hsource] at hterminator ⊢
          exact locatesAll_checkValue hterminator _

/-! ## Whole runs -/

/-- What strict assembly finds wrong with a statement is where the statement is. -/
theorem locatesAll_add (hmode : a.mode = .strict) {statement : Statement}
    (h : statement.IsWithin a.source) : a.source.LocatesAll (a.add statement) := by
  cases statement with
  | space | semicolon | comment | rule => exact Source.locatesAll_ok _
  | close t => exact locatesAll_closeBlock (h.tokens t (List.mem_singleton_self t))
  | atRule word params ending => exact locatesAll_atRule h
  | declaration tokens custom terminator opened =>
      obtain ⟨hterminator, hopened⟩ := List.forall_mem_cons.mp h.ranges
      refine (locatesAll_reportOpened fun span hspan ↦
        hopened span (Option.mem_toList.mpr hspan)).bind fun b hb ↦ ?_
      obtain ⟨-, rfl⟩ := reportOpened_eq_ok hmode hb
      exact locatesAll_declare hmode h.tokens hterminator.start
  | stray tokens opened =>
      refine (locatesAll_reportOpened fun span hspan ↦
        h.ranges span (Option.mem_toList.mpr hspan)).bind
        fun b hb ↦ ?_
      obtain ⟨-, rfl⟩ := reportOpened_eq_ok hmode hb
      exact locatesAll_stray h.tokens
  | failure e =>
      intro e' he
      cases he
      exact Source.locates_ofTokenizeError (h.ranges e.span (List.mem_singleton_self _))

theorem locatesAll_foldlM_add (hmode : a.mode = .strict) {statements : List Statement}
    (h : ∀ x ∈ statements, x.IsWithin a.source) :
    a.source.LocatesAll (statements.foldlM add a) := by
  induction statements generalizing a with
  | nil => exact Source.locatesAll_ok a
  | cons statement statements ih =>
      obtain ⟨hfirst, hrest⟩ := List.forall_mem_cons.mp h
      rw [List.foldlM_cons]
      refine (locatesAll_add hmode hfirst).bind fun b hb ↦ ?_
      have hsteps := steps_add hb
      rw [← hsteps.source_eq] at hrest ⊢
      exact ih (hsteps.mode_eq.trans hmode) hrest

/-- At the end of the text the innermost block that is open is told by its first byte. -/
theorem locatesAll_finish (hmode : a.mode = .strict) (hread : a.ReadTo a.source.size)
    {run : TokenRun} (hrun : ∀ t ∈ run.tokens, t.healed = false) :
    a.source.LocatesAll (a.finish run) := by
  cases henclosing : a.enclosing with
  | nil =>
      rw [finish_of_enclosing henclosing]
      unfold reportHealed
      split
      · next t ht =>
          rw [if_neg (by rw [hrun t (List.mem_of_getLast? ht)]; exact Bool.false_ne_true)]
          exact Source.locatesAll_ok _
      · exact Source.locatesAll_ok _
  | cons outer enclosing =>
      unfold ReadTo at hread
      rw [henclosing] at hread
      obtain ⟨start, ⟨⟨hboundary, horigin⟩, -⟩, hlt, -⟩ := hread
      have hspan : a.openingSpan a.current.node = ⟨start, start + 1⟩ := by
        obtain ⟨origin, hsome, hstart⟩ := Option.map_eq_some_iff.mp horigin
        have hoffset : origin.start.offset = start := by rw [hstart, hboundary.offset_position]
        simp only [openingSpan, hsome, Option.map_some, Option.getD_some, hoffset]
        rw [Nat.min_eq_left hlt, Nat.max_eq_left (Nat.le_succ start)]
      have herror : a.finish run =
          .error (ParseError.place a.source .unclosedBlock ⟨start, start + 1⟩) := by
        simp only [finish, henclosing, reportOpen, hspan, report, hmode]
        rfl
      intro e he
      rw [herror] at he
      cases he
      exact ⟨rfl, fun h ↦ absurd rfl h, fun _ ↦ ⟨hboundary, hlt, rfl⟩⟩

end Assembly

/-- Strict reading fails with errors that are located in its source. -/
theorem locatesAll_parse (source : Source) : source.LocatesAll (parse source .strict) := by
  have hassemble : source.LocatesAll (assemble source .strict) := by
    have hwithin := Statement.isWithin_of_mem_ofRun source .fail
    have hstart : (Assembly.start source .strict).ReadTo 0 :=
      ⟨0, ⟨source.isBoundary_zero, congrArg some source.position_zero.symm⟩, Nat.le_refl 0⟩
    unfold assemble
    refine Source.LocatesAll.bind
      (Assembly.locatesAll_foldlM_add (a := .start source .strict) rfl hwithin) fun b hb ↦ ?_
    -- The statements are taken, so that no error ends the tokens and they reach up to the end.
    have hsteps := Assembly.steps_foldlM_add hb
    have hsource : b.source = source := hsteps.source_eq
    unfold Statement.ofRun at hb
    have hnone := Assembly.failure_eq_none_of_group (Nat.lt_succ_self _) hb
    have hplaced := Token.placed_run hnone
    rw [hnone] at hb
    have hread := hstart.group (Nat.lt_succ_self _) hplaced hb
    rw [← hsource] at hread
    have hlocates := Assembly.locatesAll_finish hsteps.mode_eq hread
      fun t ht ↦ Token.healed_of_mem_run hnone ht
    rw [hsource] at hlocates
    exact hlocates
  intro e he
  unfold parse at he
  cases hresult : assemble source .strict with
  | ok a =>
      rw [hresult] at he
      cases he
  | error e' =>
      rw [hresult] at he
      obtain rfl : e' = e := Except.error.inj he
      exact hassemble e' hresult

/-- An error of strict reading names a range within the source, and the position of its start,
which is between characters. The range can be sliced unless it is the first byte of a longer
character that a block which is not closed starts with. -/
theorem errors_located {source : Source} {e : ParseError} (h : parse source .strict = .error e) :
    e.span.start ≤ e.span.stop ∧ e.span.stop ≤ source.size ∧ source.IsBoundary e.span.start ∧
      e.position = source.position e.span.start ∧ e.position.offset = e.span.start ∧
      ((source.text.slice? e.span.start e.span.stop).isSome = true ↔
        source.IsBoundary e.span.stop) ∧
      (source.IsBoundary e.span.stop ↔
        ¬(e.defect = .unclosedBlock ∧ ∃ (before : Text) (c : Char) (behind : Text),
        source.text = before ++ c :: behind ∧ before.utf8Size = e.span.start ∧
        1 < c.utf8Size)) := by
  obtain ⟨hposition, hrange, hopening⟩ := locatesAll_parse source e h
  by_cases hdefect : e.defect = .unclosedBlock
  · obtain ⟨hstart, hlt, hstop⟩ := hopening hdefect
    have hle : e.span.start ≤ e.span.stop := hstop ▸ Nat.le_succ _
    refine ⟨hle, hstop ▸ hlt, hstart, hposition, by rw [hposition, hstart.offset_position],
      ?_, ?_⟩
    · rw [Source.isSome_slice?_iff]
      exact ⟨fun h ↦ h.stop, fun h ↦ ⟨hle, hstart, h⟩⟩
    · -- The character at the start is the one that decides.
      obtain ⟨before, rest, htext, hsize⟩ := hstart
      obtain ⟨c, behind, rfl⟩ : ∃ c behind, rest = c :: behind := by
        refine List.exists_cons_of_ne_nil fun hnil ↦ ?_
        rw [Source.size, htext, hnil, List.append_nil, hsize] at hlt
        exact Nat.lt_irrefl _ hlt
      have hpos := c.utf8Size_pos
      rw [hstop, ← hsize, Source.isBoundary_succ_iff htext]
      constructor
      · rintro hone ⟨-, before', c', behind', htext', hsize', hlong⟩
        have hc : Text.cut? before.utf8Size source.text = some (before', c' :: behind') :=
          Text.cut?_eq_some_iff.mpr ⟨htext', hsize'⟩
        rw [htext, Text.cut?_append] at hc
        cases hc
        omega
      · intro hnot
        by_contra hone
        exact hnot ⟨hdefect, before, c, behind, htext, rfl, by omega⟩
  · have hspan := hrange hdefect
    refine ⟨hspan.le, hspan.stop.le_size, hspan.start, hposition,
      by rw [hposition, hspan.start.offset_position], ⟨fun _ ↦ hspan.stop,
        fun _ ↦ Source.isSome_slice?_iff.mpr hspan⟩, fun _ h ↦ hdefect h.1, fun _ ↦ hspan.stop⟩

/-- A declaration without a value behind a name of longer characters is told by an empty range. -/
theorem errors_located_missingValue :
    ∃ e, parse { text := "é\x7bü:;\x7d".toList } .strict = .error e ∧ e.defect = .missingValue ∧
      e.span = .point 6 ∧
      (Text.slice? "é\x7bü:;\x7d".toList e.span.start e.span.stop).isSome = true := by
  have h : ∃ e, parse { text := "é\x7bü:;\x7d".toList } .strict = .error e := ⟨_, rfl⟩
  obtain ⟨e, he⟩ := h
  have hdefect : e.defect = .missingValue ∧ e.span = .point 6 := by
    cases he
    exact ⟨rfl, rfl⟩
  obtain ⟨-, -, -, -, -, hslice, hstop⟩ := errors_located he
  refine ⟨e, he, hdefect.1, hdefect.2, hslice.mpr (hstop.mpr fun hopen ↦ ?_)⟩
  rw [hdefect.1] at hopen
  cases hopen.1

/-- A block that starts with a character of two bytes and is not closed is told by a range that
ends within it. -/
theorem errors_located_opening :
    ¬∀ (source : Source) (e : ParseError), source.size < UInt32.size →
      parse source .strict = .error e → e.span.start ≤ e.span.stop ∧ e.span.stop ≤ source.size ∧
        source.IsBoundary e.span.start ∧ source.IsBoundary e.span.stop ∧
        e.position.offset = e.span.start ∧ e.position = source.position e.span.start := by
  intro h
  obtain ⟨-, -, -, hstop, -⟩ := h { text := "é\x7b".toList } _ (by decide) rfl
  have hsize : Char.utf8Size 'é' = 1 :=
    (Source.isBoundary_succ_iff (s := { text := "é\x7b".toList }) (List.nil_append _).symm).mp
      hstop
  revert hsize
  decide

end Stylesheet
