import Stylesheet.Statement.Basic

/-!
# How tokens are grouped into statements

`Statement.Cut` lists what the first statement of a run can be, with the tokens that it takes and
those that it leaves, and `first_cut` says that `first` decides on one of these. `EndsBlock` says
that only white space and comments stand before the end of a block or of the text; a declaration
without a semicolon leaves such tokens (`Cut.endsBlock`).
-/

namespace Stylesheet

/-- A computation that succeeds behind another one succeeds with what the first one computes. -/
theorem bind_eq_ok {ε α β : Type} {x : Except ε α} {f : α → Except ε β} {b : β} :
    x >>= f = .ok b ↔ ∃ a, x = .ok a ∧ f a = .ok b := by
  cases x with
  | error e => exact ⟨nofun, nofun⟩
  | ok a => exact ⟨fun h ↦ ⟨a, rfl, h⟩, fun ⟨_, ha, h⟩ ↦ by cases ha; exact h⟩

/-- `AtBlockEnd tokens` says that a run is at the end of a block or of the text. -/
def AtBlockEnd (tokens : List Token) : Prop :=
  tokens = [] ∨ ∃ t rest, tokens = t :: rest ∧ t.kind = .rightBrace

/-- `EndsBlock tokens` says that a run has only white space and comments before the end of a block
or of the text. -/
def EndsBlock (tokens : List Token) : Prop :=
  ∃ trivia rest, tokens = trivia ++ rest ∧ (∀ t ∈ trivia, t.isTrivia = true) ∧ AtBlockEnd rest

theorem AtBlockEnd.endsBlock {tokens : List Token} (h : AtBlockEnd tokens) : EndsBlock tokens :=
  ⟨[], tokens, rfl, nofun, h⟩

/-- Before the end of a block there is a closing brace or something that is skipped. -/
theorem EndsBlock.cons {t : Token} {rest : List Token} (h : EndsBlock (t :: rest)) :
    t.kind = .rightBrace ∨ t.isTrivia = true ∧ EndsBlock rest := by
  obtain ⟨trivia, behind, happend, htrivia, hend⟩ := h
  cases trivia with
  | nil =>
      rcases hend with rfl | ⟨u, more, rfl, hu⟩
      · cases happend
      · cases happend
        exact .inl hu
  | cons u trivia =>
      cases happend
      obtain ⟨ht, htrivia⟩ := List.forall_mem_cons.mp htrivia
      exact .inr ⟨ht, trivia, behind, rfl, htrivia, hend⟩

namespace Token

theorem forall_mem_splitTrailing_snd (p : Token → Bool) (tokens : List Token) :
    ∀ t ∈ (splitTrailing p tokens).2, p t = true := by
  intro t ht
  rw [splitTrailing, List.mem_reverse] at ht
  exact List.all_eq_true.mp List.all_takeWhile t ht

/-- A run is cut before the tokens at its end that something holds of. -/
theorem splitTrailing_append_of_forall {p : Token → Bool} {body trivia : List Token}
    (htrivia : ∀ t ∈ trivia, p t = true) (hlast : ∀ v ∈ body.getLast?, p v = false) :
    splitTrailing p (body ++ trivia) = (body, trivia) := by
  have hreverse : ∀ t ∈ trivia.reverse, p t = true := fun t ht ↦
    htrivia t (List.mem_reverse.mp ht)
  have hbody : body.reverse.dropWhile p = body.reverse ∧ body.reverse.takeWhile p = [] := by
    rw [← List.head?_reverse] at hlast
    cases hrev : body.reverse with
    | nil => exact ⟨rfl, rfl⟩
    | cons v rest =>
        rw [hrev] at hlast
        have hv := hlast v rfl
        exact ⟨List.dropWhile_cons_of_neg (by rw [hv]; exact Bool.false_ne_true),
          List.takeWhile_cons_of_neg (by rw [hv]; exact Bool.false_ne_true)⟩
  rw [splitTrailing, List.reverse_append, List.dropWhile_append_of_pos hreverse,
    List.takeWhile_append_of_pos hreverse, hbody.1, hbody.2, List.append_nil,
    List.reverse_reverse, List.reverse_reverse]

end Token

theorem AtBlockEnd.endsBlock_splitTrailing {behind : List Token} (h : AtBlockEnd behind)
    (tokens : List Token) : EndsBlock ((Token.splitTrailing Token.isTrivia tokens).2 ++ behind) :=
  ⟨_, _, rfl, Token.forall_mem_splitTrailing_snd _ _, h⟩

/-! ## The ends of what is gathered -/

/-- `e.Fits failure rest` says that the parameters of an at-rule that end with `e` can leave
`rest`. -/
def AtRuleEnd.Fits (failure : Option TokenizeError) (rest : List Token) : AtRuleEnd → Prop
  | .semicolon s => s.kind = .semicolon
  | .block b => b.kind = .leftBrace
  | .close t => t.kind = .rightBrace
  | .input => rest = [] ∧ failure = none
  | .failure e => failure = some e

namespace Statement

/-- `e.Fits rest` says that a gathering that ends with `e` can leave `rest`. -/
def GatherEnd.Fits (rest : List Token) : GatherEnd → Prop
  | .semicolon s => s.kind = .semicolon
  | .brace b => b.kind = .leftBrace
  | .close => ∃ t more, rest = t :: more ∧ t.kind = .rightBrace
  | .input => rest = []

theorem Gathered.fits_gather (custom colon : Bool) (expected : List TokenKind)
    (opened : Option Span) (tokens : List Token) :
    let gathered := Gathered.gather custom colon expected opened tokens
    gathered.ending.Fits gathered.rest := by
  induction tokens generalizing colon expected opened with
  | nil => rfl
  | cons t rest ih =>
      simp only [Gathered.gather]
      split
      · exact ih _ _ _
      · split
        · next h => exact h
        · next h => exact h
        · next h => exact ⟨t, rest, rfl, h⟩
        · exact ih _ _ _
        · exact ih _ _ _
      · split <;> exact ih _ _ _

theorem Gathered.fits_of_gather {custom colon colon' : Bool} {expected : List TokenKind}
    {opened opened' : Option Span} {tokens taken left : List Token} {ending : GatherEnd}
    (h : gather custom colon expected opened tokens = ⟨taken, ending, colon', opened', left⟩) :
    ending.Fits left := by
  have hfits := fits_gather custom colon expected opened tokens
  rwa [h] at hfits

/-- `e.Settles opened spans` says that a gathering ends with `e` without a token of its own, where
`spans` is what is known of the bracket `opened` that is still open. -/
def GatherEnd.Settles (opened spans : Option Span) : GatherEnd → Prop
  | .close => spans = none
  | .input => spans = opened
  | .semicolon _ | .brace _ => False

theorem GatherEnd.Settles.tokens_eq {ending : GatherEnd} {opened spans : Option Span}
    (h : ending.Settles opened spans) : ending.tokens = [] := by
  cases ending with
  | close | input => rfl
  | semicolon | brace => exact h.elim

theorem Params.fits_gather (failure : Option TokenizeError) (expected : List TokenKind)
    (tokens : List Token) :
    let params := Params.gather failure expected tokens
    params.ending.Fits failure params.rest := by
  induction tokens generalizing expected with
  | nil =>
      cases failure with
      | none => exact ⟨rfl, rfl⟩
      | some e => rfl
  | cons t rest ih =>
      simp only [Params.gather]
      split
      · split
        · next h => exact h
        · next h => exact h
        · next h => exact h
        · exact ih _
      · exact ih _

/-! ## The first statement -/

/-- `StartsOther t` says that a token starts a rule or a declaration. -/
def StartsOther (t : Token) : Prop :=
  t.kind ≠ .space ∧ t.kind ≠ .semicolon ∧ t.kind ≠ .rightBrace ∧ t.kind ≠ .comment ∧
    t.kind ≠ .leftBrace ∧ t.kind ≠ .atWord

/-- `Cut stop t rest statement behind` says that the first statement of the run `t :: rest` is
`statement` and leaves `behind`. -/
inductive Cut (stop : Nat) (t : Token) (rest : List Token) : Statement → List Token → Prop where
  | space (h : t.kind = .space) : Cut stop t rest (.space t) rest
  | semicolon (h : t.kind = .semicolon) : Cut stop t rest (.semicolon t) rest
  | close (h : t.kind = .rightBrace) : Cut stop t rest (.close t) rest
  | comment (h : t.kind = .comment) : Cut stop t rest (.comment t) rest
  | block (h : t.kind = .leftBrace) : Cut stop t rest (.rule [] t) rest
  | atRule {params} (h : t.kind = .atWord) (hgather : Params.gather none [] rest = params) :
      Cut stop t rest (.atRule t params.tokens params.ending) params.rest
  | rule {tokens brace colon opened behind} (h : StartsOther t)
      (hgather : Gathered.gather (isCustom t) false [] none (t :: rest) =
        ⟨tokens, .brace brace, colon, opened, behind⟩) :
      Cut stop t rest (.rule tokens brace) behind
  | ended {tokens s opened behind} (h : StartsOther t)
      (hgather : Gathered.gather (isCustom t) false [] none (t :: rest) =
        ⟨tokens, .semicolon s, true, opened, behind⟩) :
      Cut stop t rest (.declaration (tokens ++ [s]) (isCustom t) s.span.start none) behind
  | endedStray {tokens s opened behind} (h : StartsOther t)
      (hgather : Gathered.gather (isCustom t) false [] none (t :: rest) =
        ⟨tokens, .semicolon s, false, opened, behind⟩) :
      Cut stop t rest (.stray (tokens ++ [s]) none) behind
  | custom {tokens ending opened behind terminator spans} (h : StartsOther t)
      (hgather : Gathered.gather true false [] none (t :: rest) =
        ⟨tokens, ending, true, opened, behind⟩)
      (hcustom : isCustom t = true) (hend : AtBlockEnd behind)
      (hends : ending.Settles opened spans) :
      Cut stop t rest (.declaration tokens true terminator spans) behind
  | plain {tokens ending opened behind terminator spans} (h : StartsOther t)
      (hgather : Gathered.gather false false [] none (t :: rest) =
        ⟨tokens, ending, true, opened, behind⟩)
      (hcustom : isCustom t = false) (hend : AtBlockEnd behind)
      (hends : ending.Settles opened spans) :
      Cut stop t rest
        (.declaration (Token.splitTrailing Token.isTrivia tokens).1 false terminator spans)
        ((Token.splitTrailing Token.isTrivia tokens).2 ++ behind)
  | stray {tokens ending opened behind spans} (h : StartsOther t)
      (hgather : Gathered.gather (isCustom t) false [] none (t :: rest) =
        ⟨tokens, ending, false, opened, behind⟩) (hend : AtBlockEnd behind)
      (hends : ending.Settles opened spans) :
      Cut stop t rest (.stray tokens spans) behind

theorem settle_cut {stop : Nat} {t : Token} {rest tokens behind : List Token}
    {ending : GatherEnd} {colon : Bool} {opened spans : Option Span} {terminator : Nat}
    (h : StartsOther t)
    (hgather : Gathered.gather (isCustom t) false [] none (t :: rest) =
      ⟨tokens, ending, colon, opened, behind⟩)
    (hend : AtBlockEnd behind) (hends : ending.Settles opened spans) :
    Cut stop t rest (settle (isCustom t) tokens terminator spans colon behind).1
      (settle (isCustom t) tokens terminator spans colon behind).2 := by
  cases colon with
  | false => exact .stray h hgather hend hends
  | true =>
      by_cases hcustom : isCustom t = true
      · rw [hcustom] at hgather ⊢
        exact .custom h hgather hcustom hend hends
      · rw [Bool.eq_false_iff.mpr hcustom] at hgather ⊢
        exact .plain h hgather (Bool.eq_false_iff.mpr hcustom) hend hends

theorem other_cut (stop : Nat) {t : Token} (rest : List Token) (h : StartsOther t) :
    Cut stop t rest (other stop none t rest).1 (other stop none t rest).2 := by
  have hfits := Gathered.fits_gather (isCustom t) false [] none (t :: rest)
  simp only [other]
  generalize hgather : Gathered.gather (isCustom t) false [] none (t :: rest) = gathered
    at hfits ⊢
  obtain ⟨tokens, ending, colon, opened, behind⟩ := gathered
  cases ending with
  | semicolon s =>
      cases colon with
      | false => exact .endedStray h hgather
      | true => exact .ended h hgather
  | brace b => exact .rule h hgather
  | close => exact settle_cut h hgather (.inr hfits) rfl
  | input => exact settle_cut h hgather (.inl hfits) rfl

/-- The first statement of a run that no error ends is one of those that `Cut` lists. -/
theorem first_cut (stop : Nat) (t : Token) (rest : List Token) :
    Cut stop t rest (first stop none t rest).1 (first stop none t rest).2 := by
  simp only [first]
  split
  · next h => exact .space h
  · next h => exact .semicolon h
  · next h => exact .close h
  · next h => exact .comment h
  · next h => exact .block h
  · next h => exact .atRule h rfl
  · apply other_cut
    refine ⟨?_, ?_, ?_, ?_, ?_, ?_⟩ <;> assumption

variable {stop : Nat} {t : Token} {rest behind : List Token}

/-- A rule or a declaration gathers the token that it starts with. -/
theorem StartsOther.tokens_gather {custom colon : Bool} {tokens : List Token} {ending : GatherEnd}
    {opened : Option Span} (h : StartsOther t)
    (hgather : Gathered.gather custom false [] none (t :: rest) =
      ⟨tokens, ending, colon, opened, behind⟩) :
    ∃ more, tokens = t :: more := by
  obtain ⟨more, hmore⟩ :=
    Gathered.tokens_gather_cons custom false [] none rest h.2.1 h.2.2.2.2.1 h.2.2.1
  rw [hgather] at hmore
  exact ⟨more, hmore⟩

theorem StartsOther.isTrivia_eq_false (h : StartsOther t) : t.isTrivia = false := by
  unfold Token.isTrivia TokenKind.isTrivia
  split
  · next heq => exact absurd heq h.1
  · next heq => exact absurd heq h.2.2.2.1
  · rfl

theorem splitTrailing_cons_of_eq_false {p : Token → Bool} (tokens : List Token)
    (h : p t = false) : ∃ more, (Token.splitTrailing p (t :: tokens)).1 = t :: more := by
  have happend := Token.splitTrailing_append p (t :: tokens)
  have hlength := length_splitTrailing_le tokens h
  generalize hsplit : Token.splitTrailing p (t :: tokens) = split at happend hlength
  obtain ⟨body, trivia⟩ := split
  cases body with
  | nil =>
      have := congrArg List.length happend
      simp at this hlength
      omega
  | cons u body =>
      cases happend
      exact ⟨body, rfl⟩

/-- The tokens of the first statement and what it leaves are the run. -/
theorem Cut.tokens_append {statement : Statement} (h : Cut stop t rest statement behind) :
    statement.tokens ++ behind = t :: rest := by
  have hgathered {custom colon : Bool} {tokens : List Token} {ending : GatherEnd}
      {opened : Option Span} (hgather : Gathered.gather custom false [] none (t :: rest) =
        ⟨tokens, ending, colon, opened, behind⟩) : tokens ++ ending.tokens ++ behind =
          t :: rest := by
    have h := Gathered.tokens_gather custom false [] none (t :: rest)
    rw [hgather] at h
    exact h
  cases h with
  | space | semicolon | close | comment | block => rfl
  | atRule _ hgather =>
      subst hgather
      exact congrArg (t :: ·) (Params.tokens_gather none [] rest)
  | rule _ hgather | ended _ hgather | endedStray _ hgather => exact hgathered hgather
  | custom _ hgather _ _ hends | stray _ hgather _ hends =>
      have h := hgathered hgather
      rw [hends.tokens_eq, List.append_nil] at h
      exact h
  | @plain tokens _ opened left _ _ _ hgather _ _ hends =>
      have h := Gathered.tokens_gather false false [] none (t :: rest)
      rw [hgather] at h
      simp only [hends.tokens_eq, List.append_nil] at h
      rw [Statement.tokens, ← List.append_assoc, Token.splitTrailing_append, h]

/-- A declaration starts with the token that starts the statement. -/
theorem Cut.declaration_cons {tokens : List Token} {custom : Bool} {terminator : Nat}
    {opened : Option Span}
    (h : Cut stop t rest (.declaration tokens custom terminator opened) behind) :
    StartsOther t ∧ ∃ more, tokens = t :: more := by
  cases h with
  | ended h hgather =>
      obtain ⟨more, rfl⟩ := h.tokens_gather hgather
      exact ⟨h, _, rfl⟩
  | custom h hgather => exact ⟨h, h.tokens_gather hgather⟩
  | plain h hgather =>
      obtain ⟨more, rfl⟩ := h.tokens_gather hgather
      exact ⟨h, splitTrailing_cons_of_eq_false more h.isTrivia_eq_false⟩

/-- A declaration ends with a semicolon or in front of the end of its block. -/
theorem Cut.endsBlock {tokens : List Token} {custom : Bool} {terminator : Nat}
    {opened : Option Span}
    (h : Cut stop t rest (.declaration tokens custom terminator opened) behind) :
    tokens.getLast?.any (·.is .semicolon) = true ∨ EndsBlock behind := by
  cases h with
  | ended h hgather =>
      have hkind : Token.kind _ = .semicolon := Gathered.fits_of_gather hgather
      exact .inl (by simp [Token.is, hkind])
  | custom h hgather hcustom hend => exact .inr hend.endsBlock
  | plain h hgather hcustom hend => exact .inr (hend.endsBlock_splitTrailing _)

/-! ## Whole runs -/

/-- The error that ends a run is a statement of its own, if enough statements are asked for. -/
theorem failure_mem_group (stop : Nat) (e : TokenizeError) {steps : Nat} {tokens : List Token}
    (h : tokens.length < steps) : .failure e ∈ group stop (some e) steps tokens := by
  induction steps generalizing tokens with
  | zero => omega
  | succ steps ih =>
      cases tokens with
      | nil => simp [group]
      | cons t rest =>
          have hlength := length_first_le stop (some e) t rest
          simp only [List.length_cons] at h
          have hbehind : (first stop (some e) t rest).2.length < steps := by omega
          exact List.mem_cons_of_mem _ (ih hbehind)

end Statement

end Stylesheet
