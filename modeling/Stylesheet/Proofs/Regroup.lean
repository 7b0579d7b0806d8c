import Stylesheet.Proofs.Bare
import Stylesheet.Proofs.Gathering

/-!
# Grouping the same tokens again

How a run of tokens is grouped depends on the kinds of the tokens, and for each statement only on
the tokens up to the one that ends it. So a statement with a token of its own at its end is
grouped again wherever the same tokens stand, whatever follows it (`Statement.Cut.again`). A
declaration is known by its tokens without the semicolon (`Statement.IsDeclared`): it is grouped
again with a semicolon, and also without one before the end of a block or of the text
(`IsDeclared.again_open`). In a statement that is grouped, every opening parenthesis has a closing
one behind it (`Statement.Cut.isCovered`).
-/

namespace Stylesheet

/-! ## Statements without their places -/

/-- `e.bare` is the end of an at-rule without the place of its token. -/
def AtRuleEnd.bare : AtRuleEnd → AtRuleEnd
  | semicolon t => semicolon t.bare
  | block t => block t.bare
  | close t => close t.bare
  | input => input
  | failure e => failure e

/-- The tokens that an at-rule ends with end it again. -/
theorem AtRuleEnd.fits_of_alike {ending : AtRuleEnd} {left : List Token}
    (hfits : ending.Fits none left) (hne : ending.tokens ≠ [])
    (hus : Token.Alike us ending.tokens) (behind : List Token) :
    ∃ e' : AtRuleEnd, us = e'.tokens ∧ e'.Fits none behind ∧ e'.bare = ending.bare := by
  cases ending with
  | semicolon s =>
      obtain ⟨u, rfl, hu⟩ := hus.singleton
      exact ⟨.semicolon u, rfl, (Token.kind_of_bare hu).trans hfits,
        congrArg AtRuleEnd.semicolon hu⟩
  | block s =>
      obtain ⟨u, rfl, hu⟩ := hus.singleton
      exact ⟨.block u, rfl, (Token.kind_of_bare hu).trans hfits, congrArg AtRuleEnd.block hu⟩
  | close s =>
      obtain ⟨u, rfl, hu⟩ := hus.singleton
      exact ⟨.close u, rfl, (Token.kind_of_bare hu).trans hfits, congrArg AtRuleEnd.close hu⟩
  | input | failure => exact absurd rfl hne

namespace Statement

/-- `s.bare` is a statement without its places. -/
def bare : Statement → Statement
  | space t => space t.bare
  | semicolon t => semicolon t.bare
  | close t => close t.bare
  | comment t => comment t.bare
  | atRule word params ending => atRule word.bare (params.map Token.bare) ending.bare
  | rule head brace => rule (head.map Token.bare) brace.bare
  | declaration tokens custom _ opened =>
      declaration (tokens.map Token.bare) custom 0 (opened.map fun _ ↦ ⟨0, 0⟩)
  | stray tokens opened => stray (tokens.map Token.bare) (opened.map fun _ ↦ ⟨0, 0⟩)
  | failure e => failure e

section Bare

variable {s : Statement}

theorem eq_space_of_bare {t : Token} (h : s.bare = (space t).bare) : ∃ u, s = space u := by
  cases s <;> simp [bare] at h
  exact ⟨_, rfl⟩

theorem eq_semicolon_of_bare {t : Token} (h : s.bare = (semicolon t).bare) :
    ∃ u, s = semicolon u := by
  cases s <;> simp [bare] at h
  exact ⟨_, rfl⟩

theorem eq_close_of_bare {t : Token} (h : s.bare = (close t).bare) : ∃ u, s = close u := by
  cases s <;> simp [bare] at h
  exact ⟨_, rfl⟩

theorem eq_comment_of_bare {t : Token} (h : s.bare = (comment t).bare) :
    ∃ u, s = comment u ∧ u.bare = t.bare := by
  cases s <;> simp [bare] at h
  exact ⟨_, rfl, h⟩

theorem eq_rule_of_bare {head : List Token} {brace : Token}
    (h : s.bare = (rule head brace).bare) : ∃ us u, s = rule us u ∧ Token.Alike us head := by
  cases s <;> simp [bare] at h
  exact ⟨_, _, rfl, h.1⟩

theorem eq_declaration_of_bare {tokens : List Token} {custom : Bool} {terminator : Nat}
    (h : s.bare = (declaration tokens custom terminator none).bare) :
    ∃ us terminator', s = declaration us custom terminator' none ∧ Token.Alike us tokens := by
  cases s <;> simp [bare] at h
  obtain ⟨hus, rfl, rfl⟩ := h
  exact ⟨_, _, rfl, hus⟩

theorem eq_atRule_of_bare {word : Token} {params : List Token} {ending : AtRuleEnd}
    (h : s.bare = (atRule word params ending).bare) :
    ∃ u us ending', s = atRule u us ending' ∧ u.bare = word.bare ∧ Token.Alike us params ∧
      ending'.bare = ending.bare := by
  cases s <;> simp [bare] at h
  exact ⟨_, _, _, rfl, h.1, h.2.1, h.2.2⟩

end Bare

/-- `s.Again stop us behind` says that the run `us ++ behind` starts with the statement `s`, but
for its places, and that `us` are its tokens. -/
def Again (s : Statement) (stop : Nat) (us behind : List Token) : Prop :=
  ∃ u vs s', us = u :: vs ∧ first stop none u (vs ++ behind) = (s', behind) ∧ s'.bare = s.bare

/-- `s.IsClosed` says that a statement has a token of its own that ends it, other than a
declaration. -/
def IsClosed : Statement → Prop
  | space _ | semicolon _ | close _ | comment _ | rule _ _ => True
  | atRule _ _ ending => ending.tokens ≠ []
  | declaration .. | stray .. | failure _ => False

variable {stop : Nat} {t u : Token} {rest behind us tokens : List Token} {statement : Statement}

theorem StartsOther.of_bare (h : StartsOther t) (hu : u.bare = t.bare) : StartsOther u := by
  have hkind := Token.kind_of_bare hu
  unfold StartsOther
  rw [hkind]
  exact h

theorem isCustom_of_bare (hu : u.bare = t.bare) : isCustom u = isCustom t := by
  rw [isCustom, Token.text_of_bare hu, isCustom]

theorem Gathered.through_of_alike (h : Token.Alike us tokens) (custom : Bool)
    (state : Bool × List TokenKind) : through custom state us = through custom state tokens := by
  rw [through, h.kinds, through]

theorem Params.through_of_alike (h : Token.Alike us tokens) (expected : List TokenKind) :
    through expected us = through expected tokens := by
  rw [through, h.kinds, through]

theorem StartsOther.first_eq (h : StartsOther t) (rest : List Token) :
    first stop none t rest = other stop none t rest := by
  obtain ⟨hspace, hsemicolon, hclose, hcomment, hopen, hat⟩ := h
  unfold first
  split <;> first | contradiction | rfl

/-! ## Statements with a token of their own at the end -/

/-- A token that is a statement of its own is one again. -/
theorem again_single {s : Token → Statement} (hfirst : ∀ {u : Token}, u.kind = t.kind →
      ∀ stop rest, first stop none u rest = (s u, rest))
    (hbare : ∀ {u : Token}, u.bare = t.bare → (s u).bare = (s t).bare) (hus : Token.Alike us [t])
    (stop : Nat) (behind : List Token) : (s t).Again stop us behind := by
  obtain ⟨u, rfl, hu⟩ := hus.singleton
  exact ⟨u, [], s u, rfl, hfirst (Token.kind_of_bare hu) stop behind, hbare hu⟩

/-- An at-rule whose parameters leave no bracket open is grouped up to what ends it. -/
theorem first_atRule {params : List Token} {ending : AtRuleEnd} (hkind : u.kind = .atWord)
    (hthrough : Params.through [] params = some []) (hfits : ending.Fits none behind)
    (stop : Nat) :
    first stop none u (params ++ (ending.tokens ++ behind)) =
      (.atRule u params ending, behind) := by
  unfold first
  simp only [hkind, Params.gather_of_through hthrough hfits]

theorem Cut.kind_atRule {word : Token} {params : List Token} {ending : AtRuleEnd}
    (hcut : Cut stop t rest (.atRule word params ending) behind) : word.kind = .atWord := by
  cases hcut with
  | atRule hkind hgather => exact hkind

theorem Cut.fits_atRule {word : Token} {params : List Token} {ending : AtRuleEnd}
    (hcut : Cut stop t rest (.atRule word params ending) behind) : ending.Fits none behind := by
  cases hcut with
  | atRule hkind hgather => exact hgather ▸ Params.fits_gather none [] rest

/-- An at-rule that a token ends has closed its brackets. -/
theorem Cut.through_atRule {word : Token} {params : List Token} {ending : AtRuleEnd}
    (hcut : Cut stop t rest (.atRule word params ending) behind) (hinput : ending ≠ .input) :
    Params.through [] params = some [] := by
  cases hcut with
  | atRule hkind hgather => exact Params.through_of_gather hgather hinput

/-- A rule gathers its head up to its brace. -/
theorem Cut.through_rule {head : List Token} {brace : Token}
    (hcut : Cut stop t rest (.rule head brace) behind) :
    brace.kind = .leftBrace ∧ (head = [] ∨ ∃ more colon, head = t :: more ∧ StartsOther t ∧
      Gathered.through (isCustom t) (false, []) head = some (colon, []) ∧
      Gathered.next? (isCustom t) (colon, []) .leftBrace = none) := by
  cases hcut with
  | block hkind => exact ⟨hkind, .inl rfl⟩
  | @rule _ _ colon opened _ hstarts hgather =>
      have hfits : (GatherEnd.brace brace).Fits behind := Gathered.fits_of_gather hgather
      obtain ⟨hthrough, -, hbrace⟩ := Gathered.through_of_gather hgather rfl nofun
      obtain ⟨more, hmore⟩ := hstarts.tokens_gather hgather
      exact ⟨hfits, .inr ⟨more, colon, hmore, hstarts, hthrough, hbrace brace rfl⟩⟩

/-- A statement that has a token of its own at its end is grouped again, whatever follows. -/
theorem Cut.again (hcut : Cut stop t rest statement behind) (hclosed : statement.IsClosed)
    (hus : Token.Alike us statement.tokens) (stop₂ : Nat) (behind₂ : List Token) :
    statement.Again stop₂ us behind₂ := by
  have hblock {b : Token} (hkind : b.kind = .leftBrace) (hus : Token.Alike us [b]) :
      (Statement.rule [] b).Again stop₂ us behind₂ :=
    again_single (s := .rule []) (fun hu _ _ ↦ by simp only [first, hu, hkind])
      (congrArg (Statement.rule [])) hus _ _
  cases statement with
  | space b =>
      cases hcut with
      | space hkind =>
          exact again_single (s := .space) (fun hu _ _ ↦ by simp only [first, hu, hkind])
            (congrArg Statement.space) hus _ _
  | semicolon b =>
      cases hcut with
      | semicolon hkind =>
          exact again_single (s := .semicolon) (fun hu _ _ ↦ by simp only [first, hu, hkind])
            (congrArg Statement.semicolon) hus _ _
  | close b =>
      cases hcut with
      | close hkind =>
          exact again_single (s := .close) (fun hu _ _ ↦ by simp only [first, hu, hkind])
            (congrArg Statement.close) hus _ _
  | comment b =>
      cases hcut with
      | comment hkind =>
          exact again_single (s := .comment) (fun hu _ _ ↦ by simp only [first, hu, hkind])
            (congrArg Statement.comment) hus _ _
  | atRule word params ending =>
      have hthrough := hcut.through_atRule (by rintro rfl; exact hclosed rfl)
      obtain ⟨u, vs, rfl, hu, hvs⟩ := hus.exists_cons
      obtain ⟨xs, ys, rfl, hxs, hys⟩ := hvs.exists_append
      obtain ⟨e', rfl, hfits, hbare⟩ :=
        AtRuleEnd.fits_of_alike hcut.fits_atRule hclosed hys behind₂
      rw [← Params.through_of_alike hxs] at hthrough
      refine ⟨u, xs ++ e'.tokens, .atRule u xs e', rfl, ?_, ?_⟩
      · rw [List.append_assoc]
        exact first_atRule ((Token.kind_of_bare hu).trans hcut.kind_atRule) hthrough hfits stop₂
      · show Statement.atRule u.bare (xs.map Token.bare) e'.bare = _
        rw [hu, hbare, show xs.map Token.bare = _ from hxs]
        rfl
  | rule head brace =>
      obtain ⟨hbrace, rfl | ⟨more, colon, rfl, hstarts, hthrough, hends⟩⟩ := hcut.through_rule
      · exact hblock hbrace hus
      obtain ⟨xs, ys, rfl, hxs, hys⟩ := hus.exists_append
      obtain ⟨b, rfl, hb⟩ := hys.singleton
      have hfits : (GatherEnd.brace b).Fits behind₂ := (Token.kind_of_bare hb).trans hbrace
      obtain ⟨u, vs, rfl, hu, -⟩ := hxs.exists_cons
      rw [← isCustom_of_bare hu, ← Gathered.through_of_alike hxs] at hthrough
      rw [← isCustom_of_bare hu] at hends
      have hgather := Gathered.gather_of_through hthrough hfits fun _ _ ↦ hends
      refine ⟨u, vs ++ [b], .rule (u :: vs) b, rfl, ?_, ?_⟩
      · rw [(hstarts.of_bare hu).first_eq, List.append_assoc]
        unfold other
        dsimp only
        rw [show Gathered.gather (isCustom u) false [] none (u :: (vs ++ ([b] ++ behind₂))) =
          _ from hgather]
      · show Statement.rule ((u :: vs).map Token.bare) b.bare = Statement.rule _ _
        rw [hb, show (u :: vs).map Token.bare = _ from hxs]
  | declaration | stray | failure => exact hclosed.elim

/-- A statement that has a token of its own at its end has closed its parentheses. -/
theorem Cut.isCovered (hcut : Cut stop t rest statement behind) (hclosed : statement.IsClosed) :
    Token.IsCovered statement.tokens := by
  have hsingle {v : Token} {kind : TokenKind} (hkind : v.kind = kind) (hne : kind ≠ .leftParen) :
      Token.IsCovered [v] :=
    Token.isCovered_singleton (hkind ▸ hne)
  cases statement with
  | space | semicolon | close | comment =>
      cases hcut
      next hkind => exact hsingle hkind (by decide)
  | atRule word params ending =>
      have hinput : ending ≠ .input := by
        rintro rfl
        exact hclosed rfl
      have hparams := (Params.isCovered_of_through (hcut.through_atRule hinput)).1
      have hfits := hcut.fits_atRule
      have hending : Token.IsCovered ending.tokens := by
        cases ending with
        | semicolon | block | close => exact hsingle hfits (by decide)
        | input | failure => trivial
      exact (hsingle hcut.kind_atRule (by decide)).append (hparams.append hending)
  | rule head brace =>
      obtain ⟨hbrace, rfl | ⟨more, colon, -, -, hthrough, -⟩⟩ := hcut.through_rule
      · exact hsingle hbrace (by decide)
      · exact (Gathered.isCovered_of_through hthrough).1.append (hsingle hbrace (by decide))
  | declaration | stray | failure => exact hclosed.elim

/-! ## Declarations -/

/-- `IsDeclared custom tokens` says that these tokens, without a semicolon, are what is gathered
of a declaration. -/
structure IsDeclared (custom : Bool) (tokens : List Token) : Prop where
  starts : ∃ t more, tokens = t :: more ∧ StartsOther t ∧ isCustom t = custom
  through : Gathered.through custom (false, []) tokens = some (true, [])

theorem IsDeclared.of_alike {custom : Bool} (h : IsDeclared custom tokens)
    (hus : Token.Alike us tokens) : IsDeclared custom us := by
  obtain ⟨t, more, rfl, hstarts, hcustom⟩ := h.starts
  obtain ⟨u, vs, rfl, hu, -⟩ := hus.exists_cons
  exact ⟨⟨u, vs, rfl, hstarts.of_bare hu, (isCustom_of_bare hu).trans hcustom⟩,
    (Gathered.through_of_alike hus custom _).trans h.through⟩

theorem bodyOf_concat {s : Token} (hs : s.kind = .semicolon) (tokens : List Token) :
    bodyOf (tokens ++ [s]) = tokens := by
  rw [bodyOf, if_pos, List.dropLast_concat]
  rw [List.getLast?_concat]
  exact beq_iff_eq.mpr hs

/-- The tokens of a declaration do not end with a semicolon of their own. -/
theorem IsDeclared.unended {custom : Bool} (h : IsDeclared custom tokens) :
    tokens.getLast?.any (·.is .semicolon) = false := by
  cases hlast : tokens.getLast? with
  | none => rfl
  | some s =>
      obtain ⟨front, rfl⟩ := List.getLast?_eq_some_iff.mp hlast
      exact beq_eq_false_iff_ne.mpr (Gathered.kind_ne_semicolon_of_through h.through
        (List.forall_mem_nil _) (List.forall_mem_nil _))

theorem IsDeclared.bodyOf_eq {custom : Bool} (h : IsDeclared custom tokens) :
    bodyOf tokens = tokens := by
  rw [bodyOf, h.unended]
  rfl

theorem GatherEnd.Settles.eq_none_of_input {ending : GatherEnd} {opened : Option Span}
    (h : ending.Settles opened none) (hinput : ending = .input) : opened = none := by
  rw [hinput] at h
  exact Eq.symm h

/-- A declaration without an open bracket ends with a semicolon or in front of the end of its
block, and its other tokens are gathered. -/
theorem Cut.isDeclared {custom : Bool} {terminator : Nat}
    (hcut : Cut stop t rest (.declaration tokens custom terminator none) behind) :
    IsDeclared custom (bodyOf tokens) ∧
      ((∃ s, tokens = bodyOf tokens ++ [s] ∧ s.kind = .semicolon) ∨
        tokens = bodyOf tokens ∧ EndsBlock behind) := by
  cases hcut with
  | @ended taken s opened _ hstarts hgather =>
      have hfits : (GatherEnd.semicolon s).Fits behind := Gathered.fits_of_gather hgather
      obtain ⟨hthrough, -⟩ := Gathered.through_of_gather hgather rfl nofun
      obtain ⟨more, rfl⟩ := hstarts.tokens_gather hgather
      rw [bodyOf_concat hfits]
      exact ⟨⟨⟨t, more, rfl, hstarts, rfl⟩, hthrough⟩, .inl ⟨s, rfl, hfits⟩⟩
  | @custom _ ending opened _ _ _ hstarts hgather hcustom hend hsettles =>
      obtain ⟨hthrough, -⟩ := Gathered.through_of_gather hgather rfl hsettles.eq_none_of_input
      obtain ⟨more, rfl⟩ := hstarts.tokens_gather hgather
      have hdeclared : IsDeclared true (t :: more) := ⟨⟨t, more, rfl, hstarts, hcustom⟩, hthrough⟩
      rw [hdeclared.bodyOf_eq]
      exact ⟨hdeclared, .inr ⟨rfl, hend.endsBlock⟩⟩
  | @plain taken ending opened left _ _ hstarts hgather hcustom hend hsettles =>
      obtain ⟨hthrough, -⟩ := Gathered.through_of_gather hgather rfl hsettles.eq_none_of_input
      obtain ⟨more, rfl⟩ := hstarts.tokens_gather hgather
      obtain ⟨body, hbody⟩ := splitTrailing_cons_of_eq_false more hstarts.isTrivia_eq_false
      have htrivia := Token.forall_mem_splitTrailing_snd Token.isTrivia (t :: more)
      have happend := Token.splitTrailing_append Token.isTrivia (t :: more)
      rw [← happend, Gathered.through_append, Option.bind_eq_some_iff] at hthrough
      obtain ⟨state, hfirst, hrest⟩ := hthrough
      have hclosers : Gathered.AreClosers state.2 :=
        Gathered.areClosers_of_through hfirst (List.forall_mem_nil _)
      rw [Gathered.through_of_trivia hclosers htrivia] at hrest
      cases hrest
      have hdeclared : IsDeclared false (Token.splitTrailing Token.isTrivia (t :: more)).1 :=
        ⟨⟨t, body, hbody, hstarts, hcustom⟩, hfirst⟩
      rw [hdeclared.bodyOf_eq]
      exact ⟨hdeclared, .inr ⟨rfl, hend.endsBlock_splitTrailing _⟩⟩

theorem declaration_bare_eq {custom : Bool} {terminator terminator₂ : Nat}
    (hus : Token.Alike us tokens) : (declaration us custom terminator₂ none).bare =
      (declaration tokens custom terminator none).bare := by
  show declaration (us.map Token.bare) custom 0 none = declaration _ custom 0 none
  rw [show us.map Token.bare = _ from hus]

/-- A declaration with a semicolon is grouped again, whatever follows. -/
theorem IsDeclared.again_ended {custom : Bool} (h : IsDeclared custom tokens) {s : Token}
    (hs : s.kind = .semicolon) (hus : Token.Alike us (tokens ++ [s])) (terminator stop : Nat)
    (behind : List Token) :
    (declaration (tokens ++ [s]) custom terminator none).Again stop us behind := by
  obtain ⟨xs, ys, rfl, hxs, hys⟩ := hus.exists_append
  obtain ⟨v, rfl, hv⟩ := hys.singleton
  obtain ⟨⟨u, vs, rfl, hstarts, rfl⟩, hthrough⟩ := h.of_alike hxs
  have hfits : (GatherEnd.semicolon v).Fits behind := (Token.kind_of_bare hv).trans hs
  have hgather := Gathered.gather_of_through hthrough hfits nofun
  refine ⟨u, vs ++ [v], .declaration (u :: vs ++ [v]) (isCustom u) v.span.start none, rfl, ?_,
    declaration_bare_eq (hxs.append hys)⟩
  rw [hstarts.first_eq, List.append_assoc]
  unfold other
  dsimp only
  rw [show Gathered.gather (isCustom u) false [] none (u :: (vs ++ ([v] ++ behind))) = _ from
    hgather]
  rfl

/-- A declaration without a semicolon is grouped again where white space and comments stand before
the end of a block or of the text. They would belong to a custom property, so that nothing may
stand there behind one. -/
theorem IsDeclared.again_open {custom : Bool} (h : IsDeclared custom tokens)
    {trivia left : List Token} (hcustom : custom = true → trivia = [])
    (hlast : custom = false → ∀ v ∈ tokens.getLast?, v.isTrivia = false)
    (htrivia : ∀ t ∈ trivia, t.isTrivia = true) (hend : AtBlockEnd left)
    (hus : Token.Alike us tokens) (terminator stop : Nat) :
    (declaration tokens custom terminator none).Again stop us (trivia ++ left) := by
  have hlast' : custom = false → ∀ v ∈ us.getLast?, v.isTrivia = false := by
    intro hplain v hv
    have hkind : us.getLast?.map Token.kind = tokens.getLast?.map Token.kind := by
      rw [← List.getLast?_map, ← List.getLast?_map, hus.kinds]
    rw [show us.getLast? = some v from hv, Option.map_some, eq_comm,
      Option.map_eq_some_iff] at hkind
    obtain ⟨w, hw, hkind⟩ := hkind
    rw [Token.isTrivia, ← hkind]
    exact hlast hplain w hw
  obtain ⟨⟨u, vs, rfl, hstarts, rfl⟩, hthrough⟩ := h.of_alike hus
  have hall : Gathered.through (isCustom u) (false, []) (u :: vs ++ trivia) =
      some (true, []) := by
    rw [Gathered.through_append, hthrough]
    exact Gathered.through_of_trivia (List.forall_mem_nil _) htrivia
  have hother : ∃ terminator₂, first stop none u (vs ++ (trivia ++ left)) =
      settle (isCustom u) (u :: vs ++ trivia) terminator₂ none true left := by
    rw [hstarts.first_eq, ← List.append_assoc]
    unfold other
    dsimp only
    rcases hend with rfl | ⟨v, more, rfl, hv⟩
    · have hgather := Gathered.gather_of_through hall (show GatherEnd.Fits [] .input from rfl)
        (by intro b h; cases h)
      rw [show Gathered.gather (isCustom u) false [] none (u :: (vs ++ trivia ++ [])) = _ from
        hgather]
      exact ⟨_, rfl⟩
    · have hgather := Gathered.gather_of_through hall
        (show GatherEnd.Fits (v :: more) .close from ⟨v, more, rfl, hv⟩) (by intro b h; cases h)
      rw [show Gathered.gather (isCustom u) false [] none (u :: (vs ++ trivia ++ v :: more)) =
        _ from hgather]
      exact ⟨_, rfl⟩
  obtain ⟨terminator₂, hother⟩ := hother
  refine ⟨u, vs, .declaration (u :: vs) (isCustom u) terminator₂ none, rfl, ?_,
    declaration_bare_eq hus⟩
  rw [hother]
  cases hc : isCustom u with
  | true =>
      rw [hcustom hc, List.append_nil]
      rfl
  | false =>
      unfold settle
      rw [Token.splitTrailing_append_of_forall htrivia (hlast' hc)]
      rfl

/-- A declaration has closed its parentheses. -/
theorem IsDeclared.isCovered {custom : Bool} (h : IsDeclared custom tokens) :
    Token.IsCovered tokens :=
  (Gathered.isCovered_of_through h.through).1

end Statement

end Stylesheet
