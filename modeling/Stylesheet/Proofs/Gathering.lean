import Stylesheet.Proofs.Grouping

/-!
# Gathering as a fold

`Gathered.gather` and `Params.gather` look at the kinds of the tokens only, and all that they know
behind some tokens is which closers are expected and whether there was a colon. `Gathered.through`
and `Params.through` compute that from the tokens. A gathering goes on behind tokens as what is
known there says (`Gathered.gather_append`, `Params.gather_append`), and it ends only where no
closer is expected.
-/

namespace Stylesheet

namespace Token

/-- `IsCovered tokens` says that every opening parenthesis has a closing one behind it. -/
def IsCovered : List Token → Prop
  | [] => True
  | t :: rest => (t.kind = .leftParen → ∃ u ∈ rest, u.kind = .rightParen) ∧ IsCovered rest

theorem IsCovered.append {first second : List Token} (hfirst : IsCovered first)
    (hsecond : IsCovered second) : IsCovered (first ++ second) := by
  induction first with
  | nil => exact hsecond
  | cons t rest ih =>
      refine ⟨fun hkind ↦ ?_, ih hfirst.2⟩
      obtain ⟨u, hu, hclose⟩ := hfirst.1 hkind
      exact ⟨u, List.mem_append_left _ hu, hclose⟩

theorem IsCovered.of_append {first second : List Token} (h : IsCovered (first ++ second)) :
    IsCovered second := by
  induction first with
  | nil => exact h
  | cons t rest ih => exact ih h.2

theorem isCovered_of_forall {tokens : List Token} (h : ∀ t ∈ tokens, t.kind ≠ .leftParen) :
    IsCovered tokens := by
  induction tokens with
  | nil => trivial
  | cons t rest ih =>
      obtain ⟨ht, hrest⟩ := List.forall_mem_cons.mp h
      exact ⟨fun hkind ↦ absurd hkind ht, ih hrest⟩

theorem isCovered_singleton {t : Token} (h : t.kind ≠ .leftParen) : IsCovered [t] :=
  ⟨fun hkind ↦ absurd hkind h, trivial⟩

end Token

namespace Statement

/-! ## Rules and declarations -/

namespace Gathered

/-- `next? custom state kind` is what is known behind a gathered token: whether there is a colon,
and which closers are expected. It is `none` if a token of this kind ends the gathering. -/
def next? (custom : Bool) (state : Bool × List TokenKind) (kind : TokenKind) :
    Option (Bool × List TokenKind) :=
  match if kind = .leftBrace ∧ custom ∧ state.1 then some .rightBrace else closer? kind,
    state.2 with
  | some closer, expected => some (state.1, closer :: expected)
  | none, [] =>
      match kind with
      | .semicolon | .leftBrace | .rightBrace => none
      | .colon => some (true, [])
      | _ => some (state.1, [])
  | none, closer :: outer =>
      if kind = closer then some (state.1, outer) else some (state.1, closer :: outer)

/-- `through custom state tokens` is what is known behind gathered tokens. It is `none` if one of
them ends the gathering. -/
def through (custom : Bool) (state : Bool × List TokenKind) (tokens : List Token) :
    Option (Bool × List TokenKind) :=
  (tokens.map Token.kind).foldlM (next? custom) state

variable {custom colon : Bool} {expected : List TokenKind}
  {state next last : Bool × List TokenKind} {opened : Option Span} {t : Token}
  {tokens : List Token}

theorem through_cons (h : next? custom state t.kind = some next) (tokens : List Token) :
    through custom state (t :: tokens) = through custom next tokens := by
  rw [through, List.map_cons, List.foldlM_cons, h]
  rfl

theorem exists_next?_of_through (h : through custom state (t :: tokens) = some last) :
    ∃ next, next? custom state t.kind = some next ∧ through custom next tokens = some last :=
  Option.bind_eq_some_iff.mp h

theorem through_append (first second : List Token) :
    through custom state (first ++ second) =
      (through custom state first).bind fun next ↦ through custom next second := by
  rw [through, List.map_append, List.foldlM_append]
  rfl

/-- `ofEnd colon opened t rest` is a gathering that the token `t` ends. -/
def ofEnd (colon : Bool) (opened : Option Span) (t : Token) (rest : List Token) : Gathered :=
  match t.kind with
  | .semicolon => ⟨[], .semicolon t, colon, opened, rest⟩
  | .leftBrace => ⟨[], .brace t, colon, opened, rest⟩
  | _ => ⟨[], .close, colon, opened, t :: rest⟩

/-- `g.prepend tokens` is a gathering with more tokens at its start. -/
def prepend (tokens : List Token) (g : Gathered) :
    Gathered := { g with tokens := tokens ++ g.tokens }

/-- A token that does not end a gathering is gathered. A bracket is noted as open exactly if a
closer is expected. -/
theorem gather_of_next? (rest : List Token) (hopened : opened.isSome = !expected.isEmpty)
    (h : next? custom (colon, expected) t.kind = some next) :
    ∃ inner : Option Span, inner.isSome = !next.2.isEmpty ∧
      gather custom colon expected opened (t :: rest) =
        (gather custom next.1 next.2 inner rest).prepend [t] := by
  simp only [next?] at h
  simp only [gather]
  generalize (if t.kind = .leftBrace ∧ custom = true ∧ colon = true then some .rightBrace
    else closer? t.kind) = opening at h ⊢
  cases opening with
  | some closer =>
      cases h
      exact ⟨opened <|> some t.span, by cases opened <;> rfl, rfl⟩
  | none =>
      cases expected with
      | nil =>
          generalize t.kind = kind at h ⊢
          cases kind <;> cases h <;> exact ⟨opened, hopened, rfl⟩
      | cons closer outer =>
          dsimp only at h ⊢
          by_cases hkind : t.kind = closer
          · rw [if_pos hkind] at h ⊢
            cases h
            refine ⟨if outer.isEmpty then none else opened, ?_, rfl⟩
            cases outer with
            | nil => rfl
            | cons => exact hopened
          · rw [if_neg hkind] at h ⊢
            cases h
            exact ⟨opened, hopened, rfl⟩

/-- A token that ends a gathering does so outside all brackets. -/
theorem gather_of_next?_eq_none (rest : List Token)
    (h : next? custom (colon, expected) t.kind = none) :
    gather custom colon expected opened (t :: rest) = ofEnd colon opened t rest := by
  simp only [next?] at h
  simp only [gather]
  generalize (if t.kind = .leftBrace ∧ custom = true ∧ colon = true then some .rightBrace
    else closer? t.kind) = opening at h ⊢
  cases opening with
  | some closer => cases h
  | none =>
      cases expected with
      | nil =>
          unfold ofEnd
          generalize t.kind = kind at h ⊢
          cases kind <;> cases h <;> rfl
      | cons closer outer =>
          dsimp only at h
          split at h <;> cases h

theorem kind_of_next?_eq_none {kind : TokenKind} (h : next? custom state kind = none) :
    state.2 = [] ∧ (kind = .semicolon ∨ kind = .leftBrace ∨ kind = .rightBrace) := by
  unfold next? at h
  split at h
  · cases h
  · next hexpected =>
      refine ⟨hexpected, ?_⟩
      split at h
      · exact .inl rfl
      · exact .inr (.inl rfl)
      · exact .inr (.inr rfl)
      · cases h
      · cases h
  · split at h <;> cases h

/-- A gathering goes on behind tokens that do not end it as what is known there says. -/
theorem gather_append (hopened : opened.isSome = !expected.isEmpty)
    (h : through custom (colon, expected) tokens = some last) (rest : List Token) :
    ∃ inner : Option Span, inner.isSome = !last.2.isEmpty ∧
      gather custom colon expected opened (tokens ++ rest) =
        (gather custom last.1 last.2 inner rest).prepend tokens := by
  induction tokens generalizing colon expected opened with
  | nil =>
      cases h
      exact ⟨opened, hopened, rfl⟩
  | cons t tokens ih =>
      obtain ⟨next, hnext, h⟩ := exists_next?_of_through h
      obtain ⟨middle, hmiddle, hadd⟩ := gather_of_next? (tokens ++ rest) hopened hnext
      obtain ⟨inner, hinner, hgather⟩ := ih hmiddle h
      refine ⟨inner, hinner, ?_⟩
      rw [List.cons_append, hadd, hgather]
      rfl

variable {taken left : List Token} {ending : GatherEnd} {colon' : Bool} {opened' : Option Span}

/-- What is gathered ends outside all brackets, but at the end of the text, where a bracket may be
open still. A brace that ends it opens no block of its own. -/
theorem through_of_gather (h : gather custom colon expected opened tokens =
      ⟨taken, ending, colon', opened', left⟩)
    (hopened : opened.isSome = !expected.isEmpty) (hinput : ending = .input → opened' = none) :
    through custom (colon, expected) taken = some (colon', []) ∧ opened' = none ∧
      ∀ b, ending = .brace b → next? custom (colon', []) .leftBrace = none := by
  induction tokens generalizing colon expected opened taken with
  | nil =>
      cases h
      rw [hinput rfl] at hopened ⊢
      cases expected with
      | nil => exact ⟨rfl, rfl, by intro _ h; cases h⟩
      | cons => cases hopened
  | cons t rest ih =>
      cases hnext : next? custom (colon, expected) t.kind with
      | none =>
          obtain ⟨hexpected, hkind⟩ := kind_of_next?_eq_none hnext
          dsimp only at hexpected
          subst hexpected
          have hnone : opened = none := by
            cases opened with
            | none => rfl
            | some => cases hopened
          subst hnone
          rw [gather_of_next?_eq_none rest hnext] at h
          unfold ofEnd at h
          rcases hkind with hkind | hkind | hkind
          all_goals
            simp only [hkind] at h
            cases h
          · exact ⟨rfl, rfl, by intro _ h; cases h⟩
          · exact ⟨rfl, rfl, fun _ _ ↦ hkind ▸ hnext⟩
          · exact ⟨rfl, rfl, by intro _ h; cases h⟩
      | some next =>
          obtain ⟨inner, hinner, hadd⟩ := gather_of_next? rest hopened hnext
          generalize hgather : gather custom next.1 next.2 inner rest = gathered at hadd
          obtain ⟨more, moreEnd, moreColon, moreOpened, moreLeft⟩ := gathered
          rw [hadd] at h
          cases h
          obtain ⟨hthrough, hnone, hbrace⟩ := ih hgather hinner
          exact ⟨(through_cons hnext more).trans hthrough, hnone, hbrace⟩

/-- Tokens that leave no bracket open are gathered up to what ends the gathering. -/
theorem gather_of_through (h : through custom (false, []) taken = some (colon, []))
    (hfits : ending.Fits left)
    (hbrace : ∀ b, ending = .brace b → next? custom (colon, []) .leftBrace = none) :
    gather custom false [] none (taken ++ (ending.tokens ++ left)) =
      ⟨taken, ending, colon, none, left⟩ := by
  obtain ⟨inner, hinner, hgather⟩ : ∃ inner : Option Span, inner.isSome = false ∧
      gather custom false [] none (taken ++ (ending.tokens ++ left)) =
        (gather custom colon [] inner (ending.tokens ++ left)).prepend taken :=
    gather_append rfl h (ending.tokens ++ left)
  have hnone : inner = none := by
    cases inner with
    | none => rfl
    | some => cases hinner
  have hend (t : Token) (rest : List Token) (hkind : next? custom (colon, []) t.kind = none) :
      gather custom colon [] none (t :: rest) = ofEnd colon none t rest :=
    gather_of_next?_eq_none rest hkind
  have hlast : gather custom colon [] none (ending.tokens ++ left) =
      ⟨[], ending, colon, none, left⟩ := by
    cases ending with
    | semicolon s =>
        have hkind : s.kind = .semicolon := hfits
        refine (hend s left (by rw [hkind]; rfl)).trans ?_
        unfold ofEnd
        simp only [hkind]
    | brace b =>
        have hkind : b.kind = .leftBrace := hfits
        refine (hend b left (by rw [hkind]; exact hbrace b rfl)).trans ?_
        unfold ofEnd
        simp only [hkind]
    | close =>
        obtain ⟨t, more, rfl, hkind⟩ := hfits
        refine (hend t more (by rw [hkind]; rfl)).trans ?_
        unfold ofEnd
        simp only [hkind]
    | input =>
        cases hfits
        rfl
  rw [hgather, hnone, hlast, prepend, List.append_nil]

theorem mem_of_next? {kind : TokenKind} (h : next? custom state kind = some next) :
    (kind = .leftParen → .rightParen ∈ next.2) ∧
      (.rightParen ∈ state.2 → kind = .rightParen ∨ .rightParen ∈ next.2) := by
  unfold next? at h
  split at h
  · next closer _ hopening =>
      cases h
      refine ⟨?_, fun hmem ↦ .inr (List.mem_cons_of_mem _ hmem)⟩
      rintro rfl
      cases hopening
      exact List.mem_cons_self
  · next hopening hexpected =>
      refine ⟨?_, fun hmem ↦ by rw [hexpected] at hmem; cases hmem⟩
      rintro rfl
      cases hopening
  · next closer outer hopening hexpected =>
      refine ⟨?_, fun hmem ↦ ?_⟩
      · rintro rfl
        cases hopening
      · rw [hexpected] at hmem
        split at h
        · next hkind =>
            cases h
            rcases List.mem_cons.mp hmem with hclose | hmem
            · exact .inl (hkind.trans hclose.symm)
            · exact .inr hmem
        · cases h
          exact .inr hmem

/-- Gathered tokens that leave no bracket open have closed their parentheses. -/
theorem isCovered_of_through (h : through custom state tokens = some (colon, [])) :
    Token.IsCovered tokens ∧ (.rightParen ∈ state.2 → ∃ u ∈ tokens, u.kind = .rightParen) := by
  induction tokens generalizing state with
  | nil =>
      cases h
      exact ⟨trivial, by intro hmem; cases hmem⟩
  | cons t rest ih =>
      obtain ⟨next, hnext, h⟩ := exists_next?_of_through h
      obtain ⟨hparen, hmem⟩ := mem_of_next? hnext
      obtain ⟨hcovered, hcloses⟩ := ih h
      refine ⟨⟨fun hkind ↦ hcloses (hparen hkind), hcovered⟩, fun hexpected ↦ ?_⟩
      rcases hmem hexpected with hkind | hexpected
      · exact ⟨t, List.mem_cons_self, hkind⟩
      · obtain ⟨u, hu, hclose⟩ := hcloses hexpected
        exact ⟨u, List.mem_cons_of_mem _ hu, hclose⟩

/-! ## White space, comments and semicolons -/

/-- `AreClosers expected` says that neither white space nor comments nor semicolons are
expected. -/
def AreClosers (expected : List TokenKind) : Prop :=
  ∀ k ∈ expected, k.isTrivia = false ∧ k ≠ .semicolon

theorem areClosers_of_next? {kind : TokenKind} (h : next? custom state kind = some next)
    (hclosers : AreClosers state.2) : AreClosers next.2 := by
  unfold next? at h
  split at h
  · next closer _ hopening =>
      cases h
      refine List.forall_mem_cons.mpr ⟨?_, hclosers⟩
      split at hopening
      · cases hopening
        decide
      · unfold closer? at hopening
        split at hopening <;> cases hopening <;> decide
  · split at h <;> cases h <;> exact List.forall_mem_nil _
  · next hexpected =>
      rw [hexpected] at hclosers
      split at h <;> cases h
      · exact fun k hk ↦ hclosers k (List.mem_cons_of_mem _ hk)
      · exact hclosers

theorem areClosers_of_through (h : through custom state tokens = some last)
    (hclosers : AreClosers state.2) : AreClosers last.2 := by
  induction tokens generalizing state with
  | nil =>
      cases h
      exact hclosers
  | cons t rest ih =>
      obtain ⟨next, hnext, h⟩ := exists_next?_of_through h
      exact ih h (areClosers_of_next? hnext hclosers)

/-- Within brackets white space, comments and semicolons change nothing. -/
theorem next?_of_ne_closer {kind closer : TokenKind} {outer : List TokenKind}
    (hclosers : AreClosers (closer :: outer)) (hkind : kind.isTrivia = true ∨ kind = .semicolon) :
    next? custom (colon, closer :: outer) kind = some (colon, closer :: outer) := by
  have hne : kind ≠ closer := by
    rintro rfl
    obtain ⟨htrivia, hsemicolon⟩ := hclosers kind List.mem_cons_self
    rcases hkind with hkind | hkind
    · rw [hkind] at htrivia
      cases htrivia
    · exact hsemicolon hkind
  have hnone : (if kind = .leftBrace ∧ custom ∧ colon then some TokenKind.rightBrace
      else closer? kind) = none := by
    cases kind <;> simp_all [TokenKind.isTrivia, closer?]
  unfold next?
  dsimp only
  rw [hnone]
  exact if_neg hne

/-- White space and comments change nothing in what is known. -/
theorem through_of_trivia (hclosers : AreClosers state.2)
    (htrivia : ∀ t ∈ tokens, t.isTrivia = true) : through custom state tokens = some state := by
  induction tokens with
  | nil => rfl
  | cons t rest ih =>
      obtain ⟨ht, hrest⟩ := List.forall_mem_cons.mp htrivia
      obtain ⟨colon, expected⟩ := state
      have hnext : next? custom (colon, expected) t.kind = some (colon, expected) := by
        cases expected with
        | nil =>
            unfold Token.isTrivia at ht
            cases hkind : t.kind <;> rw [hkind] at ht <;> first | rfl | cases ht
        | cons closer outer => exact next?_of_ne_closer hclosers (.inl ht)
      rw [through_cons hnext, ih hrest]

/-- A semicolon is gathered within brackets only, so it is not the last token of what is gathered
but for white space and comments. -/
theorem kind_ne_semicolon_of_through {front trivia : List Token} {s : Token}
    (h : through custom state (front ++ s :: trivia) = some (colon, []))
    (hclosers : AreClosers state.2) (htrivia : ∀ t ∈ trivia, t.isTrivia = true) :
    s.kind ≠ .semicolon := by
  intro hkind
  rw [through_append, Option.bind_eq_some_iff] at h
  obtain ⟨⟨colon', expected⟩, hfront, h⟩ := h
  have hmiddle := areClosers_of_through hfront hclosers
  obtain ⟨next, hnext, h⟩ := exists_next?_of_through h
  cases expected with
  | nil =>
      rw [hkind] at hnext
      cases hnext
  | cons closer outer =>
      rw [next?_of_ne_closer hmiddle (.inr hkind)] at hnext
      cases hnext
      rw [through_of_trivia hmiddle htrivia] at h
      cases h

end Gathered

/-! ## At-rules -/

namespace Params

/-- `next? expected kind` are the closers that are expected behind a parameter. It is `none` if a
token of this kind ends the parameters. -/
def next? (expected : List TokenKind) (kind : TokenKind) : Option (List TokenKind) :=
  match nestParams kind expected with
  | [] =>
      match kind with
      | .semicolon | .leftBrace | .rightBrace => none
      | _ => some []
  | expected => some expected

/-- `through expected tokens` are the closers that are expected behind some parameters. It is
`none` if one of the tokens ends the parameters. -/
def through (expected : List TokenKind) (tokens : List Token) : Option (List TokenKind) :=
  (tokens.map Token.kind).foldlM next? expected

/-- `ofEnd t rest` are the parameters that the token `t` ends. -/
def ofEnd (t : Token) (rest : List Token) : Params :=
  match t.kind with
  | .semicolon => ⟨[], .semicolon t, rest⟩
  | .leftBrace => ⟨[], .block t, rest⟩
  | _ => ⟨[], .close t, rest⟩

variable {expected next last : List TokenKind} {t : Token} {tokens : List Token} {params : Params}

theorem through_cons (h : next? expected t.kind = some next) (tokens : List Token) :
    through expected (t :: tokens) = through next tokens := by
  rw [through, List.map_cons, List.foldlM_cons, h]
  rfl

theorem exists_next?_of_through (h : through expected (t :: tokens) = some last) :
    ∃ next, next? expected t.kind = some next ∧ through next tokens = some last :=
  Option.bind_eq_some_iff.mp h

theorem through_append (first second : List Token) :
    through expected (first ++ second) =
      (through expected first).bind fun next ↦ through next second := by
  rw [through, List.map_append, List.foldlM_append]
  rfl

theorem gather_of_next? (rest : List Token) (h : next? expected t.kind = some next) :
    gather none expected (t :: rest) =
      { gather none next rest with tokens := t :: (gather none next rest).tokens } := by
  simp only [next?] at h
  simp only [gather]
  generalize nestParams t.kind expected = nested at h ⊢
  cases nested with
  | nil =>
      generalize t.kind = kind at h ⊢
      cases kind <;> cases h <;> rfl
  | cons closer outer =>
      cases h
      rfl

theorem gather_of_next?_eq_none (rest : List Token) (h : next? expected t.kind = none) :
    gather none expected (t :: rest) = ofEnd t rest := by
  simp only [next?] at h
  simp only [gather]
  generalize nestParams t.kind expected = nested at h ⊢
  cases nested with
  | nil =>
      unfold ofEnd
      generalize t.kind = kind at h ⊢
      cases kind <;> cases h <;> rfl
  | cons closer outer => cases h

/-- The parameters of an at-rule go on behind some of them as what is expected there says. -/
theorem gather_append (h : through expected tokens = some last) (rest : List Token) :
    gather none expected (tokens ++ rest) =
      { gather none last rest with tokens := tokens ++ (gather none last rest).tokens } := by
  induction tokens generalizing expected with
  | nil =>
      cases h
      rfl
  | cons t tokens ih =>
      obtain ⟨next, hnext, h⟩ := exists_next?_of_through h
      rw [List.cons_append, gather_of_next? _ hnext, ih h]
      rfl

theorem exists_through_of_gather (h : gather none expected tokens = params) :
    ∃ last, through expected params.tokens = some last ∧
      (params.ending = .input ∨ ∃ t ∈ params.ending.tokens, next? last t.kind = none) := by
  induction tokens generalizing expected params with
  | nil =>
      subst h
      exact ⟨expected, rfl, .inl rfl⟩
  | cons t rest ih =>
      cases hnext : next? expected t.kind with
      | none =>
          rw [gather_of_next?_eq_none rest hnext] at h
          subst h
          unfold ofEnd
          split <;> exact ⟨expected, rfl, .inr ⟨t, List.mem_cons_self, hnext⟩⟩
      | some next =>
          rw [gather_of_next? rest hnext] at h
          subst h
          obtain ⟨last, hthrough, hend⟩ := ih rfl
          exact ⟨last, (through_cons hnext _).trans hthrough, hend⟩

/-- Parameters that leave no bracket open are gathered up to what ends them. -/
theorem gather_of_through {ending : AtRuleEnd} {left : List Token}
    (h : through [] tokens = some []) (hfits : ending.Fits none left) :
    gather none [] (tokens ++ (ending.tokens ++ left)) = ⟨tokens, ending, left⟩ := by
  have hend (t : Token) (hkind : next? [] t.kind = none) :
      gather none [] (t :: left) = ofEnd t left := gather_of_next?_eq_none left hkind
  have hlast : gather none [] (ending.tokens ++ left) = ⟨[], ending, left⟩ := by
    cases ending with
    | semicolon s | block s | close s =>
        have hkind : s.kind = _ := hfits
        refine (hend s (by rw [hkind]; rfl)).trans ?_
        unfold ofEnd
        simp only [hkind]
    | input =>
        obtain ⟨rfl, -⟩ := hfits
        rfl
    | failure => cases hfits
  rw [gather_append h, hlast, List.append_nil]

theorem eq_nestParams_of_next? {kind : TokenKind} (h : next? expected kind = some next) :
    next = nestParams kind expected := by
  unfold next? at h
  split at h
  · next hnest =>
      rw [hnest]
      split at h <;> cases h
      rfl
  · cases h
    rfl

/-- The outermost bracket of the parameters is none of those that end them. -/
def IsBased (expected : List TokenKind) : Prop :=
  ∀ kind ∈ expected.getLast?, kind = .rightParen ∨ kind = .rightBracket

theorem isBased_of_next? {kind : TokenKind} (h : next? expected kind = some next)
    (hbased : IsBased expected) : IsBased next := by
  have hpush {closer : TokenKind} (hcloser : closer = .rightParen ∨ closer = .rightBracket ∨
      expected ≠ []) : IsBased (closer :: expected) := by
    cases expected with
    | nil =>
        intro kind hkind
        cases hkind
        exact hcloser.imp_right fun h ↦ h.resolve_right (fun hne ↦ hne rfl)
    | cons => exact hbased
  rw [eq_nestParams_of_next? h]
  unfold nestParams
  split
  · next closer hopening =>
      unfold closer? at hopening
      split at hopening <;> cases hopening
      · exact hpush (.inl rfl)
      · exact hpush (.inr (.inl rfl))
  · cases expected with
    | nil => exact hbased
    | cons closer outer =>
        dsimp only
        split
        · exact hpush (.inr (.inr (List.cons_ne_nil _ _)))
        · split
          · cases outer with
            | nil => exact by intro kind hkind; cases hkind
            | cons => exact hbased
          · exact hbased

theorem isBased_of_through (h : through expected tokens = some last) (hbased : IsBased expected) :
    IsBased last := by
  induction tokens generalizing expected with
  | nil =>
      cases h
      exact hbased
  | cons t rest ih =>
      obtain ⟨next, hnext, h⟩ := exists_next?_of_through h
      exact ih h (isBased_of_next? hnext hbased)

/-- A token ends parameters outside all brackets. -/
theorem eq_nil_of_next?_eq_none {kind : TokenKind} (h : next? expected kind = none)
    (hbased : IsBased expected) : expected = [] := by
  unfold next? at h
  split at h
  · next hnest =>
      have hkind : kind = .semicolon ∨ kind = .leftBrace ∨ kind = .rightBrace := by
        split at h
        · exact .inl rfl
        · exact .inr (.inl rfl)
        · exact .inr (.inr rfl)
        · cases h
      cases expected with
      | nil => rfl
      | cons closer outer =>
          exfalso
          have hnot : kind = closer → outer ≠ [] := by
            rintro rfl rfl
            rcases hbased kind rfl with rfl | rfl <;> simp at hkind
          rcases hkind with rfl | rfl | rfl
          all_goals
            simp only [nestParams, closer?, reduceCtorEq, if_false, if_true] at hnest
            try cases hnest
            try
              split at hnest
              · next hclose => exact hnot hclose hnest
              · cases hnest
  · cases h

/-- Parameters that a token ends have closed their brackets. -/
theorem through_of_gather (h : gather none [] tokens = params) (hinput : params.ending ≠ .input) :
    through [] params.tokens = some [] := by
  obtain ⟨last, hthrough, hend⟩ := exists_through_of_gather h
  obtain ⟨t, -, hnone⟩ := hend.resolve_left hinput
  have hbased := isBased_of_through hthrough (by intro kind hkind; cases hkind)
  rw [hthrough, eq_nil_of_next?_eq_none hnone hbased]

/-- Parameters that leave no bracket open have closed their parentheses. -/
theorem isCovered_of_through (h : through expected tokens = some []) :
    Token.IsCovered tokens ∧ (.rightParen ∈ expected → ∃ u ∈ tokens, u.kind = .rightParen) := by
  induction tokens generalizing expected with
  | nil =>
      cases h
      exact ⟨trivial, by intro hmem; cases hmem⟩
  | cons t rest ih =>
      obtain ⟨next, hnext, h⟩ := exists_next?_of_through h
      have hnest := eq_nestParams_of_next? hnext
      obtain ⟨hcovered, hcloses⟩ := ih h
      rw [hnest] at hcloses
      refine ⟨⟨fun hkind ↦ hcloses (by rw [hkind]; exact List.mem_cons_self), hcovered⟩,
        fun hexpected ↦ ?_⟩
      by_cases hclose : t.kind = .rightParen
      · exact ⟨t, List.mem_cons_self, hclose⟩
      suffices hmem : .rightParen ∈ nestParams t.kind expected by
        obtain ⟨u, hu, hkind⟩ := hcloses hmem
        exact ⟨u, List.mem_cons_of_mem _ hu, hkind⟩
      unfold nestParams
      split
      · exact List.mem_cons_of_mem _ hexpected
      · cases expected with
        | nil => cases hexpected
        | cons closer outer =>
            dsimp only
            split
            · exact List.mem_cons_of_mem _ hexpected
            · split
              · next hkind =>
                  refine (List.mem_cons.mp hexpected).resolve_left fun h ↦ hclose ?_
                  rw [hkind, ← h]
              · exact hexpected

theorem areClosers_of_next? {kind : TokenKind} (h : next? expected kind = some next)
    (hclosers : Gathered.AreClosers expected) : Gathered.AreClosers next := by
  have hpush {closer : TokenKind} (hcloser : closer.isTrivia = false ∧ closer ≠ .semicolon) :
      Gathered.AreClosers (closer :: expected) := List.forall_mem_cons.mpr ⟨hcloser, hclosers⟩
  rw [eq_nestParams_of_next? h]
  unfold nestParams
  split
  · next closer hopening =>
      unfold closer? at hopening
      split at hopening <;> cases hopening <;> exact hpush (by decide)
  · cases expected with
    | nil => exact hclosers
    | cons closer outer =>
        dsimp only
        split
        · exact hpush (by decide)
        · split
          · exact fun k hk ↦ hclosers k (List.mem_cons_of_mem _ hk)
          · exact hclosers

theorem areClosers_of_through (h : through expected tokens = some last)
    (hclosers : Gathered.AreClosers expected) : Gathered.AreClosers last := by
  induction tokens generalizing expected with
  | nil =>
      cases h
      exact hclosers
  | cons t rest ih =>
      obtain ⟨next, hnext, h⟩ := exists_next?_of_through h
      exact ih h (areClosers_of_next? hnext hclosers)

/-- White space and comments change nothing in what is expected. -/
theorem through_of_trivia (hclosers : Gathered.AreClosers expected)
    (htrivia : ∀ t ∈ tokens, t.isTrivia = true) : through expected tokens = some expected := by
  induction tokens with
  | nil => rfl
  | cons t rest ih =>
      obtain ⟨ht, hrest⟩ := List.forall_mem_cons.mp htrivia
      have hnext : next? expected t.kind = some expected := by
        unfold Token.isTrivia at ht
        cases expected with
        | nil => cases hkind : t.kind <;> rw [hkind] at ht <;> first | rfl | cases ht
        | cons closer outer =>
            have hne : t.kind ≠ closer := by
              intro hkind
              rw [hkind, (hclosers closer List.mem_cons_self).1] at ht
              cases ht
            have hnest : nestParams t.kind (closer :: outer) = closer :: outer := by
              unfold nestParams
              cases hkind : t.kind <;> rw [hkind] at ht hne <;>
                first | exact absurd ht (by decide) | simp [closer?, hne]
            unfold next?
            rw [hnest]
      rw [through_cons hnext, ih hrest]

/-- White space and comments behind parameters close none of their brackets. -/
theorem through_of_append_trivia {trivia : List Token}
    (h : through [] (tokens ++ trivia) = some []) (htrivia : ∀ t ∈ trivia, t.isTrivia = true) :
    through [] tokens = some [] := by
  rw [through_append, Option.bind_eq_some_iff] at h
  obtain ⟨state, hfirst, hrest⟩ := h
  rw [through_of_trivia (areClosers_of_through hfirst (List.forall_mem_nil _)) htrivia] at hrest
  rw [hfirst, hrest]

end Params

end Statement

end Stylesheet
