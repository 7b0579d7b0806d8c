import Stylesheet.Proofs.Pieces

/-!
# The text that waits

White space and semicolons between two statements wait for the node that comes next, which records
them with its own text. `Assembly.Awaits` says that the text that waits and the tokens that follow
were read by one lexer, and so both together are a piece of text that is read again
(`Awaits.piece`, `Awaits.addsLast`).
-/

namespace Stylesheet

namespace Assembly

variable {a b : Assembly} {stop : Nat} {t : Token} {rest front behind tokens : List Token}
  {statement : Statement}

/-! ## Gaps -/

/-- White space and semicolons between statements. -/
abbrev IsGap (gap : List Token) : Prop :=
  ∀ t ∈ gap, t.kind = .space ∨ t.kind = .semicolon

theorem wordBehind_of_isGap {gap : List Token} (h : IsGap gap) (front : List Token) :
    Token.wordBehind none (gap ++ front) = Token.wordBehind none front := by
  have hmute : ∀ t ∈ gap, t.IsMute := fun t ht ↦ by
    rcases h t ht with hkind | hkind <;> rw [Token.IsMute, hkind] <;> decide
  rw [Token.wordBehind_append, Token.wordBehind_of_isMute hmute]

theorem isCovered_of_isGap {gap : List Token} (h : IsGap gap) : Token.IsCovered gap :=
  Token.isCovered_of_forall fun t ht ↦ by
    rcases h t ht with hkind | hkind <;> rw [hkind] <;> decide

/-- `a.Awaits tokens` says that the text that waits and the tokens that follow have been read by a
lexer that was ready. -/
def Awaits (a : Assembly) (tokens : List Token) : Prop :=
  tokens ≠ [] → ∃ gap l text after, a.spaces = Token.spelling gap ∧ IsGap gap ∧
    Lexer.IsReady l text ∧ l.Reads (gap ++ tokens) after

/-- `IsGapped spaces front us` says that a run is alike to `front` behind white space and
semicolons. If the text of these is white space, there are no semicolons. -/
def IsGapped (spaces : Text) (front us : List Token) : Prop :=
  ∃ gap vs, us = gap ++ vs ∧ IsGap gap ∧ Token.Alike vs front ∧
    ((∀ c ∈ spaces, Classifier.stock.is .space c = true) → ∀ t ∈ gap, t.kind = .space)

theorem isGapped_of_alike {gap us : List Token} (h : Token.Alike us (gap ++ front))
    (hgap : IsGap gap) (hformed : ∀ t ∈ gap, t.IsFormed) :
    IsGapped (Token.spelling gap) front us := by
  obtain ⟨xs, ys, rfl, hxs, hys⟩ := h.exists_append
  refine ⟨xs, ys, rfl,
    hxs.forall_kind (P := fun kind ↦ kind = .space ∨ kind = .semicolon) hgap, hys,
    fun hblank ↦ hxs.forall_kind (P := (· = .space)) fun t ht ↦ ?_⟩
  refine (hgap t ht).resolve_right fun hkind ↦ ?_
  have hmem : ';' ∈ Token.spelling gap := by
    rw [Token.spelling, List.mem_flatMap]
    exact ⟨t, ht, by rw [(hformed t ht).single hkind (c := ';') rfl]; exact List.mem_cons_self⟩
  exact absurd (hblank _ hmem) (by decide)

theorem Awaits.wait (h : a.Awaits (t :: rest)) (hkind : t.kind = .space ∨ t.kind = .semicolon) :
    (a.wait t.text).Awaits rest := by
  intro _
  obtain ⟨gap, l, text, after, hspaces, hgap, hl, hreads⟩ := h (List.cons_ne_nil _ _)
  refine ⟨gap ++ [t], l, text, after, ?_, ?_, hl, by rwa [List.append_assoc]⟩
  · show a.spaces ++ t.text = _
    rw [hspaces, Token.spelling_append, Token.spelling_cons, Token.spelling_nil, List.append_nil]
  · exact List.forall_mem_append.mpr ⟨hgap, fun u hu ↦ List.mem_singleton.mp hu ▸ hkind⟩

/-- Behind a statement that leaves no text to wait, the lexer is ready again. -/
theorem Awaits.resume (h : a.Awaits (front ++ behind)) (hspaces : b.spaces = [])
    (hword : Token.wordBehind none front ≠ some "url".toList) : b.Awaits behind := by
  intro hne
  obtain ⟨gap, l, text, after, -, hgap, hl, hreads⟩ :=
    h (fun h ↦ hne (List.append_eq_nil_iff.mp h).2)
  rw [← List.append_assoc] at hreads
  obtain ⟨middle, hfront, hbehind⟩ := hreads.split
  rw [← wordBehind_of_isGap hgap] at hword
  exact ⟨[], middle, _, after, hspaces, List.forall_mem_nil _, hl.behind hfront hword, hbehind⟩

/-- What ends with a token that ends a piece is read again with the text that waits before it. -/
theorem Awaits.isReadAs (h : a.Awaits (front ++ behind)) (hcovered : Token.IsCovered front)
    (hstop : ∃ init v, front = init ++ [v] ∧ v.IsStop)
    (hword : Token.wordBehind none front ≠ some "url".toList) (z : Text) :
    (a.spaces ++ Token.spelling front).IsReadAs z (IsGapped a.spaces front) := by
  obtain ⟨init, v, rfl, hstop⟩ := hstop
  obtain ⟨gap, l, text, after, hspaces, hgap, hl, hreads⟩ := h (by simp)
  rw [← List.append_assoc] at hreads
  obtain ⟨middle, hfront, -⟩ := hreads.split
  have hformed : ∀ u ∈ gap ++ (init ++ [v]), u.IsFormed := fun u hu ↦
    hfront.isFormed hl.policy hu
  have hclosed : Token.IsClosed [] (gap ++ (init ++ [v])) := by
    have hcovered := (isCovered_of_isGap hgap).append hcovered
    have hformed := hformed
    rw [← List.append_assoc] at hformed hcovered ⊢
    exact Token.isClosed_of_isStop hcovered hformed hstop
  rw [← wordBehind_of_isGap hgap] at hword
  rw [hspaces, ← Token.spelling_append]
  exact (hl.isReadAs hfront hclosed hword z).imp fun us hus ↦
    isGapped_of_alike hus hgap fun u hu ↦ hformed u (List.mem_append_left _ hu)

/-- What ends with a token that ends a piece is a piece with the text that waits before it. -/
theorem Awaits.piece {e : Effect} (h : a.Awaits (front ++ behind))
    (hcovered : Token.IsCovered front) (hstop : ∃ init v, front = init ++ [v] ∧ v.IsStop)
    (hword : Token.wordBehind none front ≠ some "url".toList)
    (hdoes : ∀ us, Token.Alike us front → Token.Does false us e) :
    (a.spaces ++ Token.spelling front).Does e := by
  intro z
  refine (h.isReadAs hcovered hstop hword z).imp fun us hus ↦ ?_
  obtain ⟨gap, vs, rfl, hgap, hvs, -⟩ := hus
  exact (Token.does_of_blank hgap).append_of_nil (hdoes vs hvs)

/-- What is read with the text that waits before it can stand at the end of a container. -/
theorem Awaits.addsLast {trails : List Token → Forest Core → Prop} {core : Core}
    (h : a.Awaits (front ++ behind)) (hne : front ≠ []) (hcovered : Token.IsCovered front)
    (hword : Token.wordBehind none front ≠ some "url".toList)
    (hends : ∀ us, Token.Alike us front → ∀ tail trees, trails tail trees →
      Token.EndsWith (us ++ tail) (.cons core .nil trees)) :
    (a.spaces ++ Token.spelling front).AddsLast trails core := by
  intro z hz hmeets
  obtain ⟨init, v, rfl⟩ : ∃ init v, front = init ++ [v] :=
    ⟨_, _, (List.dropLast_concat_getLast hne).symm⟩
  obtain ⟨gap, l, text, after, hspaces, hgap, hl, hreads⟩ := h (by simp)
  rw [← List.append_assoc] at hreads
  obtain ⟨middle, hfront, -⟩ := hreads.split
  have hformed : ∀ u ∈ gap, u.IsFormed := fun u hu ↦
    hfront.isFormed hl.policy (List.mem_append_left _ hu)
  have hcovered := (isCovered_of_isGap hgap).append hcovered
  rw [← wordBehind_of_isGap hgap] at hword
  rw [hspaces, ← Token.spelling_append] at hmeets ⊢
  rw [← List.append_assoc] at hfront hcovered hword hmeets ⊢
  refine (hl.isReadAs_at_break hfront hcovered hword hz hmeets).imp
    fun us hus tail trees htail ↦ ?_
  rw [List.append_assoc] at hus
  obtain ⟨gap, vs, rfl, hgap, hvs, -⟩ := isGapped_of_alike hus hgap hformed
  rw [List.append_assoc]
  exact .prepend (Token.does_of_blank hgap) (hends vs hvs tail trees htail)

/-- A statement with an end of its own ends with a token that ends a piece. -/
theorem exists_stop_of_cut (hcut : Statement.Cut stop t rest statement behind)
    (hclosed : statement.IsClosed) (hspace : ∀ u, statement ≠ .space u) :
    ∃ init v, statement.tokens = init ++ [v] ∧ v.IsStop := by
  cases hcut with
  | space => exact absurd rfl (hspace t)
  | semicolon hkind => exact ⟨[], t, rfl, .inl hkind⟩
  | close hkind => exact ⟨[], t, rfl, .inr (.inr (.inl hkind))⟩
  | comment hkind => exact ⟨[], t, rfl, .inr (.inr (.inr hkind))⟩
  | block hkind => exact ⟨[], t, rfl, .inr (.inl hkind)⟩
  | @rule tokens brace _ _ _ hstarts hgather =>
      have hfits : (Statement.GatherEnd.brace brace).Fits behind :=
        Statement.Gathered.fits_of_gather hgather
      exact ⟨tokens, brace, rfl, .inr (.inl hfits)⟩
  | @atRule params hkind hgather =>
      have hfits :=
        (Statement.Cut.atRule hkind hgather : Statement.Cut stop t rest _ _).fits_atRule
      have htokens (v : Token) (hv : params.ending.tokens = [v]) :
          (Statement.atRule t params.tokens params.ending).tokens =
            (t :: params.tokens) ++ [v] := by
        rw [← hv]
        rfl
      cases hend : params.ending with
      | semicolon v =>
          rw [hend] at hfits htokens
          exact ⟨_, v, htokens v rfl, .inl hfits⟩
      | block v =>
          rw [hend] at hfits htokens
          exact ⟨_, v, htokens v rfl, .inr (.inl hfits)⟩
      | close v =>
          rw [hend] at hfits htokens
          exact ⟨_, v, htokens v rfl, .inr (.inr (.inl hfits))⟩
      | input | failure =>
          rw [Statement.IsClosed, hend] at hclosed
          exact absurd rfl hclosed
  | ended | endedStray | custom | plain | stray => exact hclosed.elim

/-- A statement with an end of its own makes a piece with the text that waits before it. -/
theorem Takes.piece {e : Effect} (hcut : Statement.Cut stop t rest statement behind)
    (h : a.Takes statement b) (hawaits : a.Awaits (t :: rest)) (hholds : e.Holds a b)
    (hclosed : statement.IsClosed) (hspace : ∀ u, statement ≠ .space u)
    (hword : Token.wordBehind none statement.tokens ≠ some "url".toList) :
    (a.spaces ++ Token.spelling statement.tokens).Does e := by
  rw [← hcut.tokens_append] at hawaits
  exact hawaits.piece (hcut.isCovered hclosed) (exists_stop_of_cut hcut hclosed hspace) hword
    fun us hus ↦ h.does hholds fun stop rest ↦ hcut.again hclosed hus stop rest

/-- The tokens that follow have been scanned. -/
theorem Awaits.exists_scan (h : a.Awaits (front ++ t :: behind)) :
    ∃ l next more, l.policy = .fail ∧ l.classifier = .stock ∧
      Lexer.scanNext l = (.ok (some t), next) ∧
      l.rest = Token.spelling (t :: behind) ++ more := by
  obtain ⟨gap, l, text, after, -, -, hl, hreads⟩ := h (by simp)
  rw [← List.append_assoc] at hreads
  obtain ⟨middle, hfront, hrest⟩ := hreads.split
  obtain ⟨hclassifier, hpolicy⟩ := hfront.frame
  have htext := hrest.rest_eq
  cases hrest with
  | cons _ next _ _ _ hscan _ =>
      exact ⟨middle, next, after.rest, hpolicy.trans hl.policy, hclassifier.trans hl.classifier,
        hscan, htext⟩

/-- The text that waits is white space and semicolons. -/
theorem Awaits.isGap_spaces (h : a.Awaits tokens) (hne : tokens ≠ []) :
    a.spaces.all Text.isGap = true := by
  obtain ⟨gap, l, text, after, hspaces, hgap, hl, hreads⟩ := h hne
  rw [hspaces, Token.spelling, List.all_flatMap, List.all_eq_true]
  intro t ht
  obtain ⟨front, back, rfl⟩ := List.append_of_mem ht
  rw [List.append_assoc] at hreads
  obtain ⟨middle, hfront, hrest⟩ := hreads.split
  obtain ⟨hclassifier, hpolicy⟩ := hfront.frame
  rw [List.all_eq_true]
  cases hrest with
  | cons _ next _ _ _ hscan _ =>
      rcases hgap t ht with hkind | hkind
      · intro c hc
        exact Bool.or_eq_true_iff.mpr (.inl (Lexer.forall_isSpace (hpolicy.trans hl.policy)
          (hclassifier.trans hl.classifier) hscan hkind c hc))
      · rw [(Lexer.scanNext_isFormed (hpolicy.trans hl.policy) hscan).single hkind (c := ';') rfl]
        exact List.all_eq_true.mp rfl

end Assembly

end Stylesheet
