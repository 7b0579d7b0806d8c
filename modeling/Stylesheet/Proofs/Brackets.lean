import Stylesheet.Proofs.Regroup

/-!
# Brackets of accepted statements

`Token.Nested` says that every opening parenthesis or square bracket of a run is closed within the
run. What is gathered of a statement is nested when no closer is expected behind it:
`Token.Closes` says what tokens do that are gathered while closers are expected, and
`Gathered.closes_of_through` and `Params.closes_of_through` prove it by going backwards over the
tokens. Braces that are brackets of their own in the value of a custom property or in parameters
do not matter for the others.

Strict assembly takes a rule or a declaration only if no closer is expected at its end, and what
the tokens of a run are grouped into is nested for this reason (`nested_of_parse`). The one
exception are the parameters of an at-rule that the text ends in: no one looks at the closers that
are still expected there (`not_nested_of_parse`).
-/

namespace Stylesheet

open Statement (closer?)

namespace Token

/-- `Nested tokens` says that every opening bracket is closed by a later token of its sort, with
nested tokens in between. A closing bracket that closes nothing is skipped like any other
token. -/
inductive Nested : List Token → Prop where
  | nil : Nested []
  | skip {t rest} (h : closer? t.kind = none) (hrest : Nested rest) : Nested (t :: rest)
  | group {t u : Token} {inner rest} (h : closer? t.kind = some u.kind) (hinner : Nested inner)
      (hrest : Nested rest) : Nested (t :: (inner ++ u :: rest))

variable {t u : Token} {first tokens : List Token} {closer : TokenKind}
  {expected : List TokenKind}

/-- What closes a bracket opens none. -/
theorem closer?_of_closer {kind : TokenKind} (h : closer? kind = some closer) :
    closer? closer = none := by
  cases kind <;> cases h <;> rfl

namespace Nested

theorem append (hfirst : Nested first) (h : Nested tokens) : Nested (first ++ tokens) := by
  induction hfirst with
  | nil => exact h
  | skip ht _ ih => exact .skip ht ih
  | group ht hinner _ _ ih =>
      rw [List.cons_append, List.append_assoc, List.cons_append]
      exact .group ht hinner ih

theorem tail (h : Nested (t :: tokens)) : Nested tokens := by
  cases h with
  | skip _ hrest => exact hrest
  | group ht hinner hrest => exact hinner.append (.skip (closer?_of_closer ht) hrest)

/-- What is left of nested tokens behind some of them is nested. -/
theorem of_append (h : Nested (first ++ tokens)) : Nested tokens := by
  induction first with
  | nil => exact h
  | cons t first ih => exact ih h.tail

/-- An opening bracket among nested tokens has its closing one behind it. -/
theorem exists_closer {before behind : List Token} (h : Nested (before ++ t :: behind))
    (ht : closer? t.kind = some closer) : ∃ u ∈ behind, u.kind = closer := by
  cases h.of_append with
  | skip hnone _ =>
      rw [ht] at hnone
      cases hnone
  | @group _ u inner rest hclose _ _ =>
      rw [ht, Option.some.injEq] at hclose
      exact ⟨u, List.mem_append_right inner List.mem_cons_self, hclose.symm⟩

end Nested

/-- `Closes expected tokens` says that tokens close the brackets whose closers are expected, one
after the other, and are nested apart from that. -/
def Closes : List TokenKind → List Token → Prop
  | [], tokens => Nested tokens
  | closer :: outer, tokens => ∃ inner u rest,
      tokens = inner ++ u :: rest ∧ Nested inner ∧ u.kind = closer ∧ Closes outer rest

namespace Closes

theorem prepend (hfirst : Nested first) (h : Closes expected tokens) :
    Closes expected (first ++ tokens) := by
  cases expected with
  | nil => exact hfirst.append h
  | cons closer outer =>
      obtain ⟨inner, u, rest, rfl, hinner, hu, hrest⟩ := h
      exact ⟨first ++ inner, u, rest, by rw [List.append_assoc], hfirst.append hinner, hu, hrest⟩

theorem skip (ht : closer? t.kind = none) (h : Closes expected tokens) :
    Closes expected (t :: tokens) :=
  h.prepend (.skip ht .nil)

theorem close (ht : t.kind = closer) (h : Closes expected tokens) :
    Closes (closer :: expected) (t :: tokens) :=
  ⟨[], t, tokens, rfl, .nil, ht, h⟩

/-- A bracket that is opened is closed by the first closer that is expected behind it. -/
theorem opened (ht : closer? t.kind = some closer) (h : Closes (closer :: expected) tokens) :
    Closes expected (t :: tokens) := by
  obtain ⟨inner, u, rest, rfl, hinner, rfl, hrest⟩ := h
  have hgroup := hrest.prepend (.group ht hinner .nil)
  rwa [List.cons_append, List.append_assoc] at hgroup

/-- A brace that expects its closer does not matter. -/
theorem openedBrace (ht : t.kind = .leftBrace) (h : Closes (.rightBrace :: expected) tokens) :
    Closes expected (t :: tokens) := by
  obtain ⟨inner, u, rest, rfl, hinner, hu, hrest⟩ := h
  refine skip (by rw [ht]; rfl) ((hrest.skip ?_).prepend hinner)
  rw [hu]
  rfl

end Closes

end Token

open Token (Closes Nested)

/-! ## What is gathered -/

namespace Statement

/-- Gathered tokens close what is expected before them if nothing is expected behind them. -/
theorem Gathered.closes_of_through {custom colon : Bool} {state : Bool × List TokenKind}
    {tokens : List Token} (h : through custom state tokens = some (colon, [])) :
    Closes state.2 tokens := by
  induction tokens generalizing state with
  | nil =>
      cases h
      exact .nil
  | cons t rest ih =>
      obtain ⟨next, hnext, h⟩ := exists_next?_of_through h
      have hrest := ih h
      have hplain {opening : Prop} [Decidable opening]
          (hnone : (if opening then some TokenKind.rightBrace else closer? t.kind) = none) :
          closer? t.kind = none := by
        split at hnone
        · cases hnone
        · exact hnone
      unfold next? at hnext
      split at hnext
      · next closer expected hopening =>
          cases hnext
          split at hopening
          · next hbrace =>
              cases hopening
              exact hrest.openedBrace hbrace.1
          · exact hrest.opened hopening
      · next hopening hexpected =>
          rw [hexpected]
          have hnone : next.2 = [] := by
            split at hnext <;> cases hnext <;> rfl
          rw [hnone] at hrest
          exact hrest.skip (hplain hopening)
      · next closer outer hopening hexpected =>
          rw [hexpected]
          split at hnext
          · next hclose =>
              cases hnext
              exact hrest.close hclose
          · cases hnext
            exact hrest.skip (hplain hopening)

/-- Parameters close what is expected before them if nothing is expected behind them. -/
theorem Params.closes_of_through {expected : List TokenKind} {tokens : List Token}
    (h : through expected tokens = some []) : Closes expected tokens := by
  induction tokens generalizing expected with
  | nil =>
      cases h
      exact .nil
  | cons t rest ih =>
      obtain ⟨next, hnext, h⟩ := exists_next?_of_through h
      have hrest := ih h
      rw [eq_nestParams_of_next? hnext] at hrest
      unfold nestParams at hrest
      split at hrest
      · next hopening => exact hrest.opened hopening
      · next hopening =>
          split at hrest
          · exact hrest.skip hopening
          · split at hrest
            · next hbrace => exact hrest.openedBrace hbrace
            · split at hrest
              · next hclose => exact hrest.close hclose
              · exact hrest.skip hopening

/-! ## Statements -/

/-- The tokens of a statement in which brackets can be: the selector of a rule, a declaration, or
the parameters of an at-rule. -/
def bracketed : Statement → List Token
  | atRule _ params _ => params
  | rule head _ => head
  | declaration tokens .. => tokens
  | _ => []

variable {stop : Nat} {t : Token} {rest behind : List Token} {statement : Statement}

/-- A statement that strict assembly takes is nested, but for an at-rule that the text ends in. -/
theorem Cut.nested (hcut : Cut stop t rest statement behind) {a b : Assembly}
    (htakes : a.Takes statement b) :
    Nested statement.bracketed ∨
      ∃ word params, statement = .atRule word params .input ∧ behind = [] := by
  have hparams {word : Token} {params : List Token} {ending : AtRuleEnd}
      (hcut : Cut stop t rest (.atRule word params ending) behind) (hinput : ending ≠ .input) :
      Nested (Statement.atRule word params ending).bracketed :=
    Params.closes_of_through (hcut.through_atRule hinput)
  cases htakes with
  | space | semicolon | comment | close => exact .inl .nil
  | rule head brace =>
      obtain ⟨-, rfl | ⟨more, colon, -, -, hthrough, -⟩⟩ := hcut.through_rule
      · exact .inl .nil
      · exact .inl (Gathered.closes_of_through hthrough)
  | atEnded | atBlock | atClose => exact .inl (hparams hcut nofun)
  | atInput | atInputParams => exact .inr ⟨_, _, rfl, hcut.fits_atRule.1⟩
  | @declaration tokens custom =>
      obtain ⟨hdeclared, hends⟩ := hcut.isDeclared
      have hbody : Nested (bodyOf tokens) := Gathered.closes_of_through hdeclared.through
      rcases hends with ⟨s, htokens, hs⟩ | ⟨htokens, -⟩
      · have hsemicolon : Nested [s] := .skip (by rw [hs]; rfl) .nil
        rw [bracketed, htokens]
        exact .inl (hbody.append hsemicolon)
      · rw [bracketed, htokens]
        exact .inl hbody

end Statement

open Statement (ofRun)

/-- Only the last one of the statements that strict assembly takes can be an at-rule with a
bracket that is still open. -/
theorem Assembly.TakesRun.nested {a b : Assembly} {stop steps : Nat} {tokens : List Token}
    (h : Assembly.TakesRun stop a tokens b) (hsteps : tokens.length < steps)
    {before behind : List Statement} {statement : Statement}
    (hs : Statement.group stop none steps tokens = before ++ statement :: behind) :
    Nested statement.bracketed ∨
      ∃ word params, statement = .atRule word params .input ∧ behind = [] := by
  induction h generalizing steps before with
  | nil =>
      obtain ⟨steps, rfl⟩ := Nat.exists_eq_add_one_of_ne_zero (Nat.ne_zero_of_lt hsteps)
      exact absurd hs.symm (List.append_ne_nil_of_right_ne_nil _ (List.cons_ne_nil _ _))
  | @cons _ _ _ t rest taken left hfirst htakes _ ih =>
      obtain ⟨steps, rfl⟩ := Nat.exists_eq_add_one_of_ne_zero (Nat.ne_zero_of_lt hsteps)
      have hcut := Statement.first_cut stop t rest
      have hlength := Statement.length_first_le stop none t rest
      rw [hfirst] at hcut hlength
      have hleft : left.length < steps :=
        Nat.lt_of_le_of_lt hlength (Nat.lt_of_succ_lt_succ hsteps)
      simp only [Statement.group, hfirst] at hs
      cases before with
      | nil =>
          cases hs
          refine (hcut.nested htakes).imp_right ?_
          rintro ⟨word, params, rfl, rfl⟩
          refine ⟨word, params, rfl, ?_⟩
          obtain ⟨steps, rfl⟩ := Nat.exists_eq_add_one_of_ne_zero (Nat.ne_zero_of_lt hleft)
          rfl
      | cons other before =>
          rw [List.cons_append, List.cons.injEq] at hs
          exact ih hleft hs.2

/-- In a text that strict reading takes, the brackets of every selector, every declaration and the
parameters of every at-rule are closed, but for an at-rule that is the last statement and that the
text ends in. -/
theorem nested_of_parse {source : Source} {doc : Document} (h : parse source .strict = .ok doc)
    {before behind : List Statement} {statement : Statement}
    (hs : ofRun source.size (Token.run source.text .fail) = before ++ statement :: behind) :
    Nested statement.bracketed ∨
      ∃ word params, statement = .atRule word params .input ∧ behind = [] := by
  obtain ⟨final, hassemble, rfl⟩ := parse_eq_ok.mp h
  obtain ⟨a, hfailure, hruns, -, -⟩ := assemble_strict_eq_ok hassemble
  unfold ofRun at hs
  rw [hfailure] at hs
  exact hruns.nested (Nat.lt_succ_self _) hs

/-- The brackets of a selector are closed, here and in any other text that is taken. -/
theorem nested_of_parse_selector :
    ∃ doc head brace behind, parse ⟨"a[b] \x7b c: (d) \x7d".toList, none⟩ .strict = .ok doc ∧
      ofRun 15 (Token.run "a[b] \x7b c: (d) \x7d".toList .fail) =
        [] ++ .rule head brace :: behind ∧ Nested head := by
  have h {doc : Document} {head : List Token} {brace : Token} {behind : List Statement}
      (hparse : parse ⟨"a[b] \x7b c: (d) \x7d".toList, none⟩ .strict = .ok doc)
      (hs : ofRun 15 (Token.run "a[b] \x7b c: (d) \x7d".toList .fail) =
        [] ++ .rule head brace :: behind) : Nested head := by
    rcases nested_of_parse hparse hs with hnested | ⟨_, _, hatRule, _⟩
    · exact hnested
    · cases hatRule
  exact ⟨_, _, _, _, rfl, rfl, h rfl rfl⟩

/-- A bracket of parameters that the text ends in is not closed, and strict reading takes it. -/
theorem not_nested_of_parse :
    ∃ doc word params, parse ⟨"@a (b".toList, none⟩ .strict = .ok doc ∧
      ofRun 5 (Token.run "@a (b".toList .fail) = [.atRule word params .input] ∧
        ¬Nested params := by
  refine ⟨_, _, [_] ++ _ :: [_], rfl, rfl, fun h ↦ ?_⟩
  obtain ⟨u, hu, hkind⟩ := h.exists_closer rfl
  rw [List.mem_singleton] at hu
  subst hu
  cases hkind

end Stylesheet
