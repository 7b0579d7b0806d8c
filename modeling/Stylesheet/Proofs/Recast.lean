import Stylesheet.Proofs.Strict

/-!
# What grouping looks at

How tokens are cut into parts and grouped into statements depends on little of them. A change of
tokens that keeps that little `IsRecast`, and the cuts commute with it. `Token.sketch` keeps no
more, so that `group_map_sketch` says that runs with the same sketches have the same statements,
but for their texts and places.
-/

namespace Stylesheet

namespace Token

/-- A change of tokens that keeps their kinds and the words in front of an old kind of filter. -/
structure IsRecast (f : Token → Token) : Prop where
  kind : ∀ t, (f t).kind = t.kind
  progid : ∀ t, isProgid (f t) = isProgid t

variable {f : Token → Token} {p : Token → Bool}

theorem IsRecast.is (hf : IsRecast f) (kind : TokenKind) (t : Token) :
    (f t).is kind = t.is kind := by
  rw [Token.is, hf.kind, Token.is]

theorem IsRecast.isTrivia (hf : IsRecast f) (t : Token) : (f t).isTrivia = t.isTrivia := by
  rw [Token.isTrivia, hf.kind, Token.isTrivia]

theorem splitLeading_map (hp : ∀ t, p (f t) = p t) (tokens : List Token) :
    splitLeading p (tokens.map f) =
      ((splitLeading p tokens).1.map f, (splitLeading p tokens).2.map f) := by
  have hcomp : p ∘ f = p := funext hp
  rw [splitLeading, splitLeading, List.takeWhile_map, List.dropWhile_map, hcomp]

theorem splitTrailing_map (hp : ∀ t, p (f t) = p t) (tokens : List Token) :
    splitTrailing p (tokens.map f) =
      ((splitTrailing p tokens).1.map f, (splitTrailing p tokens).2.map f) := by
  have hcomp : p ∘ f = p := funext hp
  rw [splitTrailing, splitTrailing, ← List.map_reverse, List.takeWhile_map, List.dropWhile_map,
    hcomp, ← List.map_reverse, ← List.map_reverse]

end Token

open Token

variable {f : Token → Token}

theorem Statement.bodyOf_map (hf : IsRecast f) (tokens : List Token) :
    bodyOf (tokens.map f) = (bodyOf tokens).map f := by
  have hlast : (tokens.map f).getLast?.any (·.is .semicolon) =
      tokens.getLast?.any (·.is .semicolon) := by
    rw [List.getLast?_map]
    cases tokens.getLast? with
    | none => rfl
    | some t => exact hf.is .semicolon t
  unfold bodyOf
  rw [hlast]
  split
  · rw [List.map_dropLast]
  · rfl

/-! ## Parts of a declaration -/

namespace Parts

/-- `p.map f` are the parts with their tokens changed. -/
def map (f : Token → Token) (p : Parts) : Parts where
  stray := p.stray.map f
  name := p.name.map f
  colon := p.colon.map f
  gap := p.gap.map f
  value := p.value.map f

theorem throughColon_map (hf : IsRecast f) (tokens : List Token) :
    throughColon (tokens.map f) = ((throughColon tokens).1.map f,
      (throughColon tokens).2.map f) := by
  induction tokens with
  | nil => rfl
  | cons t rest ih =>
      rw [List.map_cons, throughColon, throughColon, hf.is]
      split
      · rfl
      · rw [ih]
        rfl

theorem ofTokens?_map (hf : IsRecast f) (tokens : List Token) :
    ofTokens? (tokens.map f) = (ofTokens? tokens).map (map f) := by
  unfold ofTokens?
  rw [splitLeading_map fun t ↦ by rw [hf.is]]
  dsimp only
  rw [splitLeading_map fun t ↦ by rw [hf.is, hf.isTrivia], throughColon_map hf]
  dsimp only
  rw [splitLeading_map hf.isTrivia, List.isEmpty_map]
  cases (splitLeading (!·.is .word) tokens).2.isEmpty <;> rfl

end Parts

/-! ## Colons -/

theorem leadingColon_map (hf : IsRecast f) (value : List Token) :
    leadingColon (value.map f) = (leadingColon value).map f := by
  cases value with
  | nil => rfl
  | cons t rest =>
      show Option.filter _ (some (f t)) = (Option.filter _ (some t)).map f
      rw [Option.filter_some, Option.filter_some, hf.is]
      split <;> rfl

theorem findColon_map (hf : IsRecast f) (depth : Int) (previous : Token) (tokens : List Token) :
    findColon depth (f previous) (tokens.map f) =
      (findColon depth previous tokens).map fun cut ↦ (cut.1.map f, cut.2.map f) := by
  induction tokens generalizing depth previous with
  | nil => rfl
  | cons t rest ih =>
      have hnesting : nesting (f t) depth = nesting t depth := by rw [nesting, hf.kind, nesting]
      rw [List.map_cons, findColon, findColon, hf.is, hf.progid, hnesting]
      split
      · split
        · rw [ih, Option.map_map, Option.map_map]
          rfl
        · rfl
      · rw [ih, Option.map_map, Option.map_map]
        rfl

theorem secondColon_map (hf : IsRecast f) (value : List Token) :
    secondColon (value.map f) =
      (secondColon value).map fun cut ↦ (cut.1.map f, cut.2.map f) := by
  cases value with
  | nil => rfl
  | cons t rest =>
      have hnesting : nesting (f t) 0 = nesting t 0 := by rw [nesting, hf.kind, nesting]
      rw [List.map_cons, secondColon, secondColon, hnesting, findColon_map hf, Option.map_map,
        Option.map_map]
      rfl

theorem Missed.isSome_ofValue?_map (hf : IsRecast f) (value : List Token) :
    (ofValue? (value.map f)).isSome = (ofValue? value).isSome := by
  unfold ofValue?
  rw [secondColon_map hf]
  cases secondColon value with
  | none => rfl
  | some cut =>
      obtain ⟨before, behind⟩ := cut
      have hstart := splitTrailing_map (f := f) (p := (!·.is .word))
        (fun t ↦ by rw [hf.is]) before
      simp only [Option.map_some, Option.bind_some, hstart, List.length_map]
      by_cases hshort : (splitTrailing (!·.is .word) before).1.length ≤ 1
      · rw [if_pos hshort, if_pos hshort]
      · rw [if_neg hshort, if_neg hshort]
        rfl

/-! ## Statements -/

namespace Token

/-- `t.sketch` is a token of the same kind with no more of its text than grouping looks at. -/
def sketch (t : Token) : Token where
  kind := t.kind
  span := ⟨0, 0⟩
  text :=
    if Statement.isCustom t then "--".toList
    else if isProgid t then "progid".toList
    else []

theorem text_sketch {t : Token} (hcustom : Statement.isCustom t = false) :
    t.sketch.text = if isProgid t then "progid".toList else [] :=
  if_neg (by rw [hcustom]; exact Bool.false_ne_true)

theorem isCustom_sketch (t : Token) : Statement.isCustom t.sketch = Statement.isCustom t := by
  cases hcustom : Statement.isCustom t with
  | true =>
      have htext : t.sketch.text = "--".toList := if_pos hcustom
      rw [Statement.isCustom, htext]
      rfl
  | false =>
      rw [Statement.isCustom, text_sketch hcustom]
      cases isProgid t <;> rfl

theorem isProgid_sketch (t : Token) : isProgid t.sketch = isProgid t := by
  have hsketch : isProgid t.sketch = (t.is .word && t.sketch.text == "progid".toList) := rfl
  rw [hsketch]
  cases hcustom : Statement.isCustom t with
  | true =>
      have htext : t.sketch.text = "--".toList := if_pos hcustom
      have hother : (t.text == "progid".toList) = false := by
        refine beq_eq_false_iff_ne.mpr fun hprogid ↦ ?_
        rw [Statement.isCustom, hprogid] at hcustom
        cases hcustom
      rw [isProgid, hother, htext]
      rfl
  | false =>
      rw [text_sketch hcustom]
      cases hprogid : isProgid t with
      | true =>
          rw [(Bool.and_eq_true_iff.mp hprogid).1]
          rfl
      | false => exact Bool.and_false _

theorem isRecast_sketch : IsRecast sketch := ⟨fun _ ↦ rfl, isProgid_sketch⟩

end Token

/-- `e.sketch` is the end of an at-rule with a sketch of its token. -/
def AtRuleEnd.sketch : AtRuleEnd → AtRuleEnd
  | semicolon t => semicolon t.sketch
  | block t => block t.sketch
  | close t => close t.sketch
  | input => input
  | failure e => failure e

namespace Statement

/-- `s.sketch` is a statement of the sketches of its tokens. -/
def sketch : Statement → Statement
  | space t => space t.sketch
  | semicolon t => semicolon t.sketch
  | close t => close t.sketch
  | comment t => comment t.sketch
  | atRule word params ending => atRule word.sketch (params.map Token.sketch) ending.sketch
  | rule head brace => rule (head.map Token.sketch) brace.sketch
  | declaration tokens custom _ opened =>
      declaration (tokens.map Token.sketch) custom 0 (opened.map fun _ ↦ ⟨0, 0⟩)
  | stray tokens opened => stray (tokens.map Token.sketch) (opened.map fun _ ↦ ⟨0, 0⟩)
  | failure e => failure e

/-- `p.sketch` are the parameters of an at-rule as sketches. -/
def Params.sketch (p : Params) : Params :=
  ⟨p.tokens.map Token.sketch, p.ending.sketch, p.rest.map Token.sketch⟩

theorem Params.gather_map_sketch (expected : List TokenKind) (tokens : List Token) :
    gather none expected (tokens.map Token.sketch) = (gather none expected tokens).sketch := by
  induction tokens generalizing expected with
  | nil => rfl
  | cons t rest ih =>
      have hkind : t.sketch.kind = t.kind := rfl
      rw [List.map_cons, gather, gather, hkind]
      dsimp only
      split
      · split
        · rfl
        · rfl
        · rfl
        · rw [ih]
          rfl
      · rw [ih]
        rfl

/-- `e.sketch` is the end of a gathering with a sketch of its token. -/
def GatherEnd.sketch : GatherEnd → GatherEnd
  | semicolon t => semicolon t.sketch
  | brace t => brace t.sketch
  | close => close
  | input => input

/-- `g.sketch` is what is gathered as sketches. -/
def Gathered.sketch (g : Gathered) : Gathered :=
  ⟨g.tokens.map Token.sketch, g.ending.sketch, g.colon, g.opened.map fun _ ↦ ⟨0, 0⟩,
    g.rest.map Token.sketch⟩

theorem Gathered.gather_map_sketch (custom colon : Bool) (expected : List TokenKind)
    (opened : Option Span) (tokens : List Token) :
    gather custom colon expected (opened.map fun _ ↦ ⟨0, 0⟩) (tokens.map Token.sketch) =
      (gather custom colon expected opened tokens).sketch := by
  induction tokens generalizing colon expected opened with
  | nil => rfl
  | cons t rest ih =>
      have hkind : t.sketch.kind = t.kind := rfl
      -- Both runs gather the token, and what is known of the open bracket stays the same.
      have hadd (colon : Bool) (expected : List TokenKind) {inner opened : Option Span}
          (hinner : inner = opened.map fun _ ↦ ⟨0, 0⟩) :
          ({ gather custom colon expected inner (rest.map Token.sketch) with
            tokens := t.sketch ::
              (gather custom colon expected inner (rest.map Token.sketch)).tokens } : Gathered) =
          ({ gather custom colon expected opened rest with
            tokens :=
              t :: (gather custom colon expected opened rest).tokens } : Gathered).sketch := by
        rw [hinner, ih]
        rfl
      simp only [List.map_cons, gather, hkind]
      split
      · exact hadd _ _ (by cases opened <;> rfl)
      · split
        · rfl
        · rfl
        · rfl
        · exact hadd _ _ rfl
        · exact hadd _ _ rfl
      · split
        · exact hadd _ _ (by split <;> rfl)
        · exact hadd _ _ rfl

theorem settle_map_sketch (custom : Bool) (tokens : List Token) (terminator : Nat)
    (opened : Option Span) (colon : Bool) (rest : List Token) :
    settle custom (tokens.map Token.sketch) 0 (opened.map fun _ ↦ ⟨0, 0⟩) colon
        (rest.map Token.sketch) =
      ((settle custom tokens terminator opened colon rest).1.sketch,
        (settle custom tokens terminator opened colon rest).2.map Token.sketch) := by
  cases colon with
  | false => rfl
  | true =>
      cases custom with
      | true => rfl
      | false =>
          simp only [settle, Bool.not_true, Bool.false_eq_true, if_false,
            Token.splitTrailing_map Token.isRecast_sketch.isTrivia, List.map_append]
          rfl

theorem other_map_sketch (stop : Nat) (t : Token) (rest : List Token) :
    other 0 none t.sketch (rest.map Token.sketch) =
      ((other stop none t rest).1.sketch, (other stop none t rest).2.map Token.sketch) := by
  have hgather : Gathered.gather (isCustom t) false [] none (t.sketch :: rest.map Token.sketch) =
      (Gathered.gather (isCustom t) false [] none (t :: rest)).sketch :=
    Gathered.gather_map_sketch (isCustom t) false [] none (t :: rest)
  simp only [other, Token.isCustom_sketch, hgather]
  generalize Gathered.gather (isCustom t) false [] none (t :: rest) = gathered
  obtain ⟨tokens, ending, colon, opened, behind⟩ := gathered
  cases ending with
  | semicolon s =>
      have hend : tokens.map Token.sketch ++ [s.sketch] = (tokens ++ [s]).map Token.sketch := by
        rw [List.map_append, List.map_singleton]
      simp only [Gathered.sketch, GatherEnd.sketch, hend]
      cases colon <;> rfl
  | brace b => rfl
  | close =>
      have hterminator : ((behind.map Token.sketch).head?.map (·.span.start)).getD 0 = 0 := by
        cases behind <;> rfl
      simp only [Gathered.sketch, GatherEnd.sketch, hterminator]
      exact settle_map_sketch (isCustom t) tokens _ none colon behind
  | input => exact settle_map_sketch (isCustom t) tokens stop opened colon behind

theorem first_map_sketch (stop : Nat) (t : Token) (rest : List Token) :
    first 0 none t.sketch (rest.map Token.sketch) =
      ((first stop none t rest).1.sketch, (first stop none t rest).2.map Token.sketch) := by
  have hkind : t.sketch.kind = t.kind := rfl
  unfold first
  rw [hkind]
  split
  case h_6 =>
    rw [Params.gather_map_sketch]
    rfl
  case h_7 => exact other_map_sketch stop t rest
  all_goals rfl

/-- The statements of a run of sketches are the sketches of its statements. -/
theorem group_map_sketch (stop steps : Nat) (tokens : List Token) :
    group 0 none steps (tokens.map Token.sketch) = (group stop none steps tokens).map sketch := by
  induction steps generalizing tokens with
  | zero => rfl
  | succ steps ih =>
      cases tokens with
      | nil => rfl
      | cons t rest =>
          simp only [List.map_cons, group, first_map_sketch stop, ih]

end Statement

end Stylesheet
