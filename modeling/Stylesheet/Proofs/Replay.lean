import Stylesheet.Proofs.Outline

/-!
# Runs that have an effect wherever they stand

`Token.Does` says that strict assembly takes a run of tokens with an effect on the outline
wherever the run stands, and `Assembly.Takes.does` says so of a statement that is grouped again.
`Token.EndsWith` is about a run that reaches to the end of its container: a declaration or an
at-rule without a semicolon has its effect only there (`Statement.IsDeclared.endsWith`,
`Token.endsWith_atRule`).
-/

namespace Stylesheet

open Assembly

/-- `Token.Does last ts e` says that strict assembly takes the run `ts` with the effect `e`
wherever this is possible, and goes on behind it. If `last` is set, nothing may follow. -/
def Token.Does (last : Bool) (ts : List Token) (e : Effect) : Prop :=
  ∀ (stop : Nat) (a : Assembly) (rest : List Token), (last = true → rest = []) → e.Applies a →
    ∃ b, e.Holds a b ∧ ∀ c, TakesRun stop b rest c → TakesRun stop a (ts ++ rest) c

namespace Token

variable {first second ts us : List Token} {e e' all : Effect} {last : Bool}

theorem does_nil (last : Bool) : Does last [] (.adds .nil) :=
  fun _ a _ _ _ ↦ ⟨a, ⟨rfl, rfl, (Forest.append_nil _).symm⟩, fun _ ↦ id⟩

theorem Does.append (hall : e.Then e' all) (hfirst : Does false first e)
    (hsecond : Does last second e') : Does last (first ++ second) all := by
  intro stop a rest hrest happlies
  obtain ⟨hbefore, hbehind⟩ := hall.applies happlies
  obtain ⟨b, hb, htakes⟩ := hfirst stop a (second ++ rest) nofun hbefore
  obtain ⟨c, hc, htakes'⟩ := hsecond stop b rest hrest (hbehind b hb)
  refine ⟨c, hall.holds hb hc, fun d hd ↦ ?_⟩
  rw [List.append_assoc]
  exact htakes _ (htakes' d hd)

/-- What adds nothing can stand before anything. -/
theorem Does.append_of_nil (hfirst : Does false first (.adds .nil))
    (hsecond : Does last second e) : Does last (first ++ second) e := by
  refine hfirst.append ?_ hsecond
  cases e with
  | adds trees => exact .adds .nil trees
  | opens node => exact .opens node
  | closes trees => exact .closes .nil trees

end Token

namespace Assembly

variable {a b : Assembly} {stop : Nat} {us rest : List Token} {statement : Statement}

/-- A statement that is grouped again is taken again. -/
theorem exists_takesRun_of_again {e : Effect} (hrepeats : a.Repeats statement e)
    (hagain : statement.Again stop us rest) (happlies : e.Applies a) :
    ∃ b, e.Holds a b ∧ ∀ c, TakesRun stop b rest c → TakesRun stop a (us ++ rest) c := by
  obtain ⟨u, vs, s, rfl, hfirst, hbare⟩ := hagain
  obtain ⟨b, htakes, hholds⟩ := hrepeats s hbare happlies
  exact ⟨b, hholds, fun c hc ↦ .cons hfirst htakes hc⟩

/-- A statement that is grouped again is taken with the same effect wherever it stands. -/
theorem Takes.does {e : Effect} (h : a.Takes statement b) (hholds : e.Holds a b)
    (hagain : ∀ stop rest, statement.Again stop us rest) : Token.Does false us e := by
  obtain ⟨e', hholds', hrepeats⟩ := h.again
  obtain rfl := Effect.eq_of_holds hholds hholds'
  exact fun stop c rest _ happlies ↦ exists_takesRun_of_again (hrepeats c)
    (hagain stop rest) happlies

end Assembly

namespace Token

variable {ts us : List Token}

/-- White space and semicolons add nothing to the outline. -/
theorem does_of_blank (h : ∀ t ∈ ts, t.kind = .space ∨ t.kind = .semicolon) :
    Does false ts (.adds .nil) := by
  induction ts with
  | nil => exact does_nil false
  | cons t rest ih =>
      have hrest := ih fun u hu ↦ h u (List.mem_cons_of_mem _ hu)
      suffices hone : Does false [t] (.adds .nil) from hone.append_of_nil hrest
      intro stop a behind _ _
      rcases h t List.mem_cons_self with ht | ht
      · refine ⟨_, a.holds_wait t.text, fun c hc ↦ .cons ?_ (.space t) hc⟩
        simp only [Statement.first, ht]
        rfl
      · refine ⟨_, a.holds_freeSemicolon t, fun c hc ↦ .cons ?_ (.semicolon t) hc⟩
        simp only [Statement.first, ht]
        rfl

/-- A closing brace closes the innermost block. -/
theorem does_brace {brace : Token} (h : brace.kind = .rightBrace) :
    Does false [brace] (.closes .nil) := by
  intro stop a rest _ happlies
  obtain ⟨outer, enclosing, ha⟩ := List.exists_cons_of_ne_nil happlies
  refine ⟨_, holds_closed ha, fun c hc ↦ .cons ?_ (.close brace ha) hc⟩
  simp only [Statement.first, h]
  rfl

/-! ## Up to the end of a container -/

/-- `EndsWith ts trees` says that a run adds these trees at the end of its container: before a
closing brace, which closes the container behind them, and at the end of the text. -/
structure EndsWith (ts : List Token) (trees : Forest Core) : Prop where
  block : ∀ {brace : Token}, brace.kind = .rightBrace → Does false (ts ++ [brace]) (.closes trees)
  text : Does true ts (.adds trees)

namespace EndsWith

theorem nil : EndsWith [] .nil :=
  ⟨does_brace, does_nil true⟩

theorem prepend {first second : List Token} {trees more : Forest Core}
    (hfirst : Does false first (.adds trees)) (hsecond : EndsWith second more) :
    EndsWith (first ++ second) (trees ++ more) := by
  refine ⟨fun {brace} hbrace ↦ ?_, hfirst.append (.adds trees more) hsecond.text⟩
  rw [List.append_assoc]
  exact hfirst.append (.closes trees more) (hsecond.block hbrace)

theorem of_does {trees : Forest Core} (h : Does false ts (.adds trees)) : EndsWith ts trees := by
  have := prepend h nil
  rwa [List.append_nil, Forest.append_nil] at this

end EndsWith

/-- An at-rule without a semicolon adds itself at the end of its container. -/
theorem endsWith_atRule {word : Token} {params spaces : List Token} (hkind : word.kind = .atWord)
    (hname : word.text.drop 1 ≠ []) (hthrough : Statement.Params.through [] params = some [])
    (hspaces : ∀ t ∈ spaces, t.kind = .space) :
    EndsWith (word :: params ++ spaces) (.cons (atRuleLeaf word params) .nil .nil) := by
  have htrivia : ∀ t ∈ spaces, t.isTrivia = true := fun t ht ↦ by
    rw [isTrivia, hspaces t ht]
    rfl
  have hcore : atRuleLeaf word params = atRuleLeaf word (params ++ spaces) := by
    rw [atRuleLeaf, atRuleLeaf, atRuleKind_append word params htrivia]
  have hall : Statement.Params.through [] (params ++ spaces) = some [] := by
    rw [Statement.Params.through_append, hthrough]
    exact Statement.Params.through_of_trivia (List.forall_mem_nil _) htrivia
  have hagain {ending : AtRuleEnd} (stop : Nat) {rest : List Token}
      (hfits : ending.Fits none rest) :
      (Statement.atRule word (params ++ spaces) ending).Again stop
        (word :: params ++ spaces ++ ending.tokens) rest := by
    refine ⟨word, params ++ spaces ++ ending.tokens, _, rfl, ?_, rfl⟩
    rw [List.append_assoc _ ending.tokens]
    exact Statement.first_atRule hkind hall hfits stop
  rw [hcore]
  refine ⟨fun {brace} hbrace stop a rest _ happlies ↦ ?_, fun stop a rest hrest happlies ↦ ?_⟩
  · exact exists_takesRun_of_again (a.repeats_atClose brace hname)
      (hagain stop (show AtRuleEnd.Fits none rest (.close brace) from hbrace)) happlies
  · rw [hrest rfl]
    have h := exists_takesRun_of_again (a.repeats_atInput hname)
      (hagain stop (show AtRuleEnd.Fits none [] .input from ⟨rfl, rfl⟩)) happlies
    rwa [show AtRuleEnd.tokens .input = [] from rfl, List.append_nil] at h

end Token

/-- A declaration without a semicolon adds itself at the end of its container, with what white
space and comments behind it add. -/
theorem Statement.IsDeclared.endsWith {custom : Bool} {terminator : Nat}
    {tokens us trivia : List Token} {core : Core} {trees : Forest Core}
    (h : IsDeclared custom tokens)
    (hrepeats : ∀ c : Assembly, c.Repeats (.declaration tokens custom terminator none)
      (.adds (.cons core .nil .nil)))
    (hus : Token.Alike us tokens) (htrivia : ∀ t ∈ trivia, t.isTrivia = true)
    (htrees : Token.Does false trivia (.adds trees)) (hcustom : custom = true → trivia = [])
    (hlast : custom = false → ∀ v ∈ tokens.getLast?, v.isTrivia = false) :
    Token.EndsWith (us ++ trivia) (.cons core .nil trees) := by
  have hfirst (stop : Nat) (a : Assembly) {left : List Token} (hleft : AtBlockEnd left) :
      ∃ b, (Effect.adds (.cons core .nil .nil)).Holds a b ∧
        ∀ c, TakesRun stop b (trivia ++ left) c → TakesRun stop a (us ++ (trivia ++ left)) c :=
    exists_takesRun_of_again (hrepeats a)
      (h.again_open hcustom hlast htrivia hleft hus terminator stop) trivial
  refine ⟨fun {brace} hbrace stop a rest _ happlies ↦ ?_, fun stop a rest hrest _ ↦ ?_⟩
  · have hall := Effect.Then.closes (.cons core .nil .nil) trees
    obtain ⟨b, hb, htakes⟩ := hfirst stop a (.inr ⟨brace, rest, rfl, hbrace⟩)
    have hbehind := (Token.EndsWith.of_does htrees).block hbrace
    obtain ⟨c, hc, htakes'⟩ := hbehind stop b rest nofun ((hall.applies happlies).2 b hb)
    refine ⟨c, hall.holds hb hc, fun d hd ↦ ?_⟩
    have := htakes d (by simpa using htakes' d hd)
    simpa using this
  · have hall := Effect.Then.adds (.cons core .nil .nil) trees
    rw [hrest rfl]
    obtain ⟨b, hb, htakes⟩ := hfirst stop a (show AtBlockEnd [] from .inl rfl)
    obtain ⟨c, hc, htakes'⟩ := htrees stop b [] nofun trivial
    refine ⟨c, hall.holds hb hc, fun d hd ↦ ?_⟩
    rw [List.append_assoc]
    exact htakes d (htakes' d hd)

end Stylesheet
