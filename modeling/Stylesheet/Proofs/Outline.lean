import Stylesheet.Proofs.Regroup
import Stylesheet.Proofs.RoundTrip

/-!
# What a statement does to the outline

The outline of a document has the kinds of its nodes and says which of them have a block. A
statement adds nodes to the outline, opens a block or closes one, and which of these it does
depends on its tokens without their places (`Assembly.Takes.again`). `Token.Does` says that strict
assembly takes a run of tokens with one such effect, in any place and whatever follows, and
effects are put together by `Token.Does.append`.
-/

namespace Stylesheet

/-- What the outline of a document shows of a node: its kind and whether it has a block. -/
abbrev Core := Kind × Bool

/-- `n.core` is what the outline shows of a node. -/
def Node.core (n : Node) : Core := (n.kind, n.hasBlock)

@[simp] theorem Assembly.core_stopNode (a : Assembly) (stop : Nat) (n : Node) :
    (a.stopNode stop n).core = n.core := rfl

/-- `f.outline` is the outline of the finished trees in a container. -/
def Frame.outline (f : Frame) : Forest Core := (Forest.ofRev f.earlier).map Node.core

theorem Frame.outline_adopt (f : Frame) (tree : Node × Forest Node) :
    (f.adopt tree).outline = f.outline ++ .cons tree.1.core (tree.2.map Node.core) .nil := by
  rw [outline, adopt, Forest.ofRev_cons, Forest.map_append]
  rfl

@[simp] theorem Frame.core_settle (f : Frame) (semicolon : Bool) (spaces : Text) :
    (f.settle semicolon spaces).node.core = f.node.core := by
  unfold settle
  split <;> rfl

@[simp] theorem Frame.earlier_settle (f : Frame) (semicolon : Bool) (spaces : Text) :
    (f.settle semicolon spaces).earlier = f.earlier := by
  unfold settle
  split <;> rfl

/-! ## Effects -/

/-- What a run of tokens does to the outline: it adds trees to the innermost container, opens a
container with this node, or closes the innermost container behind some last trees. -/
inductive Effect where
  | adds (trees : Forest Core)
  | opens (node : Core)
  | closes (trees : Forest Core)

namespace Effect

/-- `e.Applies a` says that an effect is possible: only the root cannot be closed. -/
def Applies : Effect → Assembly → Prop
  | adds _, _ | opens _, _ => True
  | closes _, a => a.enclosing ≠ []

/-- `e.Holds a b` says that an effect leads from `a` to `b`. -/
def Holds : Effect → Assembly → Assembly → Prop
  | adds trees, a, b =>
      b.enclosing = a.enclosing ∧ b.current.node.core = a.current.node.core ∧
        b.current.outline = a.current.outline ++ trees
  | opens node, a, b =>
      ∃ outer, b.enclosing = outer :: a.enclosing ∧ outer.node.core = a.current.node.core ∧
        outer.outline = a.current.outline ∧ b.current.node.core = node ∧
        b.current.outline = .nil
  | closes trees, a, b =>
      ∃ outer enclosing, a.enclosing = outer :: enclosing ∧ b.enclosing = enclosing ∧
        b.current.node.core = outer.node.core ∧
        b.current.outline = outer.outline ++
          .cons a.current.node.core (a.current.outline ++ trees) .nil

/-- `e.Then e' all` says that `e` and `e'` behind it have the effect `all`. -/
inductive Then : Effect → Effect → Effect → Prop where
  | adds (first second) : Then (adds first) (adds second) (adds (first ++ second))
  | closes (first second) : Then (adds first) (closes second) (closes (first ++ second))
  | opens (node) : Then (adds .nil) (opens node) (opens node)
  | block (node trees) : Then (opens node) (closes trees) (adds (.cons node trees .nil))

variable {e e' all : Effect} {a b c : Assembly}

theorem Then.holds (h : e.Then e' all) (hab : e.Holds a b) (hbc : e'.Holds b c) :
    all.Holds a c := by
  cases h with
  | adds first second =>
      obtain ⟨henclosing, hnode, houtline⟩ := hab
      obtain ⟨henclosing', hnode', houtline'⟩ := hbc
      refine ⟨henclosing'.trans henclosing, hnode'.trans hnode, ?_⟩
      rw [houtline', houtline, Forest.append_assoc]
  | closes first second =>
      obtain ⟨henclosing, hnode, houtline⟩ := hab
      obtain ⟨outer, enclosing, hopen, hclosed, hnode', houtline'⟩ := hbc
      refine ⟨outer, enclosing, henclosing.symm.trans hopen, hclosed, hnode', ?_⟩
      rw [houtline', hnode, houtline, Forest.append_assoc]
  | opens node =>
      obtain ⟨henclosing, hnode, houtline⟩ := hab
      obtain ⟨outer, henclosing', houter, htrees, hnode', houtline'⟩ := hbc
      rw [Forest.append_nil] at houtline
      exact ⟨outer, henclosing'.trans (congrArg (outer :: ·) henclosing), houter.trans hnode,
        htrees.trans houtline, hnode', houtline'⟩
  | block node trees =>
      obtain ⟨outer, henclosing, houter, htrees, hnode, houtline⟩ := hab
      obtain ⟨outer', enclosing, hopen, hclosed, hnode', houtline'⟩ := hbc
      obtain ⟨rfl, rfl⟩ := List.cons.inj (henclosing.symm.trans hopen)
      refine ⟨hclosed, hnode'.trans houter, ?_⟩
      rw [houtline', hnode, houtline, htrees]
      rfl

/-- `e.deeper` is the number of containers that an effect opens, negative if it closes one. -/
def deeper : Effect → Int
  | adds _ => 0
  | opens _ => 1
  | closes _ => -1

theorem length_enclosing_of_holds (h : e.Holds a b) :
    (b.enclosing.length : Int) = a.enclosing.length + e.deeper := by
  cases e with
  | adds trees => simp [h.1, deeper]
  | opens node =>
      obtain ⟨outer, henclosing, -⟩ := h
      simp [henclosing, deeper]
  | closes trees =>
      obtain ⟨outer, enclosing, hopen, hclosed, -⟩ := h
      simp only [hopen, hclosed, deeper, List.length_cons]
      omega

/-- What a run of statements does to the outline is a single effect. -/
theorem eq_of_holds (h : e.Holds a b) (h' : e'.Holds a b) : e = e' := by
  have hdeeper : e.deeper = e'.deeper := by
    have := length_enclosing_of_holds h
    have := length_enclosing_of_holds h'
    omega
  cases e with
  | adds trees =>
      cases e' with
      | adds trees' => exact congrArg adds (Forest.append_left_cancel (h.2.2.symm.trans h'.2.2))
      | opens | closes => cases hdeeper
  | opens node =>
      cases e' with
      | opens node' =>
          obtain ⟨_, _, _, _, hnode, _⟩ := h
          obtain ⟨_, _, _, _, hnode', _⟩ := h'
          exact congrArg opens (hnode.symm.trans hnode')
      | adds | closes => cases hdeeper
  | closes trees =>
      cases e' with
      | closes trees' =>
          obtain ⟨outer, _, hopen, _, _, houtline⟩ := h
          obtain ⟨outer', _, hopen', _, _, houtline'⟩ := h'
          obtain ⟨rfl, rfl⟩ := List.cons.inj (hopen.symm.trans hopen')
          have hlast := Forest.append_left_cancel (houtline.symm.trans houtline')
          simp only [Forest.cons.injEq, true_and, and_true] at hlast
          exact congrArg closes (Forest.append_left_cancel hlast)
      | adds | opens => cases hdeeper

theorem Then.applies (h : e.Then e' all) (hall : all.Applies a) :
    e.Applies a ∧ ∀ b, e.Holds a b → e'.Applies b := by
  cases h with
  | adds | opens => exact ⟨trivial, fun _ _ ↦ trivial⟩
  | closes =>
      refine ⟨trivial, fun b hab ↦ ?_⟩
      show b.enclosing ≠ []
      rw [hab.1]
      exact hall
  | block =>
      refine ⟨trivial, fun b hab ↦ ?_⟩
      obtain ⟨outer, henclosing, -⟩ := hab
      show b.enclosing ≠ []
      rw [henclosing]
      exact nofun

end Effect

namespace Assembly

variable {a b : Assembly}

theorem holds_wait (a : Assembly) (text : Text) : (Effect.adds .nil).Holds a (a.wait text) :=
  ⟨rfl, rfl, (Forest.append_nil _).symm⟩

theorem holds_addLeaf {n : Node} {core : Core} (h : n.core = core) (semicolon : Bool) :
    (Effect.adds (.cons core .nil .nil)).Holds a (a.addLeaf n semicolon) := by
  subst h
  exact ⟨rfl, rfl, a.current.outline_adopt (n, .nil)⟩

theorem holds_openFrame {n : Node} {core : Core} (h : n.core = core) :
    (Effect.opens core).Holds a (a.openFrame n) :=
  ⟨a.current, rfl, rfl, rfl, h, rfl⟩

theorem holds_closed {t : Token} {outer : Frame} {enclosing : List Frame}
    (h : a.enclosing = outer :: enclosing) :
    (Effect.closes .nil).Holds a (a.closed t outer enclosing) := by
  refine ⟨outer, enclosing, h, rfl, rfl, ?_⟩
  show (outer.adopt _).outline = _
  rw [Frame.outline_adopt]
  show outer.outline ++ .cons (a.current.settle a.semicolon a.spaces).node.core
    ((Forest.ofRev (a.current.settle a.semicolon a.spaces).earlier).map Node.core) .nil = _
  rw [Frame.core_settle, Frame.earlier_settle, Forest.append_nil]
  rfl

/-- A free semicolon changes nothing in the outline. -/
theorem holds_freeSemicolon (a : Assembly) (t : Token) :
    (Effect.adds .nil).Holds a (a.freeSemicolon t) := by
  obtain hwait | ⟨tree, earlier, hearlier, -, -, htaken⟩ := a.freeSemicolon_cases t
  · rw [hwait]
    exact a.holds_wait _
  · rw [htaken]
    refine ⟨rfl, rfl, ?_⟩
    rw [Forest.append_nil, Frame.outline_adopt, Frame.eq_adopt hearlier, Frame.outline_adopt]
    rfl

/-! ## The nodes of alike statements -/

theorem core_declarationNode (a : Assembly) (custom : Bool) (tokens : List Token) (parts : Parts)
    (marked : Marked) :
    (a.declarationNode custom tokens parts marked).core =
      (.declaration (hackSign (Token.spelling parts.name)).2
        (Value.ofTokens custom
          ((if marked.tokens.all Token.isTrivia then parts.gap else []) ++ marked.tokens)).text
        marked.important, false) := rfl

/-- What a declaration is does not depend on the places of its tokens. -/
theorem core_declarationNode_bare (a b : Assembly) (custom : Bool) (tokens us : List Token)
    (parts : Parts) :
    (a.declarationNode custom tokens parts.bare (takeImportant parts.bare.value)).core =
      (b.declarationNode custom us parts (takeImportant parts.value)).core := by
  have hmarked : takeImportant parts.bare.value = (takeImportant parts.value).bare :=
    takeImportant_map_bare parts.value
  rw [hmarked, core_declarationNode, core_declarationNode]
  generalize takeImportant parts.value = marked
  have hblank : marked.bare.tokens.all Token.isTrivia = marked.tokens.all Token.isTrivia := by
    rw [Marked.bare, List.all_map]
    rfl
  have htokens : (if marked.bare.tokens.all Token.isTrivia then parts.bare.gap else []) ++
      marked.bare.tokens = ((if marked.tokens.all Token.isTrivia then parts.gap else []) ++
        marked.tokens).map Token.bare := by
    rw [hblank, List.map_append]
    split <;> rfl
  have hname : Token.spelling parts.bare.name = Token.spelling parts.name :=
    Token.spelling_map_bare parts.name
  rw [htokens, Value.ofTokens_map_bare, hname]
  rfl

theorem core_declarationNode_of_bare (a b : Assembly) (custom : Bool) (tokens us : List Token)
    {parts parts' : Parts} (h : parts'.bare = parts.bare) :
    (b.declarationNode custom us parts' (takeImportant parts'.value)).core =
      (a.declarationNode custom tokens parts (takeImportant parts.value)).core := by
  rw [← core_declarationNode_bare a b custom tokens us parts', h, core_declarationNode_bare]

theorem alike_atRuleCore {params us : List Token} (hus : Token.Alike us params) :
    Token.Alike (atRuleCore us) (atRuleCore params) := by
  have hcore (params : List Token) :
      atRuleCore (params.map Token.bare) = (atRuleCore params).map Token.bare := by
    rw [atRuleCore, Token.splitTrailing_map (f := Token.bare) fun _ ↦ rfl,
      Token.splitLeading_map (f := Token.bare) fun _ ↦ rfl]
    rfl
  rw [Token.Alike, ← hcore, ← hcore, show us.map Token.bare = _ from hus]

/-- `atRuleKind word params` is the kind of an at-rule with these tokens. -/
def atRuleKind (word : Token) (params : List Token) : Kind :=
  .atRule (word.text.drop 1) (Value.ofTokens false (atRuleCore params)).text

theorem core_atRuleNode (a : Assembly) (word : Token) (params : List Token) (between : Text) :
    (a.atRuleNode word params between).core = (atRuleKind word params, false) := rfl

/-- What an at-rule is does not depend on the places of its tokens. -/
theorem atRuleKind_of_bare {word u : Token} {params us : List Token} (hword : u.bare = word.bare)
    (hus : Token.Alike us params) : atRuleKind u us = atRuleKind word params := by
  have hvalue : Value.ofTokens false (atRuleCore us) =
      Value.ofTokens false (atRuleCore params) := by
    rw [← Value.ofTokens_map_bare false (atRuleCore us), alike_atRuleCore hus,
      Value.ofTokens_map_bare]
  rw [atRuleKind, atRuleKind, hvalue, Token.text_of_bare hword]

/-- What a rule is does not depend on the places of its tokens. -/
theorem core_ruleNode_of_bare (a b : Assembly) {head us : List Token} {brace u : Token}
    (hus : Token.Alike us head) : (b.ruleNode us u).core = (a.ruleNode head brace).core := by
  have hvalue (head : List Token) :
      Value.ofTokens false (Token.splitTrailing Token.isTrivia (head.map Token.bare)).1 =
        Value.ofTokens false (Token.splitTrailing Token.isTrivia head).1 := by
    rw [Token.splitTrailing_map (f := Token.bare) fun _ ↦ rfl, Value.ofTokens_map_bare]
  show (Kind.rule (Value.ofTokens false (Token.splitTrailing Token.isTrivia us).1).text, true) =
    (Kind.rule (Value.ofTokens false (Token.splitTrailing Token.isTrivia head).1).text, true)
  rw [← hvalue us, show us.map Token.bare = _ from hus, hvalue]

/-- What a comment is does not depend on its place. -/
theorem core_commentNode_of_bare (a b : Assembly) {t u : Token} (hu : u.bare = t.bare) :
    (b.commentNode u).core = (a.commentNode t).core := by
  have hhealed : u.healed = t.healed := by
    rw [← Token.healed_bare u, hu, Token.healed_bare]
  show ((commentKind u.text u.healed).1, (b.commentNode u).hasBlock) =
    ((commentKind t.text t.healed).1, (a.commentNode t).hasBlock)
  rw [Token.text_of_bare hu, hhealed, hasBlock_commentNode, hasBlock_commentNode]

/-! ## Alike statements -/

/-- `a.Repeats statement e` says that strict assembly can take an alike statement, with the effect
`e`. -/
def Repeats (a : Assembly) (statement : Statement) (e : Effect) : Prop :=
  ∀ s : Statement, s.bare = statement.bare → e.Applies a → ∃ b, a.Takes s b ∧ e.Holds a b

theorem colons_eq_none_of_alike {tokens us : List Token} (hus : Token.Alike us tokens)
    (h : leadingColon tokens = none ∧ secondColon tokens = none) :
    leadingColon us = none ∧ secondColon us = none := by
  have hleading := leadingColon_map Token.isRecast_bare us
  have hsecond := secondColon_map Token.isRecast_bare us
  rw [show us.map Token.bare = _ from hus] at hleading hsecond
  rw [leadingColon_map Token.isRecast_bare, h.1] at hleading
  rw [secondColon_map Token.isRecast_bare, h.2] at hsecond
  exact ⟨Option.map_eq_none_iff.mp hleading.symm, Option.map_eq_none_iff.mp hsecond.symm⟩

theorem alike_bodyOf {tokens us : List Token} (hus : Token.Alike us tokens) :
    Token.Alike (Statement.bodyOf us) (Statement.bodyOf tokens) := by
  unfold Token.Alike
  rw [← Statement.bodyOf_map Token.isRecast_bare, ← Statement.bodyOf_map Token.isRecast_bare,
    show us.map Token.bare = tokens.map Token.bare from hus]

/-- A declaration adds a node that its tokens without the semicolon make, and so do alike ones
everywhere. -/
theorem Takes.declaration_again {tokens : List Token} {custom : Bool} {terminator : Nat}
    (h : a.Takes (.declaration tokens custom terminator none) b) :
    ∃ core : Core, (Effect.adds (.cons core .nil .nil)).Holds a b ∧
      ∀ {us} (terminator' : Nat), Token.Alike (Statement.bodyOf us) (Statement.bodyOf tokens) →
        ∀ c : Assembly, c.Repeats (.declaration us custom terminator' none)
          (.adds (.cons core .nil .nil)) := by
  cases h with
  | @declaration _ _ _ parts node value hparts hwords hnode hvalue hsome hcolons =>
      refine ⟨node.core, holds_addLeaf rfl _, fun {us} terminator' hus c s hs _ ↦ ?_⟩
      obtain ⟨vs, terminator₂, rfl, hvs⟩ := Statement.eq_declaration_of_bare hs
      have hbody : Token.Alike (Statement.bodyOf vs) (Statement.bodyOf tokens) :=
        Eq.trans (alike_bodyOf hvs) hus
      have hparts' : (Parts.ofTokens? (Statement.bodyOf vs)).map Parts.bare =
          some parts.bare := by
        rw [← Parts.ofTokens?_map_bare,
          show (Statement.bodyOf vs).map Token.bare =
          (Statement.bodyOf tokens).map Token.bare from
            hbody, Parts.ofTokens?_map_bare, hparts]
        rfl
      obtain ⟨parts', hparts', hbare⟩ := Option.map_eq_some_iff.mp hparts'
      have hwords' : parts'.unknownWords = [] := by
        have h := parts'.unknownWords_bare
        rw [hbare, Parts.unknownWords_bare, hwords] at h
        exact List.map_eq_nil_iff.mp h.symm
      have hmarked : Token.Alike (takeImportant parts'.value).tokens
          (takeImportant parts.value).tokens := by
        have h := congrArg Marked.tokens (takeImportant_map_bare parts'.value)
        have hvalue : parts'.value.map Token.bare = parts.value.map Token.bare :=
          congrArg Parts.value hbare
        rw [hvalue, takeImportant_map_bare] at h
        exact h.symm
      subst hnode
      have hcore := core_declarationNode_of_bare a c custom tokens vs hbare
      have hvalue' : (c.declarationNode custom vs parts'
          (takeImportant parts'.value)).kind.value? = some value := by
        rw [← hvalue]
        exact congrArg (fun core : Core ↦ core.1.value?) hcore
      exact ⟨_, .declaration terminator₂ hparts' hwords' rfl hvalue' hsome fun hcustom hmem ↦
        colons_eq_none_of_alike hmarked (hcolons hcustom hmem), holds_addLeaf hcore _⟩

/-! ## Alike at-rules -/

/-- White space and comments behind its parameters do not change what an at-rule is. -/
theorem atRuleKind_append (word : Token) (params : List Token) {trivia : List Token}
    (htrivia : ∀ t ∈ trivia, t.isTrivia = true) :
    atRuleKind word (params ++ trivia) = atRuleKind word params := by
  have hsplit : (Token.splitTrailing Token.isTrivia (params ++ trivia)).1 =
      (Token.splitTrailing Token.isTrivia params).1 := by
    have hreverse : ∀ t ∈ trivia.reverse, t.isTrivia = true := fun t ht ↦
      htrivia t (List.mem_reverse.mp ht)
    rw [Token.splitTrailing, List.reverse_append, List.dropWhile_append_of_pos hreverse]
    rfl
  rw [atRuleKind, atRuleCore, hsplit]
  rfl

/-- Alike at-rules have a name, alike parameters and the same kind. -/
theorem repeats_atRule {word : Token} {params : List Token} {ending : AtRuleEnd} {e : Effect}
    (hname : word.text.drop 1 ≠ [])
    (h : ∀ {u us ending'}, u.text.drop 1 ≠ [] → Token.Alike us params →
      atRuleKind u us = atRuleKind word params → AtRuleEnd.bare ending' = ending.bare →
      e.Applies a → ∃ b, a.Takes (.atRule u us ending') b ∧ e.Holds a b) :
    a.Repeats (.atRule word params ending) e := by
  intro s hs happlies
  obtain ⟨u, us, ending', rfl, hu, hus, hending⟩ := Statement.eq_atRule_of_bare hs
  refine h ?_ hus (atRuleKind_of_bare hu hus) hending happlies
  rw [Token.text_of_bare hu]
  exact hname

section AtRule

variable {word : Token} {params : List Token}

/-- `atRuleLeaf word params` is what the outline shows of an at-rule without a block. -/
abbrev atRuleLeaf (word : Token) (params : List Token) : Core := (atRuleKind word params, false)

theorem core_stopNode_atRuleNode (a : Assembly) (stop : Nat) (between : Text) {u : Token}
    {us : List Token} (h : atRuleKind u us = atRuleKind word params) :
    (a.stopNode stop (a.atRuleNode u us between)).core = atRuleLeaf word params := by
  rw [core_stopNode, core_atRuleNode, h]

theorem repeats_atEnded (a : Assembly) (t : Token) (hname : word.text.drop 1 ≠ []) :
    a.Repeats (.atRule word params (.semicolon t))
      (.adds (.cons (atRuleLeaf word params) .nil .nil)) := by
  refine repeats_atRule hname fun {u us ending'} hname hus hkind hending _ ↦ ?_
  cases ending' <;> simp [AtRuleEnd.bare] at hending
  exact ⟨_, .atEnded _ _ hname, holds_addLeaf (a.core_stopNode_atRuleNode _ _ hkind) true⟩

theorem repeats_atBlock (a : Assembly) (t : Token) (hname : word.text.drop 1 ≠ []) :
    a.Repeats (.atRule word params (.block t)) (.opens (atRuleKind word params, true)) := by
  refine repeats_atRule hname fun {u us ending'} hname hus hkind hending _ ↦ ?_
  cases ending' <;> simp [AtRuleEnd.bare] at hending
  exact ⟨_, .atBlock _ _ hname, holds_openFrame (congrArg (·, true) hkind)⟩

theorem repeats_atClose (a : Assembly) (t : Token) (hname : word.text.drop 1 ≠ []) :
    a.Repeats (.atRule word params (.close t))
      (.closes (.cons (atRuleLeaf word params) .nil .nil)) := by
  refine repeats_atRule hname fun {u us ending'} hname hus hkind hending happlies ↦ ?_
  cases ending' <;> simp [AtRuleEnd.bare] at hending
  obtain ⟨outer, enclosing, ha⟩ := List.exists_cons_of_ne_nil happlies
  exact ⟨_, .atClose _ _ hname ha, (Effect.Then.closes (.cons _ .nil .nil) .nil).holds
    (holds_addLeaf (a.core_stopNode_atRuleNode _ _ hkind) false) (holds_closed ha)⟩

theorem repeats_atInput (a : Assembly) (hname : word.text.drop 1 ≠ []) :
    a.Repeats (.atRule word params .input)
      (.adds (.cons (atRuleLeaf word params) .nil .nil)) := by
  refine repeats_atRule hname fun {u us ending'} hname hus hkind hending _ ↦ ?_
  cases ending' <;> simp [AtRuleEnd.bare] at hending
  cases hempty : (atRuleCore us).isEmpty with
  | true =>
      exact ⟨_, .atInput hname hempty,
        holds_addLeaf (a.core_stopNode_atRuleNode _ _ hkind) false⟩
  | false =>
      exact ⟨_, .atInputParams hname hempty, (Effect.Then.adds (.cons _ .nil .nil) .nil).holds
        (holds_addLeaf (a.core_stopNode_atRuleNode _ _ hkind) false) (holds_wait _ _)⟩

end AtRule

/-- An at-rule that is taken has a name. -/
theorem Takes.name_ne_nil {word : Token} {params : List Token} {ending : AtRuleEnd}
    (h : a.Takes (.atRule word params ending) b) : word.text.drop 1 ≠ [] := by
  cases h <;> assumption

/-- An at-rule has one of the effects on the outline, and alike ones have it everywhere. -/
theorem Takes.atRule_again {word : Token} {params : List Token} {ending : AtRuleEnd}
    (h : a.Takes (.atRule word params ending) b) :
    ∃ e : Effect, e.Holds a b ∧ ∀ c : Assembly, c.Repeats (.atRule word params ending) e := by
  have hname := h.name_ne_nil
  cases h with
  | atEnded _ t => exact ⟨_, holds_addLeaf rfl true, fun c ↦ c.repeats_atEnded t hname⟩
  | atBlock _ t => exact ⟨_, holds_openFrame rfl, fun c ↦ c.repeats_atBlock t hname⟩
  | atClose _ t _ hopen =>
      exact ⟨_, (Effect.Then.closes (.cons _ .nil .nil) .nil).holds (holds_addLeaf rfl false)
        (holds_closed hopen), fun c ↦ c.repeats_atClose t hname⟩
  | atInput => exact ⟨_, holds_addLeaf rfl false, fun c ↦ c.repeats_atInput hname⟩
  | atInputParams =>
      exact ⟨_, (Effect.Then.adds (.cons _ .nil .nil) .nil).holds (holds_addLeaf rfl false)
        (holds_wait _ _), fun c ↦ c.repeats_atInput hname⟩

/-- A statement has one of the effects on the outline, and alike statements have it everywhere. -/
theorem Takes.again {statement : Statement} (h : a.Takes statement b) :
    ∃ e : Effect, e.Holds a b ∧ ∀ c : Assembly, c.Repeats statement e := by
  cases h with
  | space t =>
      refine ⟨.adds .nil, a.holds_wait _, fun c s hs _ ↦ ?_⟩
      obtain ⟨u, rfl⟩ := Statement.eq_space_of_bare hs
      exact ⟨_, .space u, c.holds_wait _⟩
  | semicolon t =>
      refine ⟨.adds .nil, a.holds_freeSemicolon t, fun c s hs _ ↦ ?_⟩
      obtain ⟨u, rfl⟩ := Statement.eq_semicolon_of_bare hs
      exact ⟨_, .semicolon u, c.holds_freeSemicolon u⟩
  | comment t =>
      refine ⟨.adds (.cons (a.commentNode t).core .nil .nil), holds_addLeaf rfl _,
        fun c s hs _ ↦ ?_⟩
      obtain ⟨u, rfl, hu⟩ := Statement.eq_comment_of_bare hs
      exact ⟨_, .comment u, holds_addLeaf (a.core_commentNode_of_bare c hu) _⟩
  | rule head brace =>
      refine ⟨.opens (a.ruleNode head brace).core, holds_openFrame rfl, fun c s hs _ ↦ ?_⟩
      obtain ⟨us, u, rfl, hus⟩ := Statement.eq_rule_of_bare hs
      exact ⟨_, .rule us u, holds_openFrame (a.core_ruleNode_of_bare c hus)⟩
  | close t hopen =>
      refine ⟨.closes .nil, holds_closed hopen, fun c s hs happlies ↦ ?_⟩
      obtain ⟨u, rfl⟩ := Statement.eq_close_of_bare hs
      obtain ⟨outer, enclosing, hc⟩ := List.exists_cons_of_ne_nil happlies
      exact ⟨_, .close u hc, holds_closed hc⟩
  | atEnded params t hname => exact (Takes.atEnded params t hname).atRule_again
  | atBlock params t hname => exact (Takes.atBlock params t hname).atRule_again
  | atClose params t hname hopen => exact (Takes.atClose params t hname hopen).atRule_again
  | atInput hname hempty => exact (Takes.atInput hname hempty).atRule_again
  | atInputParams hname hempty => exact (Takes.atInputParams hname hempty).atRule_again
  | declaration terminator hparts hwords hnode hvalue hsome hcolons =>
      obtain ⟨core, hholds, hrepeats⟩ :=
        (Takes.declaration terminator hparts hwords hnode hvalue hsome hcolons).declaration_again
      exact ⟨_, hholds, hrepeats terminator (Token.Alike.refl _)⟩

end Assembly

end Stylesheet
