import Stylesheet.Proofs.Waiting

/-!
# Nodes that can be read again

`Node.IsReadable` says that what a node has recorded is read as this node again wherever it
stands, and `Forest.IsReadable` says so of all nodes of a forest. A leaf without a semicolon is
read again at the end of its container only, where no more than `Node.Trails` allows may stand
behind it. Strict assembly makes forests of this sort (`Assembly.IsReadable.run`): the text of a
node is made from the tokens of its statement and from the text that waited before it, and both
can be read again.
-/

namespace Stylesheet

open Assembly

namespace Node

variable {n : Node} {ended : Bool}

/-- `n.trailer` is the recorded text behind the block of a node. -/
def trailer (n : Node) : Text :=
  if n.type = .rule then n.raws.ownSemicolon.getD [] else []

/-- `n.isCustom` says that a node is a declaration of a custom property. Behind other text than
blanks and semicolons a name with two dashes is none. -/
def isCustom (n : Node) : Bool :=
  match n.kind with
  | .declaration property .. => property.take 2 == ['-', '-'] && n.before.all Text.isGap
  | _ => false

/-- `n.isTight` says that neither white space nor a comment ends the text of a declaration other
than a custom property. -/
def isTight (n : Node) : Bool :=
  n.isCustom || n.type != .declaration ||
    !(n.before ++ n.head).getLast?.any fun c ↦ Classifier.stock.is .space c || c == '/'

/-- `n.Trails tail trees` says that some tokens may stand between a leaf without a semicolon and
the end of its container, and that they add these trees. A custom property takes all of them for
its value, an at-rule takes comments for parameters, and another declaration leaves white space
and comments alone. -/
def Trails (n : Node) (tail : List Token) (trees : Forest Core) : Prop :=
  if n.isCustom then tail = [] ∧ trees = .nil
  else if n.type = .declaration then
    (∀ t ∈ tail, t.isTrivia = true) ∧ Token.Does false tail (.adds trees)
  else (∀ t ∈ tail, t.kind = .space) ∧ trees = .nil

/-- `n.IsReadable ended` says that what a node has recorded is read as the node wherever it
stands. Of a leaf other than a comment this is said with its semicolon if it ends with one, and
without it at the end of a container. -/
structure IsReadable (n : Node) (ended : Bool) : Prop where
  opening : n.hasBlock = true → (n.before ++ n.head ++ ['\x7b']).Does (.opens n.core)
  trailer : n.hasBlock = true → n.trailer.Does (.adds .nil)
  comment : n.type = .comment → ∀ z : Text, (n.before ++ n.head).IsReadAs z fun us ↦
    Token.Does false us (.adds (.cons n.core .nil .nil)) ∧
      ((∀ c ∈ n.before, Classifier.stock.is .space c = true) → ∀ t ∈ us, t.isTrivia = true)
  leaf : n.hasBlock = false → n.type ≠ .comment → ended = true →
    (n.before ++ n.head ++ [';']).Does (.adds (.cons n.core .nil .nil))
  last : n.hasBlock = false → n.type ≠ .comment → n.isTight = true →
    (n.before ++ n.head).AddsLast n.Trails n.core

theorem IsReadable.weaken (h : n.IsReadable ended) {less : Bool}
    (hless : less = true → ended = true) : n.IsReadable less :=
  ⟨h.opening, h.trailer, h.comment, fun hleaf htype hends ↦ h.leaf hleaf htype (hless hends),
    h.last⟩

theorem isReadable_leaf (hleaf : n.hasBlock = false) (htype : n.type ≠ .comment)
    (hended : ended = true → (n.before ++ n.head ++ [';']).Does (.adds (.cons n.core .nil .nil)))
    (hlast : n.isTight = true → (n.before ++ n.head).AddsLast n.Trails n.core) :
    n.IsReadable ended :=
  ⟨fun hblock ↦ absurd (hleaf.symm.trans hblock) Bool.false_ne_true,
    fun hblock ↦ absurd (hleaf.symm.trans hblock) Bool.false_ne_true,
    fun hcomment ↦ absurd hcomment htype, fun _ _ ↦ hended, fun _ _ ↦ hlast⟩

theorem isReadable_block (hblock : n.hasBlock = true) (htype : n.type ≠ .comment)
    (htrailer : n.trailer.Does (.adds .nil))
    (hdoes : (n.before ++ n.head ++ ['\x7b']).Does (.opens n.core)) (ended : Bool) :
    n.IsReadable ended :=
  ⟨fun _ ↦ hdoes, fun _ ↦ htrailer, fun hcomment ↦ absurd hcomment htype,
    fun hleaf ↦ absurd (hleaf.symm.trans hblock) Bool.false_ne_true,
    fun hleaf ↦ absurd (hleaf.symm.trans hblock) Bool.false_ne_true⟩

theorem trails_atRule {word : Token} {params tail : List Token}
    {trees : Forest Core} (hcore : n.core = atRuleLeaf word params) (h : n.Trails tail trees) :
    (∀ t ∈ tail, t.kind = .space) ∧ trees = .nil := by
  have hkind : n.kind = atRuleKind word params := congrArg Prod.fst hcore
  rw [Node.Trails, if_neg, if_neg] at h
  · exact h
  · rw [Node.type, hkind]
    intro htype
    cases htype
  · rw [Node.isCustom, hkind]
    exact Bool.false_ne_true

end Node

namespace Forest

/-- `f.IsReadable semicolon` says that all nodes of a forest are read again. `semicolon` says that
the last tree that is no comment ends with a semicolon. -/
def IsReadable (semicolon : Bool) : Forest Node → Prop
  | nil => True
  | cons n below rest =>
      n.IsReadable (rest.endsBefore || semicolon) ∧
        below.IsReadable (n.raws.semicolon.getD false) ∧ rest.IsReadable semicolon

theorem isReadable_append {semicolon : Bool} {f g : Forest Node} :
    (f ++ g).IsReadable semicolon ↔
      f.IsReadable (g.endsBefore || semicolon) ∧ g.IsReadable semicolon := by
  induction f with
  | nil => simp [IsReadable]
  | cons n below rest _ ih =>
      rw [cons_append, IsReadable, IsReadable, ih, endsBefore_append, Bool.or_assoc, and_assoc,
        and_assoc]

end Forest

namespace Frame

/-- The finished trees in a container can be read again. -/
def IsReadable (semicolon : Bool) (f : Frame) : Prop :=
  (Forest.ofRev f.earlier).IsReadable semicolon

theorem isReadable_adopt {semicolon : Bool} {f : Frame} {tree : Node × Forest Node} :
    (f.adopt tree).IsReadable semicolon ↔
      f.IsReadable (tree.1.type != .comment || semicolon) ∧ tree.1.IsReadable semicolon ∧
        tree.2.IsReadable (tree.1.raws.semicolon.getD false) := by
  rw [IsReadable, adopt, Forest.ofRev_cons, Forest.isReadable_append]
  simp [Forest.IsReadable, Forest.endsBefore, Forest.tops, IsReadable]

/-- `f.IsReopened enclosing` says that the heads of the open containers can be read again, and all
that is finished in those around `f`. -/
def IsReopened (f : Frame) : List Frame → Prop
  | [] => True
  | outer :: enclosing =>
      (f.node.before ++ f.node.head ++ ['\x7b']).Does (.opens f.node.core) ∧
        outer.IsReadable true ∧ outer.IsReopened enclosing

theorem IsReopened.withEarlier {f : Frame} {enclosing : List Frame} (h : f.IsReopened enclosing)
    (earlier : List (Node × Forest Node)) : { f with earlier }.IsReopened enclosing := by
  cases enclosing with
  | nil => trivial
  | cons => exact h

end Frame

/-- `s.isSealed` says that a statement does not draw in what follows it: its last word is not
`url`, which would make a parenthesis start the body of a url, and an at-rule at the end of the
text has closed its brackets. -/
def Statement.isSealed (s : Statement) : Bool :=
  Token.wordBehind none s.tokens != some "url".toList &&
    match s with
    | .atRule _ params .input => Params.through [] params == some []
    | _ => true

namespace Assembly

variable {a b : Assembly} {stop : Nat} {t : Token} {rest front behind tokens : List Token}
  {statement : Statement}

/-! ## Leaves -/

/-- A comment is read again, and as one of the tokens that are skipped if only white space stands
before it. -/
theorem Awaits.isReadable_comment (h : a.Awaits (t :: rest)) (hkind : t.kind = .comment)
    (hformed : t.IsFormed) (hhealed : t.healed = false) (ended : Bool) :
    (a.commentNode t).IsReadable ended := by
  have hleaf := a.hasBlock_commentNode t
  have htype := a.type_commentNode t
  have htext : (a.commentNode t).before ++ (a.commentNode t).head =
      a.spaces ++ Token.spelling [t] := by
    rw [a.text_commentNode hkind hformed hhealed, Token.spelling_cons, Token.spelling_nil,
      List.append_nil]
  have hcut : Statement.Cut 0 t rest (.comment t) rest := .comment hkind
  have hword : Token.wordBehind none [t] ≠ some "url".toList := by
    rw [Token.wordBehind_of_isMute (by simp [Token.IsMute, hkind])]
    exact (Option.some_ne_none _).symm
  have hholds : (Effect.adds (.cons (a.commentNode t).core .nil .nil)).Holds a (a.comment t) :=
    holds_addLeaf rfl _
  refine ⟨fun hblock ↦ absurd (hleaf.symm.trans hblock) Bool.false_ne_true,
    fun hblock ↦ absurd (hleaf.symm.trans hblock) Bool.false_ne_true, fun _ z ↦ ?_,
    fun _ hne ↦ absurd htype hne, fun _ hne ↦ absurd htype hne⟩
  rw [htext]
  have h : a.Awaits ([t] ++ rest) := h
  refine (h.isReadAs (hcut.isCovered trivial)
    ⟨[], t, rfl, .inr (.inr (.inr hkind))⟩ hword z).imp fun us hus ↦ ?_
  obtain ⟨gap, vs, rfl, hgap, hvs, hblank⟩ := hus
  refine ⟨(Token.does_of_blank hgap).append_of_nil ((Takes.comment t).does hholds fun stop rest ↦
    hcut.again trivial hvs stop rest), fun hbefore ↦
      List.forall_mem_append.mpr ⟨fun u hu ↦ ?_, ?_⟩⟩
  · rw [Token.isTrivia, hblank hbefore u hu]
    rfl
  · exact hvs.forall_kind (P := fun kind ↦ kind.isTrivia = true)
      (by simp [hkind, TokenKind.isTrivia])

/-- An at-rule that has closed its brackets can stand at the end of a container. -/
theorem Awaits.addsLast_atRule {n : Node} {word : Token} {params : List Token}
    (h : a.Awaits (word :: params ++ behind)) (hkind : word.kind = .atWord)
    (hname : word.text.drop 1 ≠ []) (hthrough : Statement.Params.through [] params = some [])
    (hword : Token.wordBehind none (word :: params) ≠ some "url".toList)
    (hcore : n.core = atRuleLeaf word params)
    (htext : n.before ++ n.head = a.spaces ++ word.text ++ Token.spelling params) :
    (n.before ++ n.head).AddsLast n.Trails n.core := by
  have hcovered : Token.IsCovered (word :: params) :=
    (Token.isCovered_singleton (by rw [hkind]; decide)).append
      (Statement.Params.isCovered_of_through hthrough).1
  rw [List.append_assoc, ← Token.spelling_cons] at htext
  rw [htext]
  refine h.addsLast (List.cons_ne_nil _ _) hcovered hword fun us hus tail trees htrails ↦ ?_
  obtain ⟨hspaces, rfl⟩ := Node.trails_atRule hcore htrails
  obtain ⟨u, vs, rfl, hu, hvs⟩ := hus.exists_cons
  have hends := Token.endsWith_atRule ((Token.kind_of_bare hu).trans hkind)
    (by rwa [Token.text_of_bare hu]) ((Statement.Params.through_of_alike hvs []).trans hthrough)
    hspaces
  rwa [atRuleLeaf, atRuleKind_of_bare hu hvs, ← atRuleLeaf, ← hcore] at hends

/-- A declaration that starts with two dashes, and no other one, is one of a custom property. -/
theorem Awaits.isCustom_declarationNode {more : List Token} {parts : Parts}
    (h : a.Awaits (t :: more ++ behind)) (hstarts : Statement.StartsOther t)
    (hparts : Parts.ofTokens? (t :: more) = some parts) (custom : Bool) (marked : Marked) :
    (a.declarationNode custom tokens parts marked).isCustom = Statement.isCustom t := by
  have hgap := h.isGap_spaces (List.cons_ne_nil _ _)
  have h : a.Awaits ([] ++ t :: (more ++ behind)) := h
  obtain ⟨l, next, text, hpolicy, hclassifier, hscan, hrest⟩ := h.exists_scan
  obtain ⟨hcustom, hword⟩ := Lexer.isCustom_eq hpolicy hclassifier hscan
  obtain ⟨c, x, htext, hc⟩ :=
    Lexer.isGap_of_starts hpolicy hclassifier hscan hstarts.1 hstarts.2.1
  show ((hackSign (Token.spelling parts.name)).2.take 2 == ['-', '-'] &&
    (a.spaces ++ Token.spelling parts.stray ++ (hackSign (Token.spelling parts.name)).1).all
      Text.isGap) = _
  by_cases hkind : t.kind = .word
  · obtain ⟨hstray, us, vs, hname, hmore⟩ := Parts.starts_of_word hparts hkind
    rw [hstray, Token.spelling_nil, List.append_nil, List.all_append, hgap, Bool.true_and]
    by_cases hsign : c = '_' ∨ c = '*'
    · -- A sign of its own stands before the name.
      have hfirst : (hackSign (Token.spelling parts.name)).1 = [c] := by
        rw [hname, Token.spelling_cons, htext]
        rcases hsign with rfl | rfl <;> rfl
      have hnot : Statement.isCustom t = false := by
        rw [Statement.isCustom, htext]
        rcases hsign with rfl | rfl <;> rfl
      rw [hfirst, List.all_cons, hc, hnot, Bool.false_and, Bool.and_false]
    · have hsign : hackSign (Token.spelling parts.name) = ([], Token.spelling parts.name) := by
        rw [hname, Token.spelling_cons, htext]
        unfold hackSign
        split
        · next heq => exact absurd (.inl (List.cons.inj heq).1) hsign
        · next heq => exact absurd (.inr (List.cons.inj heq).1) hsign
        · rfl
      have hextend {x : Text} (y : Text) (h : x.take 2 = ['-', '-']) :
          (x ++ y).take 2 = ['-', '-'] :=
        (List.prefix_iff_eq_take.mp ((List.prefix_iff_eq_take.mpr h.symm).trans
          (List.prefix_append x y))).symm
      rw [hsign, List.all_nil, Bool.and_true, Bool.eq_iff_iff, beq_iff_eq]
      constructor
      · intro hdashes
        rw [hcustom, beq_iff_eq, hrest, hmore, List.append_assoc, ← List.cons_append, ← hname,
          Token.spelling_append, List.append_assoc]
        exact hextend _ hdashes
      · intro hdashes
        rw [hname, Token.spelling_cons]
        exact hextend _ (beq_iff_eq.mp hdashes)
  · -- A token that is no word is stray in front of the name.
    obtain ⟨us, hstray⟩ : ∃ us, parts.stray = t :: us := by
      have his : t.is .word = false := beq_eq_false_iff_ne.mpr hkind
      simp only [Parts.ofTokens?, Token.splitLeading, List.takeWhile_cons, his, Bool.not_false,
        if_true] at hparts
      split at hparts
      · cases hparts
      · rw [← Option.some.inj hparts]
        exact ⟨_, rfl⟩
    rw [hstray, Token.spelling_cons, htext, List.all_append, List.all_append, List.cons_append,
      List.all_cons, hc, Bool.false_and, Bool.and_false, Bool.false_and, Bool.and_false,
      Bool.eq_false_iff.mpr fun h ↦ hkind (hword h)]

/-- A declaration can stand at the end of a container without its semicolon. -/
theorem Awaits.addsLast_declaration {n : Node} {custom : Bool} {body : List Token}
    (h : a.Awaits (body ++ behind)) (hdeclared : Statement.IsDeclared custom body)
    (hrepeats : ∀ c : Assembly,
      c.Repeats (.declaration body custom 0 none) (.adds (.cons n.core .nil .nil)))
    (hword : Token.wordBehind none body ≠ some "url".toList) (htype : n.type = .declaration)
    (hcustom : n.isCustom = custom)
    (htext : n.before ++ n.head = a.spaces ++ Token.spelling body) (htight : n.isTight = true) :
    (n.before ++ n.head).AddsLast n.Trails n.core := by
  have hne : body ≠ [] := by
    obtain ⟨t, more, rfl, -⟩ := hdeclared.starts
    exact List.cons_ne_nil t more
  have hlast : custom = false → ∀ v ∈ body.getLast?, v.isTrivia = false := by
    intro hfalse v hv
    obtain ⟨front, rfl⟩ := List.getLast?_eq_some_iff.mp hv
    rw [List.append_assoc] at h
    obtain ⟨l, next, -, hpolicy, hclassifier, hscan, -⟩ := h.exists_scan
    rw [← Bool.not_eq_true]
    intro htrivia
    obtain ⟨c, hc, hkind⟩ := Lexer.last_of_isTrivia hpolicy hclassifier hscan htrivia
    have hend : (n.before ++ n.head).getLast? = some c := by
      rw [htext, Token.spelling_append, Token.spelling_cons, Token.spelling_nil, List.append_nil,
        ← List.append_assoc, List.getLast?_append, show v.text.getLast? = some c from hc]
      rfl
    rw [Node.isTight, hcustom.trans hfalse, htype, hend] at htight
    rcases hkind with hkind | rfl
    · rw [Option.any_some, hkind, Bool.true_or] at htight
      exact absurd htight (by decide)
    · exact absurd htight (by decide)
  rw [htext]
  refine h.addsLast hne hdeclared.isCovered hword fun us hus tail trees htrails ↦ ?_
  rw [Node.Trails] at htrails
  by_cases hplain : n.isCustom = true
  · rw [if_pos hplain] at htrails
    obtain ⟨rfl, rfl⟩ := htrails
    exact hdeclared.endsWith hrepeats hus (List.forall_mem_nil _) (Token.does_nil false)
      (fun _ ↦ rfl) hlast
  · rw [if_neg hplain, if_pos htype] at htrails
    exact hdeclared.endsWith hrepeats hus htrails.1 htrails.2
      (fun hc ↦ absurd (hcustom.trans hc) hplain) hlast

/-! ## What is made -/

/-- `a.IsReadable tokens` says that all that is made can be read again, if these tokens follow. -/
structure IsReadable (a : Assembly) (tokens : List Token) : Prop where
  current : a.current.IsReadable a.semicolon
  follows : a.current.IsReadable true ∨ EndsBlock tokens
  nested : a.current.IsReopened a.enclosing

/-- A leaf other than a comment that is read again, or that stands at the end of its block. -/
theorem isReadable_addLeaf (hcurrent : a.current.IsReadable true)
    (hnested : a.current.IsReopened a.enclosing) {n : Node} {ended : Bool}
    (htype : n.type ≠ .comment) (hn : n.IsReadable ended)
    (hends : ended = true ∨ EndsBlock behind) : (a.addLeaf n ended).IsReadable behind := by
  have hadopted : (a.current.adopt (n, .nil)).IsReadable ended := by
    rw [Frame.isReadable_adopt, bne_iff_ne.mpr htype, Bool.true_or]
    exact ⟨hcurrent, hn, trivial⟩
  refine ⟨hadopted, hends.imp_left fun hended ↦ ?_, hnested.withEarlier _⟩
  rwa [hended] at hadopted

/-- A comment is read again, and leaves open what follows the nodes before it. -/
theorem IsReadable.addComment (h : a.IsReadable (t :: rest)) (hbrace : t.kind ≠ .rightBrace)
    {n : Node} (htype : n.type = .comment) (hn : ∀ ended, n.IsReadable ended) :
    (a.addLeaf n a.semicolon).IsReadable rest := by
  have hadopted (semicolon : Bool) (h : a.current.IsReadable semicolon) :
      (a.current.adopt (n, .nil)).IsReadable semicolon := by
    rw [Frame.isReadable_adopt, htype]
    exact ⟨h, hn semicolon, trivial⟩
  exact ⟨hadopted _ h.current, settled_of_trivia h.follows hbrace (hadopted true),
    h.nested.withEarlier _⟩

theorem isReadable_openFrame (hcurrent : a.current.IsReadable true)
    (hnested : a.current.IsReopened a.enclosing) {n : Node}
    (hn : (n.before ++ n.head ++ ['\x7b']).Does (.opens n.core)) :
    (a.openFrame n).IsReadable behind :=
  ⟨trivial, .inl trivial, hn, hcurrent, hnested⟩

/-- A container that is closed can be read again. -/
theorem isReadable_closed (hwhole : a.IsWhole) (hcurrent : a.current.IsReadable a.semicolon)
    (hnested : a.current.IsReopened a.enclosing) {outer : Frame} {enclosing : List Frame}
    (hopen : a.enclosing = outer :: enclosing) :
    (a.closed t outer enclosing).IsReadable behind := by
  have hinner := hwhole.nested
  rw [hopen] at hinner hnested
  obtain ⟨hinner, -, -⟩ := hinner
  obtain ⟨hdoes, houter, hnested⟩ := hnested
  obtain ⟨origin, flag, hnode, hflag⟩ := closedNode_eq t hinner.after
  have htype : (a.closedNode t).type ≠ .comment := by
    rw [hnode]
    exact hinner.ne_comment
  have hreadable (ended : Bool) : (a.closedNode t).IsReadable ended := by
    have htrailer : (a.closedNode t).trailer = [] := by
      rw [hnode]
      show (if _ then a.current.node.raws.ownSemicolon.getD [] else []) = _
      rw [hinner.ownSemicolon, Option.getD_none, ite_self]
    refine Node.isReadable_block ?_ htype (htrailer ▸ Text.does_nil) ?_ ended
    · rw [hnode]
      exact hinner.block
    · rw [hnode]
      exact hdoes
  have hbelow : (Forest.ofRev a.current.earlier).IsReadable
      ((a.closedNode t).raws.semicolon.getD false) := by
    cases hearlier : a.current.earlier with
    | nil => trivial
    | cons tree earlier =>
        rw [hnode]
        show (Forest.ofRev (tree :: earlier)).IsReadable (flag.getD false)
        rw [hflag (by rw [hearlier]; exact nofun), Option.getD_some, ← hearlier]
        exact hcurrent
  have hadopted (semicolon : Bool) :
      (outer.adopt (a.closedNode t, Forest.ofRev a.current.earlier)).IsReadable semicolon := by
    rw [Frame.isReadable_adopt, bne_iff_ne.mpr htype, Bool.true_or]
    exact ⟨houter, hreadable semicolon, hbelow⟩
  rw [closed_eq]
  exact ⟨hadopted false, .inl (hadopted true), hnested.withEarlier _⟩

/-- A semicolon between statements can be read again with the rule that takes it. -/
theorem IsReadable.freeSemicolon (hwhole : a.IsWhole) (h : a.IsReadable (t :: rest))
    (hkind : t.kind = .semicolon) (hawaits : a.Awaits (t :: rest))
    (hpiece : (a.spaces ++ t.text).Does (.adds .nil)) :
    (a.freeSemicolon t).IsReadable rest ∧ (a.freeSemicolon t).Awaits rest := by
  have hbrace : t.kind ≠ .rightBrace := by
    rw [hkind]
    decide
  obtain hwait | ⟨⟨n, below⟩, earlier, hearlier, htype, -, htaken⟩ := a.freeSemicolon_cases t
  · rw [hwait]
    exact ⟨⟨h.current, settled_of_trivia h.follows hbrace id, h.nested⟩,
      hawaits.wait (.inr hkind)⟩
  · rw [htaken]
    have hcurrent : a.current = { a.current with earlier }.adopt (n, below) :=
      Frame.eq_adopt hearlier
    have hrecorded := hwhole.nested.isRecorded
    rw [hcurrent, Frame.isRecorded_adopt] at hrecorded
    have hblock := hrecorded.2.1.rule htype
    have hadopted (semicolon : Bool) (h : a.current.IsReadable semicolon) :
        ({ a.current with earlier }.adopt (n.own (a.spaces ++ t.text), below)).IsReadable
          semicolon := by
      rw [hcurrent, Frame.isReadable_adopt] at h
      rw [Frame.isReadable_adopt]
      have htrailer : (n.own (a.spaces ++ t.text)).trailer = a.spaces ++ t.text :=
        if_pos htype
      have hcomment : (n.own (a.spaces ++ t.text)).type ≠ .comment := by
        show n.type ≠ .comment
        rw [htype]
        decide
      have hown : (n.own (a.spaces ++ t.text)).IsReadable semicolon := by
        refine Node.isReadable_block (by exact hblock) hcomment ?_
          (by exact h.2.1.opening hblock) semicolon
        rw [htrailer]
        exact hpiece
      exact ⟨h.1, hown, h.2.2⟩
    refine ⟨⟨hadopted _ h.current, settled_of_trivia h.follows hbrace (hadopted true),
      h.nested.withEarlier _⟩, ?_⟩
    have hword : Token.wordBehind none [t] ≠ some "url".toList := by
      rw [Token.wordBehind_of_isMute (by simp [Token.IsMute, hkind])]
      exact (Option.some_ne_none _).symm
    have hawaits : a.Awaits ([t] ++ rest) := hawaits
    exact hawaits.resume rfl hword

theorem AtRuleEnd.isMute {failure : Option TokenizeError} {ending : AtRuleEnd}
    (hfits : ending.Fits failure behind) : ∀ u ∈ ending.tokens, u.IsMute := by
  have hsingle {u : Token} {kind : TokenKind} (hkind : u.kind = kind)
      (hmute : kind ≠ .word ∧ kind ≠ .leftParen ∧ kind ≠ .brackets) : ∀ v ∈ [u], v.IsMute := by
    intro v hv
    rw [List.mem_singleton.mp hv, Token.IsMute, hkind]
    exact hmute
  cases ending with
  | semicolon | block | close => exact hsingle hfits (by decide)
  | input | failure => exact List.forall_mem_nil _

/-! ### At-rules -/

section AtRule

variable {word s : Token} {params : List Token} {ending : AtRuleEnd}

/-- A sealed at-rule has closed its brackets. -/
theorem through_of_isSealed
    (hcut : Statement.Cut stop t rest (.atRule word params ending) behind)
    (hsealed : (Statement.atRule word params ending).isSealed = true) :
    Statement.Params.through [] params = some [] := by
  by_cases hinput : ending = .input
  · subst hinput
    exact beq_iff_eq.mp (Bool.and_eq_true_iff.mp hsealed).2
  · exact hcut.through_atRule hinput

theorem wordBehind_of_isSealed
    (hcut : Statement.Cut stop t rest (.atRule word params ending) behind)
    (hsealed : (Statement.atRule word params ending).isSealed = true) :
    Token.wordBehind none (word :: params) ≠ some "url".toList := by
  have hword := bne_iff_ne.mp (Bool.and_eq_true_iff.mp hsealed).1
  rwa [Statement.tokens, Token.wordBehind_append,
    Token.wordBehind_of_isMute (AtRuleEnd.isMute hcut.fits_atRule)] at hword

variable (hword : word.kind = .atWord)

include hword

/-- Without what ends it, a sealed at-rule can stand at the end of a container. -/
theorem Awaits.addsLast_sealed (hawaits : a.Awaits (t :: rest))
    (hcut : Statement.Cut stop t rest (.atRule word params ending) behind)
    (hsealed : (Statement.atRule word params ending).isSealed = true)
    (hname : word.text.drop 1 ≠ []) {n : Node} (hcore : n.core = atRuleLeaf word params)
    (htext : n.before ++ n.head = a.spaces ++ word.text ++ Token.spelling params) :
    (n.before ++ n.head).AddsLast n.Trails n.core := by
  rw [← hcut.tokens_append, Statement.tokens, List.append_assoc] at hawaits
  exact hawaits.addsLast_atRule hword hname (through_of_isSealed hcut hsealed)
    (wordBehind_of_isSealed hcut hsealed) hcore htext

/-- So can one whose white space and comments behind the parameters wait for the end of the
root. -/
theorem Awaits.addsLast_atRuleNode (hawaits : a.Awaits (t :: rest))
    (hcut : Statement.Cut stop t rest (.atRule word params .input) behind)
    (hsealed : (Statement.atRule word params .input).isSealed = true)
    (hformed : word.IsFormed) (hname : word.text.drop 1 ≠ []) :
    ((a.atRuleNode word params []).before ++ (a.atRuleNode word params []).head).AddsLast
      (a.atRuleNode word params []).Trails (a.atRuleNode word params []).core := by
  have hthrough := through_of_isSealed hcut hsealed
  have hbehind := wordBehind_of_isSealed hcut hsealed
  have hsplit := Token.splitTrailing_append Token.isTrivia params
  have htrivia := Token.forall_mem_splitTrailing_snd Token.isTrivia params
  have htext := a.text_atRuleNode params [] (hformed.exists_name hword)
  rw [List.append_nil] at htext
  generalize (Token.splitTrailing Token.isTrivia params).1 = body at hsplit htext
  generalize (Token.splitTrailing Token.isTrivia params).2 = trivia at hsplit htrivia
  have hmute : ∀ u ∈ trivia, u.IsMute := fun u hu ↦ Token.isMute_of_isTrivia (htrivia u hu)
  rw [← hcut.tokens_append, Statement.tokens, ← hsplit] at hawaits
  rw [← hsplit] at hthrough hbehind
  have hawaits : a.Awaits (word :: body ++ (trivia ++ behind)) := by
    simpa [AtRuleEnd.tokens] using hawaits
  rw [← List.cons_append, Token.wordBehind_append, Token.wordBehind_of_isMute hmute] at hbehind
  refine hawaits.addsLast_atRule hword hname
    (Statement.Params.through_of_append_trivia hthrough htrivia) hbehind ?_ htext
  rw [core_atRuleNode, atRuleLeaf, ← atRuleKind_append word body htrivia, hsplit]

section Cases

variable (h : a.IsReadable (t :: rest)) (hawaits : a.Awaits (t :: rest))
  (hcurrent : a.current.IsReadable true)

include h hawaits hcurrent

/-- An at-rule with a semicolon is read again with it. -/
theorem IsReadable.takes_atEnded (hformed : ∀ u ∈ word :: params ++ [s], u.IsFormed)
    (hcut : Statement.Cut stop t rest (.atRule word params (.semicolon s)) behind)
    (hsealed : (Statement.atRule word params (.semicolon s)).isSealed = true)
    (htakes : a.Takes (.atRule word params (.semicolon s)) b) :
    b.IsReadable behind ∧ b.spaces = [] := by
  have hwhole := a.text_atRuleWhole params ((hformed word (by simp)).exists_name hword)
  have htext : s.text = [';'] := (hformed s (by simp)).single hcut.fits_atRule rfl
  have hbehind := bne_iff_ne.mp (Bool.and_eq_true_iff.mp hsealed).1
  cases htakes with
  | atEnded _ _ hname =>
      have hpiece := (Takes.atEnded params s hname).piece hcut hawaits (holds_addLeaf rfl true)
        (List.cons_ne_nil s []) (by intro _ h; cases h) hbehind
      refine ⟨isReadable_addLeaf hcurrent h.nested (by intro h; cases h) (Node.isReadable_leaf rfl
        (by intro h; cases h) (fun _ ↦ ?_) fun _ ↦
          hawaits.addsLast_sealed hword hcut hsealed hname rfl hwhole) (.inl rfl), rfl⟩
      show ((a.atRuleWhole word params).before ++ (a.atRuleWhole word params).head ++ [';']).Does
        _
      rw [hwhole]
      simpa [Statement.tokens, AtRuleEnd.tokens, htext] using hpiece

/-- An at-rule with a block is read again up to its brace. -/
theorem IsReadable.takes_atBlock (hformed : ∀ u ∈ word :: params ++ [s], u.IsFormed)
    (hcut : Statement.Cut stop t rest (.atRule word params (.block s)) behind)
    (hsealed : (Statement.atRule word params (.block s)).isSealed = true)
    (htakes : a.Takes (.atRule word params (.block s)) b) :
    b.IsReadable behind ∧ b.spaces = [] := by
  have hwhole := a.text_atRuleWhole params ((hformed word (by simp)).exists_name hword)
  have htext : s.text = ['\x7b'] := (hformed s (by simp)).single hcut.fits_atRule rfl
  have hbehind := bne_iff_ne.mp (Bool.and_eq_true_iff.mp hsealed).1
  cases htakes with
  | atBlock _ _ hname =>
      have hpiece := (Takes.atBlock params s hname).piece hcut hawaits (holds_openFrame rfl)
        (List.cons_ne_nil s []) (by intro _ h; cases h) hbehind
      refine ⟨isReadable_openFrame hcurrent h.nested ?_, rfl⟩
      show ((a.atRuleWhole word params).before ++
        (a.atRuleWhole word params).head ++ ['\x7b']).Does _
      rw [hwhole]
      simpa [Statement.tokens, AtRuleEnd.tokens, htext] using hpiece

/-- An at-rule without a semicolon is read again at the end of the block that is closed behind
it. -/
theorem IsReadable.takes_atClose (hwhole : a.IsWhole) (hformed : word.IsFormed)
    (hcut : Statement.Cut stop t rest (.atRule word params (.close s)) behind)
    (hsealed : (Statement.atRule word params (.close s)).isSealed = true)
    (htakes : a.Takes (.atRule word params (.close s)) b) :
    b.IsReadable behind ∧ b.spaces = [] := by
  have htext := a.text_atRuleWhole params (hformed.exists_name hword)
  cases htakes with
  | atClose _ _ hname hopen =>
      have hends : EndsBlock ([] : List Token) := AtBlockEnd.endsBlock (.inl rfl)
      have hleaf := isReadable_addLeaf hcurrent h.nested (by intro h; cases h)
        (Node.isReadable_leaf (n := a.stopNode (atRuleStop word params)
          (a.atRuleWhole word params)) rfl (by intro h; cases h) (absurd · Bool.false_ne_true)
          fun _ ↦ hawaits.addsLast_sealed hword hcut hsealed hname rfl htext) (.inr hends)
      have hrecorded : (a.atRuleWhole word params).IsRecorded .nil :=
        a.isRecorded_atRuleNode word params _
      have hwhole :=
        hwhole.addLeaf (isRecorded_stopNode a (atRuleStop word params) hrecorded) false
      exact ⟨isReadable_closed hwhole hleaf.current hleaf.nested hopen, rfl⟩

/-- So is one at the end of the text. -/
theorem IsReadable.takes_atInput (hformed : word.IsFormed)
    (hcut : Statement.Cut stop t rest (.atRule word params .input) behind)
    (hsealed : (Statement.atRule word params .input).isSealed = true)
    (htakes : a.Takes (.atRule word params .input) b) : b.IsReadable behind := by
  have htext := a.text_atRuleWhole params (hformed.exists_name hword)
  have hends : EndsBlock behind := AtBlockEnd.endsBlock (.inl hcut.fits_atRule.1)
  cases htakes with
  | atInput hname =>
      exact isReadable_addLeaf hcurrent h.nested (by intro h; cases h)
        (Node.isReadable_leaf rfl (by intro h; cases h) (absurd · Bool.false_ne_true)
          fun _ ↦ hawaits.addsLast_sealed hword hcut hsealed hname rfl htext) (.inr hends)
  | atInputParams hname =>
      have hlast := hawaits.addsLast_atRuleNode hword hcut hsealed hformed hname
      have hleaf := isReadable_addLeaf hcurrent h.nested (by intro h; cases h)
        (Node.isReadable_leaf (n := a.stopNode (Token.stopOr (atRuleCore params) word.span.stop)
          (a.atRuleNode word params [])) rfl (by intro h; cases h) (absurd · Bool.false_ne_true)
          fun _ ↦ hlast) (.inr hends)
      exact ⟨hleaf.current, hleaf.follows, hleaf.nested⟩

end Cases

end AtRule

/-- What an at-rule makes can be read again. -/
theorem IsReadable.takes_atRule (hwhole : a.IsWhole) (h : a.IsReadable (t :: rest))
    (hawaits : a.Awaits (t :: rest)) {word : Token} {params : List Token} {ending : AtRuleEnd}
    (hword : word.kind = .atWord) (hformed : ∀ u ∈ word :: params ++ ending.tokens, u.IsFormed)
    (hcut : Statement.Cut stop t rest (.atRule word params ending) behind)
    (hcurrent : a.current.IsReadable true) (htakes : a.Takes (.atRule word params ending) b)
    (hsealed : (Statement.atRule word params ending).isSealed = true) :
    b.IsReadable behind ∧ b.Awaits behind := by
  have hname : word.IsFormed := hformed word (by simp)
  have hresume (hspaces : b.spaces = []) : b.Awaits behind := by
    rw [← hcut.tokens_append] at hawaits
    exact hawaits.resume hspaces (bne_iff_ne.mp (Bool.and_eq_true_iff.mp hsealed).1)
  cases ending with
  | semicolon s =>
      exact (h.takes_atEnded hword hawaits hcurrent hformed hcut hsealed htakes).imp_right hresume
  | block s =>
      exact (h.takes_atBlock hword hawaits hcurrent hformed hcut hsealed htakes).imp_right hresume
  | close s =>
      exact (h.takes_atClose hword hawaits hcurrent hwhole hname hcut hsealed htakes).imp_right
        hresume
  | input =>
      exact ⟨h.takes_atInput hword hawaits hcurrent hname hcut hsealed htakes,
        fun hne ↦ absurd hcut.fits_atRule.1 hne⟩
  | failure => cases htakes

/-! ### Declarations -/

theorem Takes.opened_eq_none {custom : Bool} {terminator : Nat} {opened : Option Span}
    (h : a.Takes (.declaration tokens custom terminator opened) b) : opened = none := by
  cases h
  rfl

section Declaration

variable {custom : Bool} {terminator : Nat}
  (hcut : Statement.Cut stop t rest (.declaration tokens custom terminator none) behind)
  (hawaits : a.Awaits (t :: rest)) (hword : Token.wordBehind none tokens ≠ some "url".toList)
include hcut hawaits hword

/-- A declaration that waits to be read waits without its semicolon as well. -/
theorem awaits_bodyOf : Token.wordBehind none (Statement.bodyOf tokens) ≠ some "url".toList ∧
    ∃ left, a.Awaits (Statement.bodyOf tokens ++ left) := by
  have hawaits : a.Awaits (tokens ++ behind) := by
    rw [← hcut.tokens_append] at hawaits
    exact hawaits
  rcases hcut.isDeclared.2 with ⟨s, htokens, hs⟩ | ⟨htokens, -⟩
  · have hmute : s.IsMute := by simp [Token.IsMute, hs]
    rw [htokens] at hword hawaits
    rw [Token.wordBehind_append,
      Token.wordBehind_of_isMute (List.forall_mem_singleton.mpr hmute)] at hword
    exact ⟨hword, s :: behind, by simpa using hawaits⟩
  · rw [htokens] at hword hawaits
    exact ⟨hword, behind, hawaits⟩

variable (htakes : a.Takes (.declaration tokens custom terminator none) b)
include htakes

/-- A declaration with its semicolon makes a piece with the text that waits before it. -/
theorem Takes.piece_ended {e : Effect} (hholds : e.Holds a b)
    (hended : tokens.getLast?.any (·.is .semicolon) = true) :
    (a.spaces ++ Token.spelling tokens).Does e := by
  obtain ⟨hdeclared, hcases⟩ := hcut.isDeclared
  rw [← hcut.tokens_append] at hawaits
  have hawaits : a.Awaits (tokens ++ behind) := hawaits
  obtain ⟨s, htokens, hs⟩ := hcases.resolve_right fun hboth ↦ by
    obtain ⟨htokens, -⟩ := hboth
    have hunended := hdeclared.unended
    rw [← htokens, hended] at hunended
    cases hunended
  have hcovered : Token.IsCovered tokens := by
    rw [htokens]
    exact hdeclared.isCovered.append (Token.isCovered_singleton (by rw [hs]; decide))
  refine hawaits.piece hcovered ⟨_, s, htokens, .inl hs⟩ hword fun us hus ↦
    htakes.does hholds fun stop rest ↦ ?_
  rw [htokens] at hus ⊢
  exact hdeclared.again_ended hs hus terminator stop rest

/-- What a declaration adds can stand at the end of a container. -/
theorem Takes.addsLast_declarationNode {parts : Parts} {node : Node}
    (hparts : Parts.ofTokens? (Statement.bodyOf tokens) = some parts)
    (hnode : a.declarationNode custom tokens parts (takeImportant parts.value) = node)
    (hholds : (Effect.adds (.cons node.core .nil .nil)).Holds a b)
    (htight : node.isTight = true) :
    (node.before ++ node.head).AddsLast node.Trails node.core := by
  subst hnode
  obtain ⟨hdeclared, -⟩ := hcut.isDeclared
  obtain ⟨hbody, left, hleft⟩ := awaits_bodyOf hcut hawaits hword
  obtain ⟨core, hcore, hrepeats⟩ := htakes.declaration_again
  cases Effect.eq_of_holds hcore hholds
  have hrepeats := hrepeats 0 (by rw [hdeclared.bodyOf_eq]; exact Token.Alike.refl _)
  have htext := a.text_declarationNode custom tokens parts
  rw [Parts.tokens_ofTokens? hparts] at htext
  have hcustom : (a.declarationNode custom tokens parts
      (takeImportant parts.value)).isCustom = custom := by
    obtain ⟨u, more, hcons, hstarts, rfl⟩ := hdeclared.starts
    rw [hcons] at hleft hparts
    exact hleft.isCustom_declarationNode hstarts hparts _ _
  exact hleft.addsLast_declaration hdeclared hrepeats hbody rfl hcustom htext htight

/-- What a declaration makes can be read again. -/
theorem IsReadable.takes_declaration (h : a.IsReadable (t :: rest))
    (hformed : ∀ u ∈ tokens, u.IsFormed) (hcurrent : a.current.IsReadable true) :
    b.IsReadable behind ∧ b.Awaits behind := by
  have hresume (hspaces : b.spaces = []) : b.Awaits behind := by
    rw [← hcut.tokens_append] at hawaits
    exact hawaits.resume hspaces hword
  have hfirst := htakes
  cases htakes with
  | @declaration _ _ _ parts node _ hparts _ hnode =>
      have hholds : (Effect.adds (.cons node.core .nil .nil)).Holds a _ :=
        holds_addLeaf (n := node) (by rw [← hnode]) (tokens.getLast?.any (·.is .semicolon))
      have hlast := Takes.addsLast_declarationNode hcut hawaits hword hfirst hparts hnode hholds
      subst hnode
      refine ⟨isReadable_addLeaf hcurrent h.nested (by intro h; cases h)
        (Node.isReadable_leaf rfl (by intro h; cases h) (fun hended ↦ ?_) hlast)
        hcut.endsBlock, hresume rfl⟩
      have hspelling := spelling_bodyOf fun u hu _ ↦ hformed u hu
      rw [hended] at hspelling
      rw [a.text_declarationNode, Parts.tokens_ofTokens? hparts, List.append_assoc,
        show [';'] = Layout.semicolonText true from rfl, hspelling]
      exact Takes.piece_ended hcut hawaits hword hfirst hholds hended

end Declaration

/-- A rule starts a container where what stands before it can be read again. -/
theorem IsReadable.takes_rule (h : a.IsReadable (t :: rest)) (hawaits : a.Awaits (t :: rest))
    {head : List Token} {brace : Token} (hkind : brace.kind = .leftBrace)
    (hformed : brace.IsFormed) (hcut : Statement.Cut stop t rest (.rule head brace) behind)
    (hcurrent : a.current.IsReadable true) (htakes : a.Takes (.rule head brace) b)
    (hword : Token.wordBehind none (head ++ [brace]) ≠ some "url".toList) :
    b.IsReadable behind ∧ b.Awaits behind := by
  obtain rfl : b = a.rule head brace := by
    cases htakes
    rfl
  have hholds : (Effect.opens (a.ruleNode head brace).core).Holds a (a.rule head brace) :=
    holds_openFrame rfl
  have hpiece : (a.spaces ++ Token.spelling (head ++ [brace])).Does
      (.opens (a.ruleNode head brace).core) :=
    htakes.piece hcut hawaits hholds trivial (by intro _ h; cases h) hword
  have hbrace : brace.text = ['\x7b'] := hformed.single hkind rfl
  rw [← hcut.tokens_append] at hawaits
  refine ⟨isReadable_openFrame (n := a.ruleNode head brace) hcurrent h.nested ?_,
    hawaits.resume rfl hword⟩
  rw [a.text_ruleNode, List.append_assoc]
  simpa only [Token.spelling_append, Token.spelling_cons, Token.spelling_nil, List.append_nil,
    hbrace] using hpiece

/-- Whatever strict assembly takes, what it makes can be read again. -/
theorem IsReadable.takes (hwhole : a.IsWhole) (h : a.IsReadable (t :: rest))
    (hawaits : a.Awaits (t :: rest)) (hformed : ∀ u ∈ t :: rest, u.IsFormed ∧ u.healed = false)
    (hcut : Statement.Cut stop t rest statement behind) (htakes : a.Takes statement b)
    (hsealed : statement.isSealed = true) : b.IsReadable behind ∧ b.Awaits behind := by
  have hword : Token.wordBehind none statement.tokens ≠ some "url".toList :=
    bne_iff_ne.mp (Bool.and_eq_true_iff.mp hsealed).1
  have htokens : ∀ u ∈ statement.tokens, u.IsFormed := by
    intro u hu
    exact (hformed u (by rw [← hcut.tokens_append]; exact List.mem_append_left _ hu)).1
  have hcurrent (hbrace : t.kind ≠ .rightBrace) (htrivia : t.isTrivia = false) :
      a.current.IsReadable true := settled_of_not_trivia h.follows hbrace htrivia
  have hother (hstarts : Statement.StartsOther t) : a.current.IsReadable true :=
    hcurrent hstarts.2.2.1 hstarts.isTrivia_eq_false
  have hresume (hspaces : b.spaces = []) : b.Awaits behind := by
    rw [← hcut.tokens_append] at hawaits
    exact hawaits.resume hspaces hword
  have hfirst := hcut
  cases hcut with
  | space hkind =>
      cases htakes
      have hbrace : t.kind ≠ .rightBrace := by rw [hkind]; decide
      exact ⟨⟨h.current, settled_of_trivia h.follows hbrace id, h.nested⟩,
        hawaits.wait (.inl hkind)⟩
  | semicolon hkind =>
      obtain rfl : b = a.freeSemicolon t := by
        cases htakes
        rfl
      have hpiece := htakes.piece hfirst hawaits (a.holds_freeSemicolon t) trivial
        (by intro _ h; cases h) hword
      refine h.freeSemicolon hwhole hkind hawaits ?_
      simpa [Statement.tokens] using hpiece
  | comment hkind =>
      cases htakes
      have hbrace : t.kind ≠ .rightBrace := by rw [hkind]; decide
      obtain ⟨hformed, hhealed⟩ := hformed t List.mem_cons_self
      exact ⟨h.addComment hbrace (a.type_commentNode t)
        (hawaits.isReadable_comment hkind hformed hhealed), hresume rfl⟩
  | close hkind =>
      cases htakes with
      | close _ hopen => exact ⟨isReadable_closed hwhole h.current h.nested hopen, hresume rfl⟩
  | block hkind =>
      exact h.takes_rule hawaits hkind (htokens t (by simp [Statement.tokens])) hfirst
        (hcurrent (by rw [hkind]; decide) (by rw [Token.isTrivia, hkind]; rfl)) htakes hword
  | @rule tokens brace _ _ _ hstarts hgather =>
      have hkind : (Statement.GatherEnd.brace brace).Fits behind :=
        Statement.Gathered.fits_of_gather hgather
      exact h.takes_rule hawaits hkind (htokens brace (by simp [Statement.tokens])) hfirst
        (hother hstarts) htakes hword
  | atRule hkind hgather =>
      exact h.takes_atRule hwhole hawaits hkind htokens hfirst
        (hcurrent (by rw [hkind]; decide) (by rw [Token.isTrivia, hkind]; rfl)) htakes hsealed
  | ended hstarts =>
      exact h.takes_declaration hfirst hawaits hword htakes htokens (hother hstarts)
  | custom hstarts | plain hstarts =>
      obtain rfl := htakes.opened_eq_none
      exact h.takes_declaration hfirst hawaits hword htakes htokens (hother hstarts)
  | endedStray | stray => cases htakes

/-- What strict assembly makes from a run of tokens can be read again, if all of its statements
are sealed. -/
theorem IsReadable.run {steps : Nat} (hrun : TakesRun stop a tokens b) (hwhole : a.IsWhole)
    (hsettled : a.IsSettled ∨ EndsBlock tokens) (h : a.IsReadable tokens)
    (hawaits : a.Awaits tokens) (hformed : ∀ u ∈ tokens, u.IsFormed ∧ u.healed = false)
    (hsteps : tokens.length < steps)
    (hsealed : ∀ s ∈ Statement.group stop none steps tokens, s.isSealed = true) :
    b.current.IsReadable b.semicolon := by
  induction hrun generalizing steps with
  | nil => exact h.current
  | @cons a b c t rest statement behind hfirst htakes _ ih =>
      obtain ⟨steps, rfl⟩ := Nat.exists_eq_add_one_of_ne_zero (Nat.ne_zero_of_lt hsteps)
      have hcut := Statement.first_cut stop t rest
      have hlength := Statement.length_first_le stop none t rest
      rw [hfirst] at hcut hlength
      have hshorter : behind.length < steps :=
        Nat.lt_of_le_of_lt hlength (Nat.lt_of_succ_lt_succ hsteps)
      simp only [Statement.group, hfirst, List.forall_mem_cons] at hsealed
      have hextends := written_takes hwhole hsettled hformed hcut htakes
      obtain ⟨hreadable, hnext⟩ := h.takes hwhole hawaits hformed hcut htakes hsealed.1
      refine ih hextends.whole hextends.settled hreadable hnext (fun u hu ↦ hformed u ?_) hshorter
        hsealed.2
      rw [← hcut.tokens_append]
      exact List.mem_append_right _ hu

end Assembly

end Stylesheet
