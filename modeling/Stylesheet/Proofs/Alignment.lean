import Stylesheet.Proofs.Places
import Stylesheet.Proofs.Repairs
import Stylesheet.Proofs.RoundTrip

/-!
# Where nodes are read and spelled

The places of nodes are looked up in the source while it is read, and a printer counts its own
place while it writes. `Forest.IsAligned` says of nodes that both are the same: the text that a
forest is spelled with in front of a node is the text that the source has in front of it. Strict
assembly keeps this of all open containers (`Assembly.aligned_takes`), so that it holds of the
whole document.

A sign in front of the name of a declaration is the only text that is read as part of a node and
spelled before it.
-/

namespace Stylesheet

/-! ## Nodes and forests -/

namespace Node

/-- `n.signIn text` is the sign at the start of the text of a declaration, and nothing for other
nodes. -/
def signIn (n : Node) (text : Text) : Text :=
  if n.type = .declaration then (hackSign text).1 else []

/-- `n.IsAligned s text` says that the head of `n` stands behind `text` in the source. A
declaration was read from the sign on that ends `text`. -/
def IsAligned (s : Source) (n : Node) (text : Text) : Prop :=
  ∃ before behind, s.text = before ++ behind ∧ text = before ++ n.signIn behind ∧
    n.signIn behind <:+ n.before ∧
    n.origin.map (·.start) = some (Position.start.advanceText before)

/-- `n.ClosesBehind text` says that the brace at the end of `n` was read behind `text`. -/
def ClosesBehind (n : Node) (text : Text) : Prop :=
  n.origin.bind (·.stop) =
    some { Position.start.advanceText text with offset := text.utf8Size + 1 }

variable {s : Source} {n m : Node} {text before behind : Text}

/-- A node that starts at its first character is aligned. -/
theorem isAligned_of_start (htext : s.text = before ++ behind) (htype : n.type ≠ .declaration)
    (horigin : n.origin.map (·.start) = some (s.position before.utf8Size)) :
    n.IsAligned s before := by
  refine ⟨before, behind, htext, ?_⟩
  rw [signIn, if_neg htype, List.append_nil, horigin, Source.position_utf8Size htext]
  exact ⟨rfl, List.nil_suffix, rfl⟩

theorem IsAligned.of_eq (h : n.IsAligned s text) (htype : m.type = n.type)
    (hbefore : m.raws.before = n.raws.before)
    (horigin : m.origin.map (·.start) = n.origin.map (·.start)) : m.IsAligned s text := by
  obtain ⟨before, behind, h⟩ := h
  refine ⟨before, behind, ?_⟩
  rw [horigin, Node.before, hbefore, signIn, htype]
  exact h

/-- A comment is spelled the same whether a semicolon follows or not, also if it had a block. -/
theorem spell_comment (htype : n.type = .comment) (first second : Bool) (body : Text) :
    n.spell first body = n.spell second body := by
  simp [spell, ending, htype]

end Node

namespace Forest

/-- `f.IsAligned s semicolon before` says that all nodes of a forest are read where they are
spelled, if `before` is spelled in front of the forest. -/
def IsAligned (s : Source) (semicolon : Bool) : Forest Node → Text → Prop
  | nil, _ => True
  | cons n below rest, before =>
      let body := below.spell (n.raws.semicolon.getD false)
      let head := before ++ n.before ++ n.head
      n.IsAligned s (before ++ n.before) ∧
        below.IsAligned s (n.raws.semicolon.getD false) (head ++ ['\x7b']) ∧
        (n.hasBlock = true → n.ClosesBehind (head ++ '\x7b' :: body ++ n.raws.after.getD [])) ∧
        rest.IsAligned s semicolon (before ++ n.spell (rest.endsBefore || semicolon) body)

variable {s : Source} {f g : Forest Node} {semicolon first second : Bool} {before : Text}

theorem isAligned_append :
    (f ++ g).IsAligned s semicolon before ↔ f.IsAligned s (g.endsBefore || semicolon) before ∧
      g.IsAligned s semicolon (before ++ f.spell (g.endsBefore || semicolon)) := by
  induction f generalizing before with
  | nil => simp [IsAligned, spell]
  | cons n below rest _ ih =>
      simp only [cons_append, IsAligned, ih, spell, endsBefore_append, Bool.or_assoc,
        List.append_assoc, and_assoc]

/-- Comments alone are spelled the same whether a semicolon follows or not. -/
theorem spell_of_comments (h : f.endsBefore = false) (first second : Bool) :
    f.spell first = f.spell second := by
  induction f with
  | nil => rfl
  | cons n below rest _ ih =>
      simp only [endsBefore, tops, List.any_cons, Bool.or_eq_false_iff, bne_eq_false_iff_eq] at h
      obtain ⟨htype, hrest⟩ := h
      rw [spell, spell, ih hrest, n.spell_comment htype]

/-- A forest that is spelled the same whether a semicolon follows or not has its nodes at the same
places. -/
theorem IsAligned.of_spell (h : f.IsAligned s first before)
    (hspell : f.spell first = f.spell second) : f.IsAligned s second before := by
  induction f generalizing before with
  | nil => trivial
  | cons n below rest _ ih =>
      obtain ⟨hn, hbelow, hcloses, hrest⟩ := h
      rw [spell, spell] at hspell
      -- Only the last tree that is no comment can differ, and the texts behind it are the same.
      cases hends : rest.endsBefore with
      | true =>
          rw [hends, Bool.true_or] at hspell hrest
          refine ⟨hn, hbelow, hcloses, ?_⟩
          rw [hends, Bool.true_or]
          exact ih hrest (List.append_cancel_left hspell)
      | false =>
          have hcomments := spell_of_comments hends first second
          rw [hcomments] at hspell
          have hnode := List.append_cancel_right hspell
          refine ⟨hn, hbelow, hcloses, ?_⟩
          rw [← hnode]
          exact ih hrest hcomments

theorem isAligned_map_unlinked {f : Forest Node} :
    (f.map Node.unlinked).IsAligned s semicolon before ↔ f.IsAligned s semicolon before := by
  induction f generalizing semicolon before with
  | nil => exact Iff.rfl
  | cons n below rest ihBelow ihRest =>
      have hspell (flag : Bool) (body : Text) : n.unlinked.spell flag body =
          n.spell flag body := by
        simp only [Node.spell, Node.ending, Node.hasBlock_unlinked]
        rfl
      simp only [map, IsAligned, endsBefore_map_unlinked, spell_map_unlinked, hspell,
        Node.raws_unlinked, ihBelow, ihRest, Node.hasBlock_unlinked]
      exact Iff.rfl

end Forest

/-! ## Open containers -/

namespace Frame

variable {s : Source} {f outer : Frame} {enclosing : List Frame} {semicolon : Bool}
  {before : Text} {tree : Node × Forest Node}

/-- `f.IsAligned s semicolon before` says that the finished trees in a container are read where
they are spelled, if `before` is spelled in front of the container. -/
def IsAligned (s : Source) (semicolon : Bool) (before : Text) (f : Frame) : Prop :=
  (Forest.ofRev f.earlier).IsAligned s semicolon (before ++ f.opening)

/-- `f.IsAlignedIn s semicolon enclosing` says this of a container within the containers
`enclosing`, and that all of these are read where they are spelled. -/
def IsAlignedIn (s : Source) (semicolon : Bool) (f : Frame) : List Frame → Prop
  | [] => f.node.origin.map (·.start) = some .start ∧ f.IsAligned s semicolon []
  | outer :: enclosing =>
      f.node.IsAligned s (Assembly.around (outer :: enclosing) ++ f.node.before) ∧
        f.IsAligned s semicolon (Assembly.around (outer :: enclosing)) ∧
        outer.IsAlignedIn s true enclosing

theorem IsAlignedIn.isAligned (h : f.IsAlignedIn s semicolon enclosing) :
    f.IsAligned s semicolon (Assembly.around enclosing) := by
  cases enclosing with
  | nil => exact h.2
  | cons => exact h.2.1

theorem IsAlignedIn.withEarlier (h : f.IsAlignedIn s semicolon enclosing)
    {earlier : List (Node × Forest Node)} {flag : Bool}
    (hearlier : { f with earlier }.IsAligned s flag (Assembly.around enclosing)) :
    { f with earlier }.IsAlignedIn s flag enclosing := by
  cases enclosing with
  | nil => exact ⟨h.1, hearlier⟩
  | cons => exact ⟨h.1, hearlier, h.2.2⟩

/-- What one more finished tree adds. -/
theorem isAligned_adopt :
    (f.adopt tree).IsAligned s semicolon before ↔
      f.IsAligned s (tree.1.type != .comment || semicolon) before ∧
        (Forest.cons tree.1 tree.2 .nil).IsAligned s semicolon
          (before ++ f.opening ++ f.body (tree.1.type != .comment || semicolon)) := by
  have hends : (Forest.cons tree.1 tree.2 .nil).endsBefore = (tree.1.type != .comment) := by
    simp [Forest.endsBefore, Forest.tops]
  rw [IsAligned, adopt, Forest.ofRev_cons, Forest.isAligned_append, hends]
  exact Iff.rfl

end Frame

namespace Assembly

variable {a b : Assembly} {t : Token} {tokens behind : List Token} {text : Text}

/-- `a.IsAligned` says that all nodes that have been read are spelled where they were read. -/
def IsAligned (a : Assembly) : Prop :=
  a.current.IsAlignedIn a.source a.semicolon a.enclosing

/-- `a.taken` is the text of the nodes that have been read. -/
def taken (a : Assembly) : Text :=
  around a.enclosing ++ a.current.opening ++ a.current.body a.semicolon

theorem written_eq (a : Assembly) : a.written = a.taken ++ a.spaces := rfl

/-! ## Adding nodes -/

/-- Finished trees that are spelled right if another node follows are read where they are spelled
then. -/
theorem IsAligned.of_isSettled (h : a.IsAligned) (hsettled : a.IsSettled) :
    a.current.IsAlignedIn a.source true a.enclosing :=
  h.withEarlier (h.isAligned.of_spell hsettled.symm)

theorem IsAligned.addLeaf (h : a.IsAligned) (hsettled : a.IsSettled) {n : Node}
    (htype : n.type ≠ .comment) (hleaf : n.hasBlock = false)
    (hn : n.IsAligned a.source (a.taken ++ n.before)) (ended : Bool) :
    (a.addLeaf n ended).IsAligned := by
  refine h.withEarlier (Frame.isAligned_adopt.mpr ?_)
  rw [bne_iff_ne.mpr htype, Bool.true_or, hsettled]
  exact ⟨(h.of_isSettled hsettled).isAligned, hn, trivial, by simp [hleaf], trivial⟩

theorem IsAligned.addComment (h : a.IsAligned) {n : Node} (htype : n.type = .comment)
    (hleaf : n.hasBlock = false) (hn : n.IsAligned a.source (a.taken ++ n.before)) :
    (a.addLeaf n a.semicolon).IsAligned := by
  have hcomment : (n.type != .comment) = false := by simp [htype]
  refine h.withEarlier (Frame.isAligned_adopt.mpr ?_)
  rw [hcomment, Bool.false_or]
  exact ⟨h.isAligned, hn, trivial, by simp [hleaf], trivial⟩

theorem IsAligned.openFrame (h : a.IsAligned) (hsettled : a.IsSettled) {n : Node}
    (hn : n.IsAligned a.source (a.taken ++ n.before)) : (a.openFrame n).IsAligned := by
  refine ⟨?_, trivial, h.of_isSettled hsettled⟩
  show n.IsAligned a.source
    (around a.enclosing ++ a.current.opening ++ a.current.body true ++ n.before)
  rw [hsettled]
  exact hn

/-- A semicolon behind a rule does not move the nodes in it. -/
theorem IsAligned.freeSemicolon (h : a.IsAligned) (t : Token) :
    (a.freeSemicolon t).IsAligned := by
  obtain hwait | ⟨tree, earlier, hearlier, -, -, htaken⟩ := a.freeSemicolon_cases t
  · rw [hwait]
    exact h
  · have hadopt := h.isAligned
    rw [Frame.eq_adopt hearlier, Frame.isAligned_adopt] at hadopt
    have howned : ({ a.current with earlier }.adopt
        (tree.1.own (a.spaces ++ t.text), tree.2)).IsAligned a.source a.semicolon
        (around a.enclosing) := Frame.isAligned_adopt.mpr hadopt
    rw [htaken]
    exact Frame.IsAlignedIn.withEarlier h howned

/-! ## Closing a block -/

theorem origin_closedNode (a : Assembly) (t : Token) :
    (a.closedNode t).origin = (a.stopNode t.span.stop a.current.node).origin := by
  unfold closedNode Frame.settle
  split <;> rfl

/-- The container that a closing brace ends keeps its start. -/
theorem isAligned_closedNode {n : Node} (hn : a.current.node = n) {before : Text}
    (h : n.IsAligned a.source before) : (a.closedNode t).IsAligned a.source before := by
  subst hn
  refine h.of_eq ?_ ?_ ?_
  · unfold closedNode Frame.settle
    split <;> rfl
  · unfold closedNode Frame.settle
    split <;> rfl
  · rw [origin_closedNode, stopNode, Node.stopAt, Option.map_map]
    rfl

/-- A container that a brace behind all that has been read ends is closed there. -/
theorem closesBehind_closedNode (htext : a.source.text = a.written ++ text)
    (hstop : t.span.stop = a.written.utf8Size + 1)
    (horigin : a.current.node.origin.isSome = true) :
    (a.closedNode t).ClosesBehind a.written := by
  obtain ⟨origin, horigin⟩ := Option.isSome_iff_exists.mp horigin
  rw [Node.ClosesBehind, origin_closedNode, stopNode, Node.stopAt, horigin, hstop]
  show some (a.source.endPosition (a.written.utf8Size + 1)) = _
  rw [Source.endPosition, Nat.add_sub_cancel, Source.position_utf8Size htext]

/-- A closing brace ends the innermost container where it stands. -/
theorem IsAligned.closed (h : a.IsAligned) {outer : Frame} {enclosing : List Frame}
    (hopen : a.enclosing = outer :: enclosing) (hwhole : a.IsWhole)
    (htext : a.source.text = a.written ++ text)
    (hstop : t.span.stop = a.written.utf8Size + 1) : (a.closed t outer enclosing).IsAligned := by
  unfold IsAligned at h
  have hinner := hwhole.nested
  rw [hopen] at h hinner
  obtain ⟨hnode, hbelow, houter⟩ := h
  obtain ⟨hinner, -, -⟩ := hinner
  obtain ⟨origin, flag, heq, hflag⟩ := closedNode_eq t hinner.after
  have htype : ((a.closedNode t).type != .comment) = true := by
    rw [heq]
    exact bne_iff_ne.mpr hinner.ne_comment
  have hbefore : (a.closedNode t).before = a.current.node.before := by rw [heq]; rfl
  have hhead : (a.closedNode t).head = a.current.node.head := by rw [heq]; rfl
  have hsemicolon : (a.closedNode t).raws.semicolon = flag := by rw [heq]
  have hafter : (a.closedNode t).raws.after = some a.spaces := by rw [heq]
  have hwritten : a.written = around (outer :: enclosing) ++ a.current.node.before ++
      a.current.node.head ++ '\x7b' :: a.current.body a.semicolon ++ a.spaces := by
    rw [written, hopen, Frame.opening_of_ne_root hinner.ne_root]
    simp [List.append_assoc]
  have hsome : a.current.node.origin.isSome = true := by
    obtain ⟨_, _, _, _, _, horigin⟩ := hnode
    exact Option.isSome_map.symm.trans (congrArg Option.isSome horigin)
  rw [closed_eq]
  refine houter.withEarlier (Frame.isAligned_adopt.mpr ?_)
  rw [htype, Bool.true_or]
  refine ⟨houter.isAligned, ?_, ?_, ?_, trivial⟩
  · rw [hbefore]
    exact isAligned_closedNode rfl hnode
  · rw [hbefore, hhead, hsemicolon]
    cases hearlier : a.current.earlier with
    | nil => trivial
    | cons tree earlier =>
        rw [Frame.IsAligned, Frame.opening_of_ne_root hinner.ne_root, ← List.append_assoc,
          ← List.append_assoc] at hbelow
        rw [hflag (by simp [hearlier]), ← hearlier]
        exact hbelow
  · intro _
    have hcloses := closesBehind_closedNode htext hstop hsome
    rw [hwritten, ← Frame.spell_of_flag hflag] at hcloses
    rw [hbefore, hhead, hsemicolon, hafter]
    exact hcloses

/-! ## The places of the nodes of statements -/

/-- `a.Leaves tokens` says that the source has the tokens behind the text that has been read, and
nothing else. -/
structure Leaves (a : Assembly) (tokens : List Token) : Prop where
  text : a.source.text = a.written ++ Token.spelling tokens
  placed : Token.Placed a.source a.written.utf8Size tokens a.source.size

/-- What is left behind the tokens that an assembly reads. -/
theorem Leaves.advance (h : a.Leaves (tokens ++ behind))
    (hwritten : b.written = a.written ++ Token.spelling tokens) (hsource : b.source = a.source) :
    b.Leaves behind := by
  obtain ⟨middle, hfirst, hbehind⟩ := h.placed.split
  refine ⟨?_, ?_⟩
  · rw [hsource, hwritten, h.text, Token.spelling_append, List.append_assoc]
  · rw [hsource, hwritten, Text.utf8Size_append, ← hfirst.stop_eq]
    exact hbehind

/-- The next token starts where the text ends that has been read. -/
theorem Leaves.start_eq (h : a.Leaves (t :: behind)) : t.span.start = a.written.utf8Size :=
  h.placed.head.1

theorem Leaves.stop_eq (h : a.Leaves (t :: behind)) :
    t.span.stop = a.written.utf8Size + t.text.utf8Size := by
  cases h.placed with
  | cons _ _ hspan _ => rw [hspan]

/-- A node that takes the text that waits, and that starts at the next token, is aligned. -/
theorem Leaves.isAligned (h : a.Leaves (t :: behind)) {n : Node} (htype : n.type ≠ .declaration)
    (hbefore : n.before = a.spaces)
    (horigin : n.origin.map (·.start) = some (a.source.position t.span.start)) :
    n.IsAligned a.source (a.taken ++ n.before) := by
  rw [hbefore, ← written_eq]
  rw [h.start_eq] at horigin
  exact Node.isAligned_of_start h.text htype horigin

/-- A sign is told by the first character of a name. -/
theorem sign_append {name : Text} (hne : name ≠ []) (text : Text) :
    (hackSign (name ++ text)).1 = (hackSign name).1 := by
  obtain ⟨c, rest, rfl⟩ := List.exists_cons_of_ne_nil hne
  by_cases hlow : c = '_'
  · subst hlow
    rfl
  · by_cases hstar : c = '*'
    · subst hstar
      rfl
    · simp [hackSign, hlow, hstar]

/-- A declaration starts behind what is stray in front of it, and its name behind its sign. -/
theorem Leaves.isAligned_declarationNode (h : a.Leaves (tokens ++ behind)) (custom : Bool)
    {parts : Parts} (hparts : Parts.ofTokens? (Statement.bodyOf tokens) = some parts)
    (marked : Marked) :
    (a.declarationNode custom tokens parts marked).IsAligned a.source
      (a.taken ++ (a.declarationNode custom tokens parts marked).before) := by
  obtain ⟨ending, -, htokens⟩ := Statement.bodyOf_append tokens
  obtain ⟨⟨w, more, hname, -⟩, -⟩ := Parts.heads_ofTokens? hparts
  have htokens : tokens ++ behind = parts.stray ++ (parts.name ++
      (parts.colon ++ parts.gap ++ parts.value ++ ending ++ behind)) := by
    rw [← htokens, ← Parts.tokens_ofTokens? hparts, Parts.tokens]
    simp only [List.append_assoc]
  rw [htokens] at h
  obtain ⟨middle, hstray, hplaced⟩ := h.placed.split
  have hmiddle : middle = Text.utf8Size (a.written ++ Token.spelling parts.stray) := by
    rw [Text.utf8Size_append, hstray.stop_eq]
  have hne : Token.spelling parts.name ≠ [] := by
    rw [hname] at hplaced ⊢
    cases hplaced with
    | cons _ hne _ _ =>
        rw [Token.spelling_cons]
        exact List.append_ne_nil_of_left_ne_nil hne _
  have hstart : ((parts.name.head?).map (·.span.start)).getD 0 = middle := by
    rw [hname] at hplaced ⊢
    exact hplaced.head.1
  have htext := h.text
  rw [Token.spelling_append, ← List.append_assoc, Token.spelling_append] at htext
  have hsign := sign_append hne (Token.spelling
    (parts.colon ++ parts.gap ++ parts.value ++ ending ++ behind))
  refine ⟨_, _, htext, ?_, ?_, ?_⟩
  · show a.taken ++ (a.spaces ++ Token.spelling parts.stray ++
      (hackSign (Token.spelling parts.name)).1) = _
    rw [written_eq, ← hsign]
    simp [List.append_assoc, Node.signIn, declarationNode, Node.type, stopNode, Node.stopAt,
      newNode, Node.ofKind, Kind.type]
  · show (hackSign _).1 <:+ a.spaces ++ Token.spelling parts.stray ++
      (hackSign (Token.spelling parts.name)).1
    rw [hsign]
    exact List.suffix_append _ _
  · show some (a.source.position (((parts.name.head?).map (·.span.start)).getD 0)) = _
    rw [hstart, hmiddle, Source.position_utf8Size htext]

/-! ## One statement -/

variable {stop : Nat} {rest : List Token} {statement : Statement}

/-- An at-rule is read where it is spelled, however it ends. -/
theorem IsAligned.atRule (h : a.IsAligned) (hwhole : a.IsWhole) (hsettled : a.IsSettled)
    {word : Token} {params : List Token} {ending : AtRuleEnd} (hword : word.kind = .atWord)
    (hformed : ∀ u ∈ word :: params ++ ending.tokens, u.IsFormed)
    (hfits : ending.Fits none behind) (hbody : a.atRuleBody word params ending = .ok b)
    (hleaves : a.Leaves (word :: params ++ ending.tokens ++ behind)) : b.IsAligned := by
  have hname : ∃ name, word.text = '@' :: name := (hformed word (by simp)).exists_name hword
  have hcomment : NodeType.atRule ≠ .comment := by decide
  have hdeclaration : NodeType.atRule ≠ .declaration := by decide
  have hnode (stop : Nat) (between : Text) :
      (a.stopNode stop (a.atRuleNode word params between)).IsAligned a.source
        (a.taken ++ (a.stopNode stop (a.atRuleNode word params between)).before) :=
    hleaves.isAligned (by exact hdeclaration) rfl rfl
  have hleaf (stop : Nat) (between : Text) (ended : Bool) :
      (a.addLeaf (a.stopNode stop (a.atRuleNode word params between)) ended).IsAligned :=
    h.addLeaf (n := a.stopNode stop (a.atRuleNode word params between)) hsettled hcomment rfl
      (hnode stop between) ended
  cases ending with
  | semicolon t =>
      cases hbody
      exact hleaf _ _ true
  | block t =>
      cases hbody
      exact h.openFrame hsettled (hleaves.isAligned (by exact hdeclaration) rfl rfl)
  | close t =>
      have htext := a.text_atRuleWhole params hname
      rw [List.append_assoc, ← Token.spelling_cons] at htext
      have hleafed := hwhole.extends_addLeaf hsettled false
        (isRecorded_stopNode a (atRuleStop word params) (a.isRecorded_atRuleNode word params _))
        hcomment rfl htext (.inr (AtBlockEnd.endsBlock (.inl rfl : AtBlockEnd [])))
      obtain ⟨outer, enclosing, hopen, rfl⟩ := closeBlock_eq_ok hleafed.whole.strict hbody
      rw [List.append_assoc] at hleaves
      have hwritten := hleafed.written
      rw [Layout.semicolonText, if_neg Bool.false_ne_true, List.append_nil] at hwritten
      have hbehind := hleaves.advance hwritten rfl
      have hbrace : t.text = ['\x7d'] :=
        (hformed t (by simp [AtRuleEnd.tokens])).single hfits (c := '\x7d') rfl
      have hstop := hbehind.stop_eq
      rw [hbrace] at hstop
      exact (hleaf _ _ false).closed hopen hleafed.whole hbehind.text hstop
  | input =>
      unfold atRuleBody at hbody
      dsimp only at hbody
      split at hbody
      · cases hbody
        exact hleaf _ _ false
      · cases hbody
        exact hleaf _ _ false
  | failure e => cases hbody

/-- A declaration is read where it is spelled. -/
theorem IsAligned.declaration (h : a.IsAligned) (hsettled : a.IsSettled)
    (hleaves : a.Leaves (tokens ++ behind)) (custom ended : Bool) {parts : Parts}
    (hparts : Parts.ofTokens? (Statement.bodyOf tokens) = some parts) :
    (a.addLeaf (a.declarationNode custom tokens parts (takeImportant parts.value))
      ended).IsAligned := by
  have hcomment : NodeType.declaration ≠ .comment := by decide
  exact h.addLeaf (n := a.declarationNode custom tokens parts (takeImportant parts.value))
    hsettled (by exact hcomment) rfl (hleaves.isAligned_declarationNode custom hparts _) ended

/-- Every statement that strict assembly takes adds nodes that are read where they are spelled. -/
theorem aligned_takes (h : a.IsAligned) (hwhole : a.IsWhole)
    (hsettled : a.IsSettled ∨ EndsBlock (t :: rest))
    (hformed : ∀ u ∈ t :: rest, u.IsFormed) (hleaves : a.Leaves (t :: rest))
    (hcut : Statement.Cut stop t rest statement behind) (htakes : a.Takes statement b) :
    b.IsAligned := by
  have htokens := hcut.tokens_append
  have hrule : NodeType.rule ≠ .declaration := by decide
  have hformed : ∀ u ∈ statement.tokens, u.IsFormed := by
    intro u hu
    exact hformed u (by rw [← htokens]; exact List.mem_append_left _ hu)
  have hother (hstarts : Statement.StartsOther t) : a.IsSettled :=
    settled_of_not_trivia hsettled hstarts.2.2.1 hstarts.isTrivia_eq_false
  cases hcut with
  | space =>
      cases htakes
      exact h
  | semicolon =>
      cases htakes
      exact h.freeSemicolon t
  | comment =>
      cases htakes
      rw [comment_eq]
      exact h.addComment (a.type_commentNode t) (a.hasBlock_commentNode t)
        (hleaves.isAligned (by simp [type_commentNode]) rfl rfl)
  | close hkind =>
      cases htakes with
      | close _ hopen =>
          have hbrace := (hformed t (by simp)).single hkind (c := '\x7d') rfl
          have hstop := hleaves.stop_eq
          rw [hbrace] at hstop
          exact h.closed hopen hwhole hleaves.text hstop
  | block hkind =>
      cases htakes
      have hsettled := settled_of_not_trivia hsettled (by simp [hkind])
        (by simp [Token.isTrivia, hkind, TokenKind.isTrivia])
      exact h.openFrame hsettled (hleaves.isAligned (by exact hrule) rfl rfl)
  | rule hstarts hgather =>
      cases htakes
      obtain ⟨more, rfl⟩ := hstarts.tokens_gather hgather
      exact h.openFrame (hother hstarts) (hleaves.isAligned (by exact hrule) rfl rfl)
  | atRule hkind hgather =>
      have hsettled := settled_of_not_trivia hsettled (by simp [hkind])
        (by simp [Token.isTrivia, hkind, TokenKind.isTrivia])
      have hfits := Statement.Params.fits_gather none [] rest
      rw [hgather] at hfits
      have hadded := htakes.add hwhole.strict
      have hname := name_ne_nil_of_atRule_eq_ok hwhole.strict hadded
      rw [← htokens] at hleaves
      exact h.atRule hwhole hsettled hkind hformed hfits
        ((atRule_of_name _ _ hname).symm.trans hadded) hleaves
  | ended hstarts | custom hstarts | plain hstarts =>
      cases htakes with
      | declaration _ hparts _ hnode =>
          subst hnode
          rw [← htokens] at hleaves
          exact h.declaration (hother hstarts) hleaves _ _ hparts
  | endedStray | stray => cases htakes

/-! ## Whole runs -/

/-- A run of tokens that strict assembly takes adds nodes that are read where they are spelled. -/
theorem aligned_run (hrun : TakesRun stop a tokens b) (h : a.IsAligned) (hwhole : a.IsWhole)
    (hsettled : a.IsSettled ∨ EndsBlock tokens)
    (hformed : ∀ u ∈ tokens, u.IsFormed ∧ u.healed = false) (hleaves : a.Leaves tokens) :
    b.IsAligned := by
  induction hrun with
  | nil => exact h
  | @cons a b c t rest statement behind hfirst htakes _ ih =>
      have hcut := Statement.first_cut stop t rest
      rw [hfirst] at hcut
      have htokens := hcut.tokens_append
      have haligned := aligned_takes h hwhole hsettled (fun u hu ↦ (hformed u hu).1) hleaves hcut
        htakes
      have hb := written_takes hwhole hsettled hformed hcut htakes
      rw [← htokens] at hformed hleaves
      exact ih haligned hb.whole hb.settled (fun u hu ↦ hformed u (List.mem_append_right _ hu))
        (hleaves.advance hb.written htakes.frame.1)

/-! ## The end of the text -/

/-- When the text has ended, the root reaches over all of it, and the finished trees in it are
read where they are spelled. -/
theorem IsAligned.ended (h : a.IsAligned) (hopen : a.enclosing = []) (hwhole : a.IsWhole) :
    let top := a.ended.current.node
    top.origin = some ⟨.start, some (a.source.position a.source.size)⟩ ∧
      (Forest.ofRev a.current.earlier).IsAligned a.source (top.raws.semicolon.getD false) [] := by
  have hnested := hwhole.nested
  unfold IsAligned at h
  rw [hopen] at h hnested
  obtain ⟨horigin, htrees⟩ := h
  obtain ⟨origin, hsome, hstart⟩ := Option.map_eq_some_iff.mp horigin
  obtain ⟨flag, hsettle, hflag⟩ := Frame.settle_eq hnested.1.after a.semicolon a.spaces
  have hopening : a.current.opening = [] := if_pos (by rw [Node.type, hnested.1.kind]; rfl)
  unfold Assembly.ended Frame.mapNode
  rw [hsettle]
  refine ⟨?_, ?_⟩
  · show a.current.node.origin.map _ = _
    rw [hsome, ← hstart]
    rfl
  · rw [Frame.IsAligned, hopening] at htrees
    cases hearlier : a.current.earlier with
    | nil => trivial
    | cons tree earlier =>
        rw [← hearlier]
        show (Forest.ofRev a.current.earlier).IsAligned a.source (flag.getD false) []
        rw [hflag (by simp [hearlier])]
        exact htrees

end Assembly

end Stylesheet
