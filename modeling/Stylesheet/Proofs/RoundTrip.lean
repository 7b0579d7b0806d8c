import Stylesheet.Proofs.NodeText
import Stylesheet.Proofs.Reading

/-!
# Printing what was read

`Assembly.written` is the text that an assembly has taken so far, as far as it can be told from
the nodes that are made and the text that waits. `written_takes` says that each statement adds its
tokens to that text, and `print_of_parse` follows: a document that was read without repairs is
printed as its source, whatever the printer is.

The invariant needs care in one place. A node that ends with a semicolon is only recorded as such
in its container, and only for the last child that can have one. A declaration without a semicolon
is therefore spelled wrongly as soon as something other than a comment follows it, and the tokens
must promise that nothing does (`EndsBlock`).
-/

namespace Stylesheet

/-! ## Open containers -/

/-- The node of an open container other than the root has recorded what stands before its block,
and nothing of what stands behind its last child. -/
structure Node.IsInner (n : Node) : Prop where
  block : n.hasBlock = true
  container : n.type = .rule ∨ n.type = .atRule
  before : n.raws.before.isSome = true
  between : n.raws.between.isSome = true
  afterName : n.type = .atRule → n.raws.afterName.isSome = true
  after : n.raws.after = none
  ownSemicolon : n.raws.ownSemicolon = none

namespace Node.IsInner

variable {n : Node}

theorem ne_of_container (h : n.IsInner) {type : NodeType} (hrule : type ≠ .rule)
    (hatRule : type ≠ .atRule) : n.type ≠ type := by
  intro htype
  rcases h.container with hn | hn
  · exact hrule (htype.symm.trans hn)
  · exact hatRule (htype.symm.trans hn)

theorem ne_root (h : n.IsInner) : n.type ≠ .root := h.ne_of_container nofun nofun

theorem ne_comment (h : n.IsInner) : n.type ≠ .comment := h.ne_of_container nofun nofun

theorem ne_declaration (h : n.IsInner) : n.type ≠ .declaration := h.ne_of_container nofun nofun

theorem ne_other (h : n.IsInner) : n.type ≠ .other := h.ne_of_container nofun nofun

end Node.IsInner

/-- The node of the outermost container is a root without recorded layout. -/
structure Node.IsOuter (n : Node) : Prop where
  block : n.hasBlock = true
  kind : n.kind = .root
  after : n.raws.after = none

namespace Frame

/-- `f.opening` is the text of a container up to its first child. -/
def opening (f : Frame) : Text :=
  if f.node.type = .root then [] else f.node.before ++ f.node.head ++ ['\x7b']

theorem opening_of_ne_root {f : Frame} (h : f.node.type ≠ .root) :
    f.opening = f.node.before ++ f.node.head ++ ['\x7b'] :=
  if_neg h

/-- `f.body semicolon` is the text of the finished trees in a container. -/
def body (semicolon : Bool) (f : Frame) : Text :=
  (Forest.ofRev f.earlier).spell semicolon

/-- The finished trees in a container have recorded how they are written. -/
def IsRecorded (f : Frame) : Prop :=
  (Forest.ofRev f.earlier).Each Node.IsRecorded

/-- `f.IsNested enclosing` says that `f` is open within the containers `enclosing`, the last of
which is the root. -/
def IsNested (f : Frame) : List Frame → Prop
  | [] => f.node.IsOuter ∧ f.IsRecorded
  | outer :: enclosing => f.node.IsInner ∧ f.IsRecorded ∧ outer.IsNested enclosing

theorem IsNested.isRecorded {f : Frame} {enclosing : List Frame} (h : f.IsNested enclosing) :
    f.IsRecorded := by
  cases enclosing with
  | nil => exact h.2
  | cons => exact h.2.1

/-- One more finished tree does not change how a container is nested. -/
theorem IsNested.withEarlier {f : Frame} {enclosing : List Frame} (h : f.IsNested enclosing)
    (earlier : List (Node × Forest Node)) (hearlier : { f with earlier }.IsRecorded) :
    { f with earlier }.IsNested enclosing := by
  cases enclosing with
  | nil => exact ⟨h.1, hearlier⟩
  | cons => exact ⟨h.1, hearlier, h.2.2⟩

theorem isRecorded_adopt {f : Frame} {tree : Node × Forest Node} :
    (f.adopt tree).IsRecorded ↔
      f.IsRecorded ∧ tree.1.IsRecorded tree.2 ∧ tree.2.Each Node.IsRecorded :=
  Forest.each_ofRev_cons

/-- What a finished tree adds to the text of its container. -/
theorem body_adopt (semicolon : Bool) (f : Frame) (tree : Node × Forest Node) :
    (f.adopt tree).body semicolon =
      f.body (tree.1.type != .comment || semicolon) ++
        tree.1.spell semicolon (tree.2.spell (tree.1.raws.semicolon.getD false)) := by
  simp [body, adopt, Forest.ofRev_cons, Forest.spell_append, Forest.spell, Forest.endsBefore,
    Forest.tops]

/-- The end of a container is recorded with the text that waits and, if it has children, whether
the last of them ends with a semicolon. -/
theorem settle_eq {f : Frame} (h : f.node.raws.after = none) (semicolon : Bool) (spaces : Text) :
    ∃ flag,
      f.settle semicolon spaces = { f with node := { f.node with raws := { f.node.raws with
        after := some spaces, semicolon := flag } } } ∧
      (f.earlier ≠ [] → flag = some semicolon) := by
  unfold settle
  split
  · next hempty =>
      refine ⟨f.node.raws.semicolon, ?_, fun hne ↦ absurd (List.isEmpty_iff.mp hempty) hne⟩
      simp [addAfter, mapNode, Node.mapRaws, h]
  · refine ⟨some semicolon, ?_, fun _ ↦ rfl⟩
    simp [addAfter, mapNode, Node.mapRaws, h]

/-- The flag of a container without children does not matter. -/
theorem spell_of_flag {f : Frame} {flag : Option Bool} {semicolon : Bool}
    (h : f.earlier ≠ [] → flag = some semicolon) :
    (Forest.ofRev f.earlier).spell (flag.getD false) = f.body semicolon := by
  cases hearlier : f.earlier with
  | nil => simp [body, hearlier, Forest.spell]
  | cons tree earlier => rw [h (by simp [hearlier]), Option.getD_some, body, hearlier]

end Frame

/-- A node with a block is spelled the same whether a semicolon follows or not. -/
theorem Node.spell_of_hasBlock {n : Node} (h : n.hasBlock = true) (first second : Bool)
    (body : Text) : n.spell first body = n.spell second body := by
  simp [Node.spell, Node.ending, h]

/-- `n.own text` is a rule that ends with the text up to a semicolon behind its block. -/
def Node.own (text : Text) (n : Node) : Node :=
  n.mapRaws fun raws ↦ { raws with ownSemicolon := some text }

/-- A comment is spelled the same whether a semicolon follows or not. -/
theorem Node.spell_of_comment {n : Node} (htype : n.type = .comment) (hleaf : n.hasBlock = false)
    (semicolon : Bool) (body : Text) : n.spell semicolon body = n.before ++ n.head := by
  simp [Node.spell, Node.ending, htype, hleaf]

/-- A leaf that can end with a semicolon does so if it is told to. -/
theorem Node.spell_of_leaf {n : Node} (htype : n.type ≠ .comment) (hleaf : n.hasBlock = false)
    (semicolon : Bool) (body : Text) :
    n.spell semicolon body = n.before ++ n.head ++ Layout.semicolonText semicolon := by
  simp [Node.spell, Node.ending, htype, hleaf]

namespace Statement

/-- `s.written` is the text that is written for a statement: its tokens, with the end of a comment
that is healed. -/
def written : Statement → Text
  | comment t => t.commentText
  | s => Token.spelling s.tokens

/-- Without a healed token a statement is written as its tokens. -/
theorem written_of_healed {s : Statement} (h : ∀ t ∈ s.tokens, t.healed = false) :
    s.written = Token.spelling s.tokens := by
  cases s with
  | comment t => simp [written, tokens, Token.commentText, h t (by simp [tokens])]
  | space | semicolon | close | atRule | rule | declaration | stray | failure => rfl

end Statement

namespace Assembly

/-- `around enclosing` is the text of the containers `enclosing` up to the innermost one, in which
another container is open. -/
def around : List Frame → Text
  | [] => []
  | f :: enclosing => around enclosing ++ f.opening ++ f.body true

/-- `a.written` is the text that has been read into the assembly. -/
def written (a : Assembly) : Text :=
  around a.enclosing ++ a.current.opening ++ a.current.body a.semicolon ++ a.spaces

/-- `a.IsSettled` says that the finished trees in the innermost container are spelled right also
if another node follows. -/
def IsSettled (a : Assembly) : Prop :=
  a.current.body true = a.current.body a.semicolon

/-- `a.IsWhole` says that all that strict assembly has read is recorded. -/
structure IsWhole (a : Assembly) : Prop where
  strict : a.mode = .strict
  unrepaired : a.recoveries = []
  nested : a.current.IsNested a.enclosing

variable {a : Assembly}

/-! ## Adding nodes -/

/-- A leaf other than a comment that takes the text that waits adds the text of its head, and a
semicolon if it ends with one. -/
theorem written_addLeaf {n : Node} (htype : n.type ≠ .comment) (hleaf : n.hasBlock = false)
    (hsettled : a.IsSettled) (ended : Bool) {text : Text}
    (hhead : n.before ++ n.head = a.spaces ++ text) :
    (a.addLeaf n ended).written = a.written ++ text ++ Layout.semicolonText ended := by
  have htype' : (n.type != .comment) = true := by simpa using htype
  show around a.enclosing ++ a.current.opening ++ (a.current.adopt (n, .nil)).body ended ++ [] = _
  rw [Frame.body_adopt, htype', Bool.true_or, hsettled, Node.spell_of_leaf htype hleaf, hhead,
    written]
  simp [List.append_assoc]

/-- A comment adds its text, and it leaves open what follows the nodes before it. -/
theorem written_addComment {n : Node} (htype : n.type = .comment) (hleaf : n.hasBlock = false)
    {text : Text} (hhead : n.before ++ n.head = a.spaces ++ text) :
    (a.addLeaf n a.semicolon).written = a.written ++ text ∧
      (a.IsSettled → (a.addLeaf n a.semicolon).IsSettled) := by
  have htype' : (n.type != .comment) = false := by simpa using htype
  have hbody (semicolon : Bool) : (a.current.adopt (n, .nil)).body semicolon =
      a.current.body semicolon ++ (a.spaces ++ text) := by
    rw [Frame.body_adopt, htype', Bool.false_or, Node.spell_of_comment htype hleaf, hhead]
  constructor
  · show around a.enclosing ++ a.current.opening ++
      (a.current.adopt (n, .nil)).body a.semicolon ++ [] = _
    rw [hbody, written]
    simp [List.append_assoc]
  · intro hsettled
    show (a.current.adopt (n, .nil)).body true = (a.current.adopt (n, .nil)).body a.semicolon
    rw [hbody, hbody, hsettled]

/-- An opened container adds the text of its head. -/
theorem written_openFrame {n : Node} (hroot : n.type ≠ .root) (hsettled : a.IsSettled)
    {text : Text} (hhead : n.before ++ n.head = a.spaces ++ text) :
    (a.openFrame n).written = a.written ++ text ++ ['\x7b'] := by
  show around a.enclosing ++ a.current.opening ++ a.current.body true ++
    (Frame.mk a.created n []).opening ++ [] ++ [] = _
  rw [hsettled, Frame.opening_of_ne_root (f := ⟨a.created, n, []⟩) hroot, hhead, written]
  simp [List.append_assoc]

theorem IsWhole.addLeaf (h : a.IsWhole) {n : Node} (hn : n.IsRecorded .nil) (ended : Bool) :
    (a.addLeaf n ended).IsWhole :=
  ⟨h.strict, h.unrepaired, h.nested.withEarlier _
    (Frame.isRecorded_adopt.mpr ⟨h.nested.isRecorded, hn, trivial⟩)⟩

theorem IsWhole.openFrame (h : a.IsWhole) {n : Node} (hn : n.IsInner) :
    (a.openFrame n).IsWhole :=
  ⟨h.strict, h.unrepaired, hn, trivial, h.nested⟩

/-! ## Closing a block -/

/-- `a.closedNode t` is the innermost container when it is closed. -/
def closedNode (a : Assembly) (t : Token) : Node :=
  a.stopNode t.span.stop (a.current.settle a.semicolon a.spaces).node

theorem closed_eq (t : Token) (outer : Frame) (enclosing : List Frame) :
    a.closed t outer enclosing =
      { a with semicolon := false, spaces := [], enclosing,
               current := outer.adopt (a.closedNode t, Forest.ofRev a.current.earlier) } := by
  unfold closed closedNode Frame.settle
  split <;> rfl

theorem closedNode_eq (t : Token) (h : a.current.node.raws.after = none) :
    ∃ origin flag,
      a.closedNode t = { a.current.node with origin, raws := { a.current.node.raws with
        after := some a.spaces, semicolon := flag } } ∧
      (a.current.earlier ≠ [] → flag = some a.semicolon) := by
  obtain ⟨flag, hsettle, hflag⟩ := Frame.settle_eq h a.semicolon a.spaces
  refine ⟨(a.stopNode t.span.stop a.current.node).origin, flag, ?_, hflag⟩
  rw [closedNode, hsettle]
  rfl

variable {t : Token} {outer : Frame} {enclosing : List Frame}

/-- A closed container has recorded all of its layout. -/
theorem isRecorded_closedNode (h : a.current.node.IsInner) :
    (a.closedNode t).IsRecorded (Forest.ofRev a.current.earlier) := by
  obtain ⟨origin, semicolon, hnode, hsemicolon⟩ := closedNode_eq t h.after
  rw [hnode]
  refine ⟨h.before, fun _ ↦ h.between, ?_, h.afterName, fun _ ↦ rfl, ?_, fun _ ↦ h.block, ?_,
    fun _ ↦ h.block, ?_⟩
  · exact fun htype ↦ absurd htype h.ne_comment
  · intro hne
    rw [hsemicolon (mt Forest.ofRev_eq_nil_iff.mpr hne)]
    rfl
  · exact ⟨h.ne_root, h.ne_other⟩
  · exact fun htype ↦ htype.elim (absurd · h.ne_declaration) (absurd · h.ne_comment)

/-- A closed container is spelled as its head, its finished trees and the text that waits. -/
theorem spell_closedNode (h : a.current.node.IsInner) (semicolon : Bool) :
    (a.closedNode t).spell semicolon ((Forest.ofRev a.current.earlier).spell
        ((a.closedNode t).raws.semicolon.getD false)) =
      a.current.opening ++ a.current.body a.semicolon ++ a.spaces ++ ['\x7d'] := by
  obtain ⟨origin, flag, hnode, hflag⟩ := closedNode_eq t h.after
  have hbody := Frame.spell_of_flag hflag
  have hclosing : Node.closing { a.current.node with origin, raws := { a.current.node.raws with
      after := some a.spaces, semicolon := flag } } = a.spaces ++ ['\x7d'] := by
    show a.spaces ++ '\x7d' :: (if _ then a.current.node.raws.ownSemicolon.getD [] else []) = _
    rw [h.ownSemicolon, Option.getD_none, ite_self]
  rw [hnode, Frame.opening_of_ne_root h.ne_root, Node.spell, Node.ending,
    if_pos (by exact h.block), hbody, hclosing]
  show a.current.node.before ++ a.current.node.head ++ _ = _
  simp [List.append_assoc]

/-- A closing brace adds itself, and nothing is left open behind it. -/
theorem IsWhole.closed (h : a.IsWhole) (hopen : a.enclosing = outer :: enclosing) :
    (a.closed t outer enclosing).IsWhole ∧ (a.closed t outer enclosing).IsSettled ∧
      (a.closed t outer enclosing).written = a.written ++ ['}'] := by
  have hnested := h.nested
  rw [hopen] at hnested
  obtain ⟨hinner, hrecorded, houter⟩ := hnested
  have hnode := isRecorded_closedNode (t := t) hinner
  have htype : ((a.closedNode t).type != .comment) = true := by
    obtain ⟨origin, semicolon, heq, _⟩ := closedNode_eq t hinner.after
    rw [heq]
    exact bne_iff_ne.mpr hinner.ne_comment
  have hbody (semicolon : Bool) :
      (outer.adopt (a.closedNode t, Forest.ofRev a.current.earlier)).body semicolon =
        outer.body true ++
          (a.current.opening ++ a.current.body a.semicolon ++ a.spaces ++ ['}']) := by
    rw [Frame.body_adopt, htype, Bool.true_or, spell_closedNode hinner]
  rw [closed_eq]
  refine ⟨⟨h.strict, h.unrepaired, houter.withEarlier _ (Frame.isRecorded_adopt.mpr ?_)⟩, ?_, ?_⟩
  · exact ⟨houter.isRecorded, hnode, hrecorded⟩
  · rw [IsSettled, hbody, hbody]
  · simp only [written, hbody, hopen, around]
    simp [List.append_assoc, Frame.opening, Frame.adopt]

/-! ## The nodes of statements -/

theorem isRecorded_declarationNode (a : Assembly) (custom : Bool) (tokens : List Token)
    (parts : Parts) (marked : Marked) :
    (a.declarationNode custom tokens parts marked).IsRecorded .nil :=
  ⟨rfl, fun _ ↦ rfl, nofun, nofun, nofun, nofun, nofun, ⟨nofun, nofun⟩, nofun, fun _ ↦ rfl⟩

theorem isRecorded_atRuleNode (a : Assembly) (word : Token) (params : List Token)
    (between : Text) : (a.atRuleNode word params between).IsRecorded .nil :=
  ⟨rfl, fun _ ↦ rfl, nofun, fun _ ↦ rfl, nofun, nofun, nofun, ⟨nofun, nofun⟩, nofun, nofun⟩

theorem isRecorded_commentNode (a : Assembly) (t : Token) :
    (a.commentNode t).IsRecorded .nil := by
  have htype := a.type_commentNode t
  refine ⟨rfl, fun h ↦ absurd htype h, fun _ ↦ ⟨rfl, rfl⟩, fun h ↦ ?_, fun h ↦ ?_, nofun,
    nofun, ⟨?_, ?_⟩, fun h ↦ ?_, fun _ ↦ a.hasBlock_commentNode t⟩
  · cases htype.symm.trans h
  · cases (a.hasBlock_commentNode t).symm.trans h
  · exact fun h ↦ by cases htype.symm.trans h
  · exact fun h ↦ by cases htype.symm.trans h
  · cases htype.symm.trans h

theorem isInner_ruleNode (a : Assembly) (head : List Token) (brace : Token) :
    (a.ruleNode head brace).IsInner :=
  ⟨rfl, .inl rfl, rfl, rfl, nofun, rfl, rfl⟩

theorem isInner_atRuleWhole (a : Assembly) (word : Token) (params : List Token) :
    (a.atRuleWhole word params).openBlock.IsInner :=
  ⟨rfl, .inr rfl, rfl, rfl, fun _ ↦ rfl, rfl, rfl⟩

/-- A place in the source is not part of what a node has recorded. -/
theorem isRecorded_stopNode (a : Assembly) {n : Node} (stop : Nat) (h : n.IsRecorded .nil) :
    (a.stopNode stop n).IsRecorded .nil :=
  ⟨h.before, h.between, h.edges, h.afterName, h.after, h.semicolon, h.block, h.plain,
    h.rule, h.leaf⟩

/-! ## One statement -/

theorem IsWhole.wait (h : a.IsWhole) (text : Text) :
    (a.wait text).IsWhole ∧ (a.wait text).written = a.written ++ text := by
  refine ⟨⟨h.strict, h.unrepaired, h.nested⟩, ?_⟩
  show around a.enclosing ++ a.current.opening ++ a.current.body a.semicolon ++
    (a.spaces ++ text) = _
  simp [written, List.append_assoc]

/-- A rule is spelled as before, with the semicolon behind its block. -/
theorem spell_own {n : Node} (htype : n.type = .rule) (hblock : n.hasBlock = true)
    (hown : n.raws.ownSemicolon = none) (text : Text) (semicolon : Bool) (body : Text) :
    (n.own text).spell semicolon body = n.spell semicolon body ++ text := by
  have hblock' : (n.own text).hasBlock = true := hblock
  have htype' : (n.own text).type = .rule := htype
  rw [Node.spell, Node.spell, Node.ending, Node.ending, if_pos hblock, if_pos hblock',
    Node.closing, Node.closing, if_pos htype, if_pos htype', hown]
  show n.before ++ n.head ++ ('\x7b' :: body ++ (n.raws.after.getD [] ++ '\x7d' :: text)) = _
  simp [List.append_assoc]

theorem isRecorded_own {n : Node} {below : Forest Node} (h : n.IsRecorded below) (text : Text) :
    (n.own text).IsRecorded below :=
  ⟨h.before, h.between, h.edges, h.afterName, h.after, h.semicolon, h.block, h.plain,
    h.rule, h.leaf⟩

/-- A semicolon between statements adds its text, either to the rule before it or to the text that
waits. -/
theorem IsWhole.freeSemicolon (h : a.IsWhole) (t : Token) :
    (a.freeSemicolon t).IsWhole ∧ (a.IsSettled → (a.freeSemicolon t).IsSettled) ∧
      (a.freeSemicolon t).written = a.written ++ t.text := by
  obtain hwait | ⟨⟨n, below⟩, earlier, hearlier, htype, hown, htaken⟩ := a.freeSemicolon_cases t
  · rw [hwait]
    obtain ⟨hwhole, hwritten⟩ := h.wait t.text
    exact ⟨hwhole, id, hwritten⟩
  · rw [htaken]
    have hcurrent : a.current = { a.current with earlier }.adopt (n, below) :=
      Frame.eq_adopt hearlier
    have hrecorded := h.nested.isRecorded
    rw [hcurrent, Frame.isRecorded_adopt] at hrecorded
    obtain ⟨hbefore, hn, hbelow⟩ := hrecorded
    have hcomment : n.type ≠ .comment := by
      rw [htype]
      exact nofun
    have hbody (semicolon : Bool) :
        ({ a.current with earlier }.adopt (n.own (a.spaces ++ t.text), below)).body semicolon =
          a.current.body a.semicolon ++ (a.spaces ++ t.text) := by
      conv => rhs; rw [hcurrent]
      rw [Frame.body_adopt, Frame.body_adopt, bne_iff_ne.mpr hcomment,
        bne_iff_ne.mpr (by exact hcomment), spell_own htype (hn.rule htype) hown,
        Node.spell_of_hasBlock (hn.rule htype) semicolon a.semicolon, ← List.append_assoc]
      rfl
    refine ⟨⟨h.strict, h.unrepaired, ?_⟩, fun _ ↦ (hbody true).trans (hbody _).symm, ?_⟩
    · exact h.nested.withEarlier ((n.own (a.spaces ++ t.text), below) :: earlier)
        (Frame.isRecorded_adopt (f := { a.current with earlier }).mpr
          ⟨hbefore, isRecorded_own hn _, hbelow⟩)
    · show around a.enclosing ++ a.current.opening ++
        ({ a.current with earlier }.adopt (n.own (a.spaces ++ t.text), below)).body
          a.semicolon ++ [] = _
      rw [hbody, written]
      simp [List.append_assoc]

/-- `a.Extends text behind a'` says that `a'` has read `text` behind what `a` has read, and that
it is spelled right if the tokens `behind` follow. -/
structure Extends (a : Assembly) (text : Text) (behind : List Token) (a' : Assembly) : Prop where
  whole : a'.IsWhole
  settled : a'.IsSettled ∨ EndsBlock behind
  written : a'.written = a.written ++ text

variable {a' : Assembly} {behind : List Token}

/-- A leaf other than a comment extends what has been read, if it ends with a semicolon or at the
end of its block. -/
theorem IsWhole.extends_addLeaf (h : a.IsWhole) (hsettled : a.IsSettled) {n : Node} (ended : Bool)
    {text : Text} (hn : n.IsRecorded .nil) (htype : n.type ≠ .comment)
    (hleaf : n.hasBlock = false) (hhead : n.before ++ n.head = a.spaces ++ text)
    (hended : ended = true ∨ EndsBlock behind) :
    a.Extends (text ++ Layout.semicolonText ended) behind (a.addLeaf n ended) := by
  refine ⟨h.addLeaf hn ended, hended.imp_left fun hended ↦ ?_, ?_⟩
  · rw [hended]
    rfl
  · rw [written_addLeaf htype hleaf hsettled ended hhead, List.append_assoc]

/-- An opened container extends what has been read. -/
theorem IsWhole.extends_openFrame (h : a.IsWhole) (behind : List Token) (hsettled : a.IsSettled)
    {n : Node} {text : Text} (hn : n.IsInner) (hhead : n.before ++ n.head = a.spaces ++ text) :
    a.Extends (text ++ ['\x7b']) behind (a.openFrame n) :=
  ⟨h.openFrame hn, .inl rfl,
    by rw [written_openFrame hn.ne_root hsettled hhead, List.append_assoc]⟩

/-- Only what is skipped and a closing brace can stand before the end of a block. -/
theorem settled_of_not_trivia {t : Token} {rest : List Token} {settled : Prop}
    (hsettled : settled ∨ EndsBlock (t :: rest)) (hbrace : t.kind ≠ .rightBrace)
    (htrivia : t.isTrivia = false) : settled := by
  rcases hsettled with h | h
  · exact h
  · rcases h.cons with h | ⟨h, _⟩
    · exact absurd h hbrace
    · rw [htrivia] at h
      cases h

theorem settled_of_trivia {t : Token} {rest : List Token} {settled settled' : Prop}
    (hsettled : settled ∨ EndsBlock (t :: rest)) (hbrace : t.kind ≠ .rightBrace)
    (hkeeps : settled → settled') : settled' ∨ EndsBlock rest := by
  rcases hsettled with h | h
  · exact .inl (hkeeps h)
  · rcases h.cons with h | ⟨_, h⟩
    · exact absurd h hbrace
    · exact .inr h

/-- An at-rule extends what has been read by its name, its parameters and their end. -/
theorem IsWhole.extends_atRule (h : a.IsWhole) (hsettled : a.IsSettled) {word : Token}
    {params : List Token} {ending : AtRuleEnd} (hword : word.kind = .atWord)
    (hformed : ∀ u ∈ word :: params ++ ending.tokens, u.kind ≠ .comment → u.IsFormed)
    (hfits : ending.Fits none behind) (hbody : a.atRuleBody word params ending = .ok a') :
    a.Extends (Token.spelling (word :: params ++ ending.tokens)) behind a' := by
  have hname : ∃ name, word.text = '@' :: name :=
    (hformed word (by simp) (by rw [hword]; decide)).exists_name hword
  have hwhole := a.text_atRuleWhole params hname
  rw [List.append_assoc] at hwhole
  have hrecorded (stop : Nat) : (a.stopNode stop (a.atRuleWhole word params)).IsRecorded .nil :=
    isRecorded_stopNode a stop (a.isRecorded_atRuleNode word params _)
  have hcomment : NodeType.atRule ≠ .comment := by decide
  have hend (t : Token) (ht : t ∈ ending.tokens) {kind : TokenKind} (hkind : t.kind = kind)
      {c : Char} (hc : Scan.single? c = some kind) : t.text = [c] :=
    (hformed t (by simp [ht]) (hkind ▸ Scan.ne_comment_of_single? hc)).single hkind hc
  cases ending with
  | semicolon t =>
      cases hbody
      have h := h.extends_addLeaf hsettled true
        (hrecorded t.span.stop) hcomment rfl hwhole (Or.inl rfl : true = true ∨ EndsBlock behind)
      have htext := hend t (by simp [AtRuleEnd.tokens]) hfits (c := ';') rfl
      simpa [AtRuleEnd.tokens, htext, Layout.semicolonText] using h
  | block t =>
      cases hbody
      have h := h.extends_openFrame behind hsettled (a.isInner_atRuleWhole word params) hwhole
      have htext := hend t (by simp [AtRuleEnd.tokens]) hfits (c := '\x7b') rfl
      simpa [AtRuleEnd.tokens, htext] using h
  | close t =>
      have h := h.extends_addLeaf hsettled false
        (hrecorded (atRuleStop word params)) hcomment rfl hwhole
        (.inr (AtBlockEnd.endsBlock (.inl rfl : AtBlockEnd [])))
      obtain ⟨outer, enclosing, hopen, rfl⟩ := closeBlock_eq_ok h.whole.strict hbody
      obtain ⟨hwhole, hsettled, hwritten⟩ := h.whole.closed (t := t) hopen
      refine ⟨hwhole, .inl hsettled, ?_⟩
      have htext := hend t (by simp [AtRuleEnd.tokens]) hfits (c := '\x7d') rfl
      rw [hwritten, h.written]
      simp [AtRuleEnd.tokens, htext, Layout.semicolonText]
  | input =>
      have hends : EndsBlock behind := AtBlockEnd.endsBlock (.inl hfits.1)
      unfold atRuleBody at hbody
      dsimp only at hbody
      split at hbody
      · cases hbody
        have h := h.extends_addLeaf hsettled false
          (hrecorded (Token.stopOr (atRuleCore params) word.span.stop)) hcomment rfl hwhole
          (.inr hends)
        simpa [AtRuleEnd.tokens, Layout.semicolonText] using h
      · cases hbody
        have hnode := a.text_atRuleNode params [] hname
        rw [List.append_nil, List.append_assoc] at hnode
        have h := h.extends_addLeaf hsettled false
          (isRecorded_stopNode a (Token.stopOr (atRuleCore params) word.span.stop)
            (a.isRecorded_atRuleNode word params [])) hcomment rfl hnode (.inr hends)
        obtain ⟨hwait, hwritten⟩ :=
          h.whole.wait (Token.spelling (Token.splitTrailing Token.isTrivia params).2)
        refine ⟨hwait, .inr hends, ?_⟩
        rw [hwritten, h.written, AtRuleEnd.tokens, List.append_nil, Token.spelling_cons,
          ← Token.spelling_splitTrailing Token.isTrivia params]
        simp [Layout.semicolonText]
  | failure e => cases hbody

/-- The tokens of a declaration are its parts and, if it ends with one, a semicolon. -/
theorem spelling_bodyOf {tokens : List Token}
    (hformed : ∀ u ∈ tokens, u.kind ≠ .comment → u.IsFormed) :
    Token.spelling (Statement.bodyOf tokens) ++
        Layout.semicolonText (tokens.getLast?.any (·.is .semicolon)) =
      Token.spelling tokens := by
  unfold Statement.bodyOf
  cases hlast : tokens.getLast? with
  | none => simp [Layout.semicolonText]
  | some s =>
      obtain ⟨body, rfl⟩ := List.getLast?_eq_some_iff.mp hlast
      cases hs : s.is .semicolon with
      | true =>
          have hkind : s.kind = .semicolon := beq_iff_eq.mp hs
          have htext := (hformed s (by simp) (by rw [hkind]; decide)).single hkind (c := ';') rfl
          simp [hs, htext, Layout.semicolonText]
      | false => simp [hs, Layout.semicolonText]

/-- A declaration extends what has been read by its tokens. -/
theorem IsWhole.extends_declaration (h : a.IsWhole) (hsettled : a.IsSettled)
    {tokens : List Token} (custom : Bool) {parts : Parts}
    (hformed : ∀ u ∈ tokens, u.kind ≠ .comment → u.IsFormed)
    (hends : tokens.getLast?.any (·.is .semicolon) = true ∨ EndsBlock behind)
    (hparts : Parts.ofTokens? (Statement.bodyOf tokens) = some parts) :
    a.Extends (Token.spelling tokens) behind
      (a.addLeaf (a.declarationNode custom tokens parts (takeImportant parts.value))
        (tokens.getLast?.any (·.is .semicolon))) := by
  have h := h.extends_addLeaf hsettled _
    (a.isRecorded_declarationNode custom tokens parts (takeImportant parts.value)) nofun rfl
    (a.text_declarationNode custom tokens parts) hends
  rw [Parts.tokens_ofTokens? hparts, spelling_bodyOf hformed] at h
  exact h

/-- Tokens that wait extend what has been read. -/
theorem IsWhole.extends_wait (h : a.IsWhole) (hsettled : a.IsSettled) (text : Text)
    (behind : List Token) : a.Extends text behind (a.wait text) :=
  ⟨(h.wait text).1, .inl hsettled, (h.wait text).2⟩

/-- A rule extends what has been read by its head and its opening brace. -/
theorem IsWhole.extends_rule (h : a.IsWhole) (hsettled : a.IsSettled) (head : List Token)
    {brace : Token} (hkind : brace.kind = .leftBrace) (hformed : brace.IsFormed)
    (behind : List Token) :
    a.Extends (Statement.rule head brace).written behind (a.rule head brace) := by
  have h := h.extends_openFrame behind hsettled (a.isInner_ruleNode head brace)
    (a.text_ruleNode head brace)
  have htext := hformed.single hkind (c := '\x7b') rfl
  simpa [rule_eq, Statement.written, Statement.tokens, htext] using h

/-- A closing brace extends what has been read, if there is a block to close. -/
theorem IsWhole.extends_closed (h : a.IsWhole) {outer : Frame} {enclosing : List Frame}
    (hopen : a.enclosing = outer :: enclosing) {t : Token} (hkind : t.kind = .rightBrace)
    (hformed : t.IsFormed) (behind : List Token) :
    a.Extends (Statement.close t).written behind (a.closed t outer enclosing) := by
  obtain ⟨hwhole, hsettled, hwritten⟩ := h.closed (t := t) hopen
  refine ⟨hwhole, .inl hsettled, ?_⟩
  rw [hwritten]
  simp [Statement.written, Statement.tokens, hformed.single hkind (c := '\x7d') rfl]

variable {stop : Nat} {t : Token} {rest : List Token} {statement : Statement}

/-- Every statement that strict assembly takes extends what has been read by what is written for
it. -/
theorem extends_takes (h : a.IsWhole) (hsettled : a.IsSettled ∨ EndsBlock (t :: rest))
    (hsound : ∀ u ∈ statement.tokens, u.IsSound)
    (hcut : Statement.Cut stop t rest statement behind) (htakes : a.Takes statement a') :
    a.Extends statement.written behind a' := by
  have htokens : ∀ u ∈ statement.tokens, u.kind ≠ .comment → u.IsFormed :=
    fun u hu ↦ (hsound u hu).other
  have hother (hstarts : Statement.StartsOther t) : a.IsSettled :=
    settled_of_not_trivia hsettled hstarts.2.2.1 hstarts.isTrivia_eq_false
  cases hcut with
  | space hkind =>
      cases htakes
      obtain ⟨hwhole, hwritten⟩ := h.wait t.text
      refine ⟨hwhole, settled_of_trivia hsettled (by simp [hkind]) id, ?_⟩
      rw [hwritten]
      simp [Statement.written, Statement.tokens]
  | semicolon hkind =>
      cases htakes
      obtain ⟨hwhole, hkeeps, hwritten⟩ := h.freeSemicolon t
      refine ⟨hwhole, settled_of_trivia hsettled (by simp [hkind]) hkeeps, ?_⟩
      rw [hwritten]
      simp [Statement.written, Statement.tokens]
  | comment hkind =>
      cases htakes
      have hhead := a.text_commentNode_of_isSound hkind (hsound t (by simp [Statement.tokens]))
      obtain ⟨hwritten, hkeeps⟩ :=
        written_addComment (a.type_commentNode t) (a.hasBlock_commentNode t) hhead
      rw [comment_eq]
      exact ⟨h.addLeaf (a.isRecorded_commentNode t) _,
        settled_of_trivia hsettled (by simp [hkind]) hkeeps, hwritten⟩
  | close hkind =>
      have hformed := htokens t (by simp [Statement.tokens]) (by rw [hkind]; decide)
      cases htakes with
      | close _ hopen => exact h.extends_closed hopen hkind hformed behind
  | block hkind =>
      cases htakes
      have hsettled := settled_of_not_trivia hsettled (by simp [hkind])
        (by simp [Token.isTrivia, hkind, TokenKind.isTrivia])
      have hformed := htokens t (by simp [Statement.tokens]) (by rw [hkind]; decide)
      exact h.extends_rule hsettled [] hkind hformed behind
  | @rule tokens brace _ _ _ hstarts hgather =>
      cases htakes
      have hkind : (Statement.GatherEnd.brace brace).Fits behind :=
        Statement.Gathered.fits_of_gather hgather
      have hformed := htokens brace (by simp [Statement.tokens]) (by rw [hkind]; decide)
      exact h.extends_rule (hother hstarts) tokens hkind hformed behind
  | atRule hkind hgather =>
      have hsettled := settled_of_not_trivia hsettled (by simp [hkind])
        (by simp [Token.isTrivia, hkind, TokenKind.isTrivia])
      have hfits := Statement.Params.fits_gather none [] rest
      rw [hgather] at hfits
      have hadded := htakes.add h.strict
      have hname := name_ne_nil_of_atRule_eq_ok h.strict hadded
      exact h.extends_atRule hsettled hkind htokens hfits
        ((atRule_of_name _ _ hname).symm.trans hadded)
  | ended hstarts hgather =>
      have hends :=
        (Statement.Cut.ended hstarts hgather : Statement.Cut stop t rest _ _).endsBlock
      cases htakes with
      | declaration _ hparts _ hnode =>
          subst hnode
          exact h.extends_declaration (hother hstarts) _ htokens hends hparts
  | custom hstarts hgather hcustom hend hsettles =>
      cases htakes with
      | declaration _ hparts _ hnode =>
          subst hnode
          exact h.extends_declaration (hother hstarts) _ htokens (.inr hend.endsBlock) hparts
  | @plain tokens _ _ _ _ _ hstarts hgather hcustom hend hsettles =>
      have hends := hend.endsBlock_splitTrailing tokens
      cases htakes with
      | declaration _ hparts _ hnode =>
          subst hnode
          exact h.extends_declaration (hother hstarts) _ htokens (.inr hends) hparts
  | endedStray | stray => cases htakes

/-- Every statement that strict assembly takes extends what has been read by its tokens. -/
theorem written_takes (h : a.IsWhole) (hsettled : a.IsSettled ∨ EndsBlock (t :: rest))
    (hformed : ∀ u ∈ t :: rest, u.IsFormed ∧ u.healed = false)
    (hcut : Statement.Cut stop t rest statement behind) (htakes : a.Takes statement a') :
    a.Extends (Token.spelling statement.tokens) behind a' := by
  have htokens : ∀ u ∈ statement.tokens, u.IsFormed ∧ u.healed = false := fun u hu ↦
    hformed u (by rw [← hcut.tokens_append]; exact List.mem_append_left _ hu)
  have h := extends_takes h hsettled
    (fun u hu ↦ (htokens u hu).1.isSound (htokens u hu).2) hcut htakes
  rwa [Statement.written_of_healed fun u hu ↦ (htokens u hu).2] at h

/-! ## Whole documents -/

/-- A run of tokens that strict assembly takes extends what has been read by the run. -/
theorem IsWhole.extends_run (h : a.IsWhole) {tokens : List Token}
    (hsettled : a.IsSettled ∨ EndsBlock tokens)
    (hformed : ∀ u ∈ tokens, u.IsFormed ∧ u.healed = false) (hrun : TakesRun stop a tokens a') :
    a'.IsWhole ∧ a'.written = a.written ++ Token.spelling tokens := by
  induction hrun with
  | nil => exact ⟨h, by simp⟩
  | @cons a b c t rest statement behind hfirst htakes _ ih =>
      have hcut := Statement.first_cut stop t rest
      rw [hfirst] at hcut
      have htokens := hcut.tokens_append
      have hb := written_takes h hsettled hformed hcut htakes
      have hbehind : ∀ u ∈ behind, u.IsFormed ∧ u.healed = false := fun u hu ↦
        hformed u (by rw [← htokens]; exact List.mem_append_right _ hu)
      obtain ⟨hwhole, hwritten⟩ := ih hb.whole hb.settled hbehind
      refine ⟨hwhole, ?_⟩
      rw [hwritten, hb.written, ← htokens, Token.spelling_append, List.append_assoc]

theorem isWhole_start (source : Source) : (start source .strict).IsWhole :=
  ⟨rfl, rfl, ⟨rfl, rfl, rfl⟩, trivial⟩

theorem written_start (source : Source) : (start source .strict).written = [] := rfl

/-- An assembly in which only the root is open ends with a root that is spelled as what has been
read. -/
theorem IsWhole.spell_ended (h : a.IsWhole) (hopen : a.enclosing = []) :
    let top := a.ended.current.node
    let below := Forest.ofRev a.ended.current.earlier
    top.kind = .root ∧ top.hasBlock = true ∧ below.Each Node.IsRecorded ∧
      (below ≠ .nil → top.raws.semicolon = some a.semicolon) ∧
      below.spell (top.raws.semicolon.getD false) ++ top.raws.after.getD [] = a.written := by
  have hnested := h.nested
  rw [hopen] at hnested
  obtain ⟨houter, hrecorded⟩ := hnested
  obtain ⟨flag, hsettle, hflag⟩ := Frame.settle_eq houter.after a.semicolon a.spaces
  unfold ended Frame.mapNode
  rw [hsettle]
  refine ⟨houter.kind, houter.block, hrecorded,
    fun hne ↦ hflag (mt Forest.ofRev_eq_nil_iff.mpr hne), ?_⟩
  show (Forest.ofRev a.current.earlier).spell (flag.getD false) ++ a.spaces = a.written
  rw [Frame.spell_of_flag hflag, written, hopen, Frame.opening, Node.type, houter.kind]
  rfl

theorem earlier_ended (a : Assembly) : a.ended.current.earlier = a.current.earlier := by
  unfold ended Frame.settle
  split <;> rfl

/-- Without repairs an assembly that has ended makes the document of its root and its finished
trees. -/
theorem IsWhole.document_eq (h : a.IsWhole) :
    a.ended.document = Document.ofForest a.source .strict
      (.cons a.ended.current.node (Forest.ofRev a.current.earlier) .nil) := by
  rw [← earlier_ended, ← h.strict]
  show a.recoveries.foldl Document.recover _ = _
  rw [h.unrepaired]
  rfl

/-- An assembly in which only the root is open makes a document that is spelled as what has been
read. -/
theorem IsWhole.document_ended (h : a.IsWhole) (hopen : a.enclosing = []) :
    let below := Forest.ofRev a.current.earlier
    ∃ top, a.ended.document = Document.ofForest a.source .strict (.cons top below .nil) ∧
      top.kind = .root ∧ top.hasBlock = true ∧ below.Each Node.IsRecorded ∧
      (below ≠ .nil → top.raws.semicolon = some a.semicolon) ∧
      below.spell (top.raws.semicolon.getD false) ++ top.raws.after.getD [] = a.written := by
  refine ⟨a.ended.current.node, h.document_eq, ?_⟩
  rw [← earlier_ended]
  exact h.spell_ended hopen

end Assembly

/-! ## Printing -/

/-- `doc.Records f` says that the trees `f` are below the root of a document, and that the root
and all of their nodes have recorded how they are written. -/
structure Document.Records (doc : Document) (f : Forest NodeId) : Prop where
  unfolds : doc.Unfolds (doc.children root) f
  size : f.size ≤ doc.size
  kind : (doc.node root).kind = .root
  nodes : (f.map doc.node).Each Node.IsRecorded
  semicolon : f ≠ .nil → (doc.node root).raws.semicolon.isSome = true

namespace Printer

variable (p : Printer) {doc : Document} {f : Forest NodeId}

/-- A root that has recorded how it is written is printed as the trees below it and its end. -/
theorem print_of_records (h : doc.Records f) :
    p.print doc =
      .one ⟨[], some Document.root, some .start⟩ ++
        p.forest (p.layout doc Document.root)
          ((doc.node Document.root).raws.semicolon.getD false) f ++
        .gap ((doc.node Document.root).raws.after.getD []) ++
        .one ⟨[], some Document.root, some .stop⟩ := by
  unfold print printNode
  rw [Document.below_eq_of_unfolds h.unfolds h.size]
  generalize hlayout : p.layout doc Document.root = l
  have hdocument : l.document = doc := by
    rw [← hlayout]
    rfl
  subst hdocument
  simp only [node, h.kind, Layout.root, Layout.raws]
  cases f with
  | nil => rfl
  | cons id under rest => rw [Layout.semicolon_eq rfl (h.semicolon (by simp))]

/-- A document whose nodes have recorded how they are written is printed as its forest is spelled,
whatever the printer is. -/
theorem prints_of_records (h : doc.Records f) :
    (p.print doc).Prints
      ((f.map doc.node).spell ((doc.node Document.root).raws.semicolon.getD false) ++
        (doc.node Document.root).raws.after.getD []) := by
  rw [p.print_of_records h]
  have hbody : (p.forest (p.layout doc Document.root)
      ((doc.node Document.root).raws.semicolon.getD false) f).Prints
      ((f.map doc.node).spell ((doc.node Document.root).raws.semicolon.getD false)) :=
    p.prints_forest _ f h.nodes
  have h := ((Printed.prints_one ⟨[], some Document.root, some .start⟩).append hbody).append
    (Printed.prints_gap ((doc.node Document.root).raws.after.getD [])) |>.append
    (Printed.prints_one ⟨[], some Document.root, some .stop⟩)
  simpa using h

end Printer

/-- A document has recorded what the trees have that it was made from. -/
theorem Document.records_ofForest (source : Source) (mode : Mode) {top : Node}
    {below : Forest Node} (hkind : top.kind = .root) (hblock : top.hasBlock = true)
    (hbelow : below.Each Node.IsRecorded)
    (hsemicolon : below ≠ .nil → top.raws.semicolon.isSome = true) :
    let doc := Document.ofForest source mode (.cons top below .nil)
    doc.Records (below.numbers 1) ∧ (doc.node root).unlinked = top.unlinked ∧
      ((below.numbers 1).map doc.node).map Node.unlinked = below.map Node.unlinked := by
  have hblocked : below.IsBlocked :=
    hbelow.imp fun n f hn ↦ by
      by_cases hnil : f = .nil
      · exact .inl hnil
      · exact .inr (hn.block hnil)
  obtain ⟨hunfolds, hroot, hnodes⟩ :=
    Document.unfolds_ofForest source mode (.inr hblock) hblocked
  have hsize := Document.size_ofForest source mode (.cons top below .nil)
  generalize Document.ofForest source mode (.cons top below .nil) = doc at *
  refine ⟨⟨hunfolds, ?_, ?_, ?_, fun hne ↦ ?_⟩, hroot, hnodes⟩
  · rw [hsize, Forest.size_numbers, Forest.size]
    omega
  · rw [← hkind]
    simpa using congrArg Node.kind hroot
  · rw [← Forest.each_isRecorded_map_unlinked, hnodes, Forest.each_isRecorded_map_unlinked]
    exact hbelow
  · have hraws : (doc.node root).raws = top.raws := by simpa using congrArg Node.raws hroot
    rw [hraws]
    refine hsemicolon fun hnil ↦ hne ?_
    rw [hnil]
    rfl

/-- A document is printed as it was spelled when it was made, whatever the printer is. -/
theorem Printer.print_ofForest (p : Printer) (source : Source) (mode : Mode) {top : Node}
    {below : Forest Node} (hkind : top.kind = .root) (hblock : top.hasBlock = true)
    (hbelow : below.Each Node.IsRecorded)
    (hsemicolon : below ≠ .nil → top.raws.semicolon.isSome = true) :
    (p.print (Document.ofForest source mode (.cons top below .nil))).Prints
      (below.spell (top.raws.semicolon.getD false) ++ top.raws.after.getD []) := by
  obtain ⟨hrecords, hroot, hnodes⟩ :=
    Document.records_ofForest source mode hkind hblock hbelow hsemicolon
  have hraws := congrArg Node.raws hroot
  rw [Node.raws_unlinked, Node.raws_unlinked] at hraws
  have h := p.prints_of_records hrecords
  rw [← Forest.spell_map_unlinked, hnodes, Forest.spell_map_unlinked, hraws] at h
  exact h

/-- A document that strict reading computes is printed as its source, whatever the printer is. -/
theorem print_of_parse {source : Source} {doc : Document} (h : parse source .strict = .ok doc)
    (p : Printer) : (p.print doc).failure = none ∧ (p.print doc).text = source.text := by
  obtain ⟨final, hassemble, rfl⟩ := parse_eq_ok.mp h
  obtain ⟨a, hfailure, hruns, hopen, rfl⟩ := assemble_strict_eq_ok hassemble
  obtain ⟨hwhole, hwritten⟩ := (Assembly.isWhole_start source).extends_run (.inl rfl)
    (fun u hu ↦ ⟨Token.isFormed_of_mem_run hfailure hu, Token.healed_of_mem_run hfailure hu⟩)
      hruns
  obtain ⟨top, hdocument, hkind, hblock, hbelow, hsemicolon, htext⟩ := hwhole.document_ended hopen
  have hprints := p.print_ofForest a.source .strict hkind hblock hbelow
    fun hne ↦ by rw [hsemicolon hne]; rfl
  rw [← hdocument, htext, hwritten, Assembly.written_start, List.nil_append,
    Token.spelling_run hfailure] at hprints
  exact ⟨hprints.failure, hprints.text_eq⟩

/-- A rule is printed with its blanks and with the letter case of its important mark. -/
theorem print_of_parse_important :
    ∃ doc, parse ⟨"a { b: c !IMPORTANT ; }".toList, none⟩ .strict = .ok doc ∧
      (({} : Printer).print doc).failure = none ∧
      (({} : Printer).print doc).text = "a { b: c !IMPORTANT ; }".toList :=
  have h : ∃ doc, parse ⟨"a { b: c !IMPORTANT ; }".toList, none⟩ .strict = .ok doc := ⟨_, rfl⟩
  h.imp fun _ hdoc ↦ ⟨hdoc, print_of_parse hdoc {}⟩

end Stylesheet
