import Stylesheet.Proofs.Changes
import Stylesheet.Proofs.Lossless

/-!
# Documents that leave nothing to infer

A printer can differ from another one in its defaults, its renderers and whether it is strict. A
node that `IsDetermined` has recorded all that could tell two printers apart, so that they print
it alike (`forest_agrees`). Assembly makes such nodes only, in either mode, and
`print_agrees_of_parse` says so of whole documents.

What needs care are the blocks that are still open at the end of the text. Only the innermost one
of them records whether a semicolon ends its contents. The others end with the block that was open
in them, behind which no semicolon is printed (`awaits_adopt`).
-/

namespace Stylesheet

/-! ## Determined nodes -/

/-- `n.takesSemicolon` says that a semicolon can end the node. -/
def Node.takesSemicolon (n : Node) : Bool :=
  n.type == .declaration || n.type == .atRule && !n.hasBlock

/-- `f.awaits` says that a semicolon can end the last tree that is no comment. -/
def Forest.awaits : Forest Node → Bool
  | nil => false
  | cons n _ rest => rest.awaits || !rest.endsBefore && n.takesSemicolon

/-- A node with the nodes below it has recorded all that printers would else infer, each in its
own way. -/
structure Node.IsDetermined (n : Node) (below : Forest Node) : Prop where
  plain : n.type ≠ .root ∧ n.type ≠ .other
  shaped : n.IsShaped
  before : n.raws.before.isSome = true
  between : n.type ≠ .comment → n.raws.between.isSome = true
  edges : n.type = .comment → n.raws.left.isSome = true ∧ n.raws.right.isSome = true
  after : n.hasBlock = true → n.raws.after.isSome = true
  semicolon : below.awaits = true → n.raws.semicolon.isSome = true

theorem Node.IsRecorded.isShaped {n : Node} {below : Forest Node} (h : n.IsRecorded below) :
    n.IsShaped := by
  constructor
  · intro hstarts
    rw [Kind.startsWithBlock_eq, Bool.or_eq_true, beq_iff_eq, beq_iff_eq] at hstarts
    exact hstarts.elim (absurd · h.plain.1) h.rule
  · intro hblock
    have hleaf := mt h.leaf (by simp [hblock])
    rw [not_or] at hleaf
    rw [Kind.canContain_eq, Bool.and_eq_true, bne_iff_ne, bne_iff_ne]
    exact hleaf

theorem Node.IsRecorded.isDetermined {n : Node} {below : Forest Node} (h : n.IsRecorded below) :
    n.IsDetermined below := by
  refine ⟨h.plain, h.isShaped, h.before, h.between, h.edges, h.after, fun hawaits ↦
    h.semicolon ?_⟩
  rintro rfl
  cases hawaits

/-! ## Two printers -/

namespace Printed

theorem failure_append {p q : Printed} (hp : p.failure = none) (hq : q.failure = none) :
    (p ++ q).failure = none := by
  rw [append_of_failure_none q hp]
  exact hq

theorem failure_gap (text : Text) : (gap text).failure = none := (prints_gap text).failure

end Printed

namespace Printer

variable {l m : Layout} {id : NodeId} {n : Node} {below : Forest Node} {body : Printed}

/-- Two printers print a node alike around the same body if their layouts agree on what is printed
of a node of its sort. -/
theorem node_congr (p q : Printer) (hn : l.document.node id = n) (hm : m.document.node id = n)
    (hshaped : n.IsShaped) (hbetween : n.type ≠ .comment → l.between id = m.between id)
    (hafter : n.hasBlock = true → l.after id = m.after id)
    (hedges : n.type = .comment →
      l.commentLeft id = m.commentLeft id ∧ l.commentRight id = m.commentRight id)
    (semicolon : Bool) (body : Printed)
    (hother : ∀ name head value, n.kind = .other name head value →
      p.other l id name semicolon body = q.other m id name semicolon body) :
    p.node l id semicolon body = q.node m id semicolon body := by
  have htype : n.type = n.kind.type := rfl
  unfold node
  rw [hn, hm]
  cases hkind : n.kind with
  | root => simp only [Layout.root, Layout.raws, hn, hm]
  | other name head value => exact hother name head value hkind
  | rule selector =>
      rw [hkind] at htype
      have hblock : n.hasBlock = true := hshaped.block (by rw [hkind]; rfl)
      simp only [Layout.rule, Layout.block, Layout.raws, hn, hm, hafter hblock,
        hbetween (by rw [htype]; rintro ⟨⟩)]
  | atRule name params =>
      rw [hkind] at htype
      simp only [Layout.atRule, Layout.atRuleHead, Layout.block, Layout.raws, hn, hm,
        hbetween (by rw [htype]; rintro ⟨⟩)]
      split
      · next hblock => rw [hafter hblock]
      · rfl
  | declaration property value important =>
      rw [hkind] at htype
      simp only [Layout.declaration, Layout.raws, hn, hm, hbetween (by rw [htype]; rintro ⟨⟩)]
  | comment text =>
      rw [hkind] at htype
      obtain ⟨hleft, hright⟩ := hedges htype
      simp only [Layout.comment, hleft, hright]

/-- Two printers print a determined node alike around the same body. -/
theorem node_agrees (p q : Printer) (hn : l.document.node id = n) (hm : m.document.node id = n)
    (h : n.IsDetermined below) (semicolon : Bool) (body : Printed) :
    p.node l id semicolon body = q.node m id semicolon body := by
  refine p.node_congr q hn hm h.shaped (fun hne ↦ ?_) (fun hblock ↦ ?_) (fun htype ↦ ?_) semicolon
    body fun name head value hkind ↦ absurd (by rw [Node.type, hkind]; rfl) h.plain.2
  · rw [Layout.between_eq hn (h.between hne), Layout.between_eq hm (h.between hne)]
  · rw [Layout.after_eq hn (h.after hblock), Layout.after_eq hm (h.after hblock)]
  · obtain ⟨hleft, hright⟩ := h.edges htype
    obtain ⟨left, hleft⟩ := Option.isSome_iff_exists.mp hleft
    obtain ⟨right, hright⟩ := Option.isSome_iff_exists.mp hright
    simp only [Layout.commentLeft, Layout.commentRight, Layout.edge, Layout.raws, hn, hm,
      hleft, hright, Option.getD_some, and_self]

/-- A node that takes no semicolon is printed the same whether one is asked for or not. -/
theorem node_of_takesSemicolon_eq_false (p : Printer) (hn : l.document.node id = n)
    (hplain : n.type ≠ .other) (htakes : n.takesSemicolon = false) (first second : Bool)
    (body : Printed) : p.node l id first body = p.node l id second body := by
  unfold node
  rw [hn]
  unfold Node.takesSemicolon Node.type at htakes
  cases hkind : n.kind with
  | other => exact absurd (by rw [Node.type, hkind]; rfl) hplain
  | declaration =>
      rw [hkind] at htakes
      cases htakes
  | atRule =>
      have hblock : n.hasBlock = true := by simpa [hkind, Kind.type] using htakes
      simp only [Layout.atRule, hn, hblock, if_true]
  | root | rule | comment => rfl

/-- Only the nodes of dialects can make printing fail. -/
theorem failure_node (p : Printer) (hn : l.document.node id = n) (hplain : n.type ≠ .other)
    (hbody : body.failure = none) (semicolon : Bool) :
    (p.node l id semicolon body).failure = none := by
  have hblock (head : Text) : (l.block id head body).failure = none :=
    Printed.failure_append (Printed.failure_append (Printed.failure_append rfl hbody)
      (Printed.failure_gap _)) rfl
  unfold node
  rw [hn]
  cases hkind : n.kind with
  | other => exact absurd (by rw [Node.type, hkind]; rfl) hplain
  | root =>
      exact Printed.failure_append (Printed.failure_append (Printed.failure_append rfl hbody)
        (Printed.failure_gap _)) rfl
  | rule =>
      unfold Layout.rule
      dsimp only
      split
      · exact Printed.failure_append (hblock _) rfl
      · exact hblock _
  | atRule =>
      unfold Layout.atRule
      dsimp only
      split
      · exact hblock _
      · rfl
  | declaration | comment => rfl

/-- Two printers print determined nodes alike. Whether the last one ends with a semicolon matters
only if it can have one. -/
theorem forest_agrees (p q : Printer) (hdocument : m.document = l.document) (f : Forest NodeId)
    (h : (f.map l.document.node).Each Node.IsDetermined) {first second : Bool}
    (hflag : (f.map l.document.node).awaits = true → first = second) :
    p.forest l first f = q.forest m second f := by
  induction f generalizing first second with
  | nil => rfl
  | cons id below rest ihBelow ihRest =>
      obtain ⟨hnode, hbelow, hrest⟩ := h
      have hm : m.document.node id = l.document.node id := by rw [hdocument]
      have hends := endsBefore_eq l.document rest
      have hbody : p.forest l (l.semicolon id) below = q.forest m (m.semicolon id) below :=
        ihBelow hbelow fun hawaits ↦ by
          have hsome := hnode.semicolon hawaits
          rw [Layout.semicolon_eq rfl hsome, Layout.semicolon_eq hm hsome]
      have hsemicolon (body : Printed) :
          p.node l id (endsBefore l.document rest || first) body =
            p.node l id (endsBefore l.document rest || second) body := by
        cases hbefore : endsBefore l.document rest with
        | true => rfl
        | false =>
            cases htakes : (l.document.node id).takesSemicolon with
            | false => exact p.node_of_takesSemicolon_eq_false rfl hnode.plain.2 htakes _ _ body
            | true =>
                rw [hends] at hbefore
                rw [hflag (by simp [Forest.map, Forest.awaits, hbefore, htakes])]
      rw [forest, forest, Layout.before_eq rfl hnode.before,
        Layout.before_eq hm hnode.before, hbody, hdocument, hsemicolon,
        p.node_agrees q rfl hm hnode, ihRest hrest
        fun hawaits ↦ hflag (by simp [Forest.map, Forest.awaits, hawaits])]

theorem failure_forest (p : Printer) (f : Forest NodeId)
    (h : (f.map l.document.node).Each Node.IsDetermined) (semicolon : Bool) :
    (p.forest l semicolon f).failure = none := by
  induction f generalizing semicolon with
  | nil => rfl
  | cons id below rest ihBelow ihRest =>
      obtain ⟨hnode, hbelow, hrest⟩ := h
      exact Printed.failure_append (Printed.failure_append (Printed.failure_gap _)
        (p.failure_node rfl hnode.plain.2 (ihBelow hbelow _) _)) (ihRest hrest semicolon)

end Printer

/-- `doc.Determines f` says that the trees `f` are below the root of a document, and that all of
their nodes are determined. -/
structure Document.Determines (doc : Document) (f : Forest NodeId) : Prop where
  unfolds : doc.Unfolds (doc.children root) f
  size : f.size ≤ doc.size
  kind : (doc.node root).kind = .root
  nodes : (f.map doc.node).Each Node.IsDetermined
  semicolon : (f.map doc.node).awaits = true → (doc.node root).raws.semicolon.isSome = true

/-- Two printers print a document alike if its nodes are determined. -/
theorem Printer.print_agrees {doc : Document} {f : Forest NodeId} (h : doc.Determines f)
    (p q : Printer) : (p.print doc).failure = none ∧ p.print doc = q.print doc := by
  have hflag (hawaits : (f.map doc.node).awaits = true) (r : Printer) :
      (r.layout doc Document.root).semicolon Document.root =
        (doc.node Document.root).raws.semicolon.getD false :=
    Layout.semicolon_eq (l := r.layout doc Document.root) rfl (h.semicolon hawaits)
  have hbody : p.forest (p.layout doc Document.root)
        ((p.layout doc Document.root).semicolon Document.root) f =
      q.forest (q.layout doc Document.root)
        ((q.layout doc Document.root).semicolon Document.root) f :=
    p.forest_agrees (l := p.layout doc Document.root) (m := q.layout doc Document.root) q rfl f
      h.nodes fun hawaits ↦ (hflag hawaits p).trans (hflag hawaits q).symm
  have hplain : (doc.node Document.root).type ≠ .other := by
    rw [Node.type, h.kind]
    decide
  unfold print printNode
  rw [Document.below_eq_of_unfolds h.unfolds h.size]
  refine ⟨p.failure_node (l := p.layout doc Document.root) rfl hplain
    (p.failure_forest f h.nodes _) _, ?_⟩
  dsimp only
  rw [hbody]
  simp only [node, layout, h.kind, Layout.root, Layout.raws]

/-! ## Open containers -/

/-- The node of an open container other than the root has recorded what stands before its
block. -/
structure Node.IsOpened (n : Node) : Prop where
  block : n.hasBlock = true
  container : n.type = .rule ∨ n.type = .atRule
  before : n.raws.before.isSome = true
  between : n.raws.between.isSome = true

theorem Node.IsInner.isOpened {n : Node} (h : n.IsInner) : n.IsOpened :=
  ⟨h.block, h.container, h.before, h.between⟩

theorem Node.IsOpened.takesSemicolon {n : Node} (h : n.IsOpened) : n.takesSemicolon = false := by
  rcases h.container with htype | htype <;> simp [Node.takesSemicolon, htype, h.block]

theorem Node.IsOpened.isShaped {n : Node} (h : n.IsOpened) : n.IsShaped := by
  refine ⟨fun _ ↦ h.block, fun _ ↦ ?_⟩
  have htype : n.kind.type = .rule ∨ n.kind.type = .atRule := h.container
  rcases htype with htype | htype <;> simp [Kind.canContain_eq, htype]

theorem Node.IsOpened.ne_comment {n : Node} (h : n.IsOpened) : n.type ≠ .comment := by
  rcases h.container with htype | htype <;> simp [htype]

theorem Node.IsOpened.plain {n : Node} (h : n.IsOpened) : n.type ≠ .root ∧ n.type ≠ .other := by
  rcases h.container with htype | htype <;> simp [htype]

namespace Frame

/-- The finished trees in a container are determined. -/
def IsDetermined (f : Frame) : Prop :=
  (Forest.ofRev f.earlier).Each Node.IsDetermined

/-- `f.IsOpenIn enclosing` says that `f` is open within the containers `enclosing`, the last of
which is the root, and that all finished trees are determined. -/
def IsOpenIn (f : Frame) : List Frame → Prop
  | [] => f.node.kind = .root ∧ f.IsDetermined
  | outer :: enclosing => f.node.IsOpened ∧ f.IsDetermined ∧ outer.IsOpenIn enclosing

/-- A container has recorded what stands at its end. -/
structure IsDone (f : Frame) : Prop where
  after : f.node.raws.after.isSome = true
  semicolon : (Forest.ofRev f.earlier).awaits = true → f.node.raws.semicolon.isSome = true

variable {f outer : Frame} {enclosing : List Frame}

theorem IsOpenIn.isDetermined (h : f.IsOpenIn enclosing) : f.IsDetermined := by
  cases enclosing with
  | nil => exact h.2
  | cons => exact h.2.1

theorem IsOpenIn.withEarlier (h : f.IsOpenIn enclosing) (earlier : List (Node × Forest Node))
    (hearlier : { f with earlier }.IsDetermined) : { f with earlier }.IsOpenIn enclosing := by
  cases enclosing with
  | nil => exact ⟨h.1, hearlier⟩
  | cons => exact ⟨h.1, hearlier, h.2.2⟩

theorem IsOpenIn.adopt (h : f.IsOpenIn enclosing) {tree : Node × Forest Node}
    (htree : tree.1.IsDetermined tree.2) (hbelow : tree.2.Each Node.IsDetermined) :
    (f.adopt tree).IsOpenIn enclosing :=
  h.withEarlier _ (Forest.each_ofRev_cons.mpr ⟨h.isDetermined, htree, hbelow⟩)

theorem IsOpenIn.addAfter (h : f.IsOpenIn enclosing) (text : Text) :
    (f.addAfter text).IsOpenIn enclosing := by
  cases enclosing with
  | nil => exact h
  | cons =>
      obtain ⟨hnode, hearlier, houter⟩ := h
      exact ⟨⟨hnode.block, hnode.container, hnode.before, hnode.between⟩, hearlier, houter⟩

/-- The end of a container is recorded with the text that waits and, if it has children, whether
the last of them ends with a semicolon. -/
theorem IsOpenIn.settle (h : f.IsOpenIn enclosing) (semicolon : Bool) (spaces : Text) :
    (f.settle semicolon spaces).IsOpenIn enclosing ∧ (f.settle semicolon spaces).IsDone := by
  unfold Frame.settle
  split
  · next hempty =>
      have hnil : f.earlier = [] := List.isEmpty_iff.mp hempty
      refine ⟨h.addAfter spaces, ⟨rfl, fun hawaits ↦ ?_⟩⟩
      have hnone : (Forest.ofRev f.earlier).awaits = false := by rw [hnil]; rfl
      exact absurd (hnone.symm.trans hawaits) Bool.false_ne_true
  · refine ⟨IsOpenIn.addAfter ?_ spaces, ⟨rfl, fun _ ↦ rfl⟩⟩
    cases enclosing with
    | nil => exact h
    | cons =>
        obtain ⟨hnode, hearlier, houter⟩ := h
        exact ⟨⟨hnode.block, hnode.container, hnode.before, hnode.between⟩, hearlier, houter⟩

/-- No semicolon is printed behind a container that is closed as the last tree of the one around
it. -/
theorem awaits_adopt (f : Frame) {n : Node} (hn : n.IsOpened) (below : Forest Node) :
    (Forest.ofRev (f.adopt (n, below)).earlier).awaits = false := by
  rw [adopt, Forest.ofRev_cons]
  induction Forest.ofRev f.earlier with
  | nil => simp [Forest.awaits, hn.takesSemicolon]
  | cons m under rest _ ih =>
      have hends : (rest ++ Forest.cons n below .nil).endsBefore = true := by
        rw [Forest.endsBefore_append]
        simp [Forest.endsBefore, Forest.tops, hn.ne_comment]
      simp [Forest.awaits, ih, hends]

/-- A container that is done becomes a determined node of the container around it. -/
theorem IsOpenIn.close (h : f.IsOpenIn (outer :: enclosing)) (hdone : f.IsDone) (a : Assembly)
    (stop : Nat) :
    (outer.adopt (f.mapNode (a.stopNode stop)).tree).IsOpenIn enclosing ∧
      (Forest.ofRev (outer.adopt (f.mapNode (a.stopNode stop)).tree).earlier).awaits = false := by
  obtain ⟨hnode, hearlier, houter⟩ := h
  have hstopped : (a.stopNode stop f.node).IsOpened :=
    ⟨hnode.block, hnode.container, hnode.before, hnode.between⟩
  refine ⟨houter.adopt ?_ hearlier, outer.awaits_adopt hstopped _⟩
  exact ⟨hstopped.plain, hstopped.isShaped, hnode.before, fun _ ↦ hnode.between,
    fun htype ↦ absurd htype hstopped.ne_comment, fun _ ↦ hdone.after, hdone.semicolon⟩

end Frame

/-! ## Assembly -/

namespace Assembly

/-- `a.IsOpen` says that the finished trees of all open containers are determined. -/
def IsOpen (a : Assembly) : Prop := a.current.IsOpenIn a.enclosing

variable {a b : Assembly}

theorem IsOpen.addLeaf (h : a.IsOpen) {n : Node} (hn : n.IsRecorded .nil) (semicolon : Bool) :
    (a.addLeaf n semicolon).IsOpen :=
  Frame.IsOpenIn.adopt h hn.isDetermined trivial

theorem IsOpen.openFrame (h : a.IsOpen) {n : Node} (hn : n.IsInner) : (a.openFrame n).IsOpen :=
  ⟨hn.isOpened, trivial, h⟩

/-- Repairs do not matter. -/
theorem IsOpen.of_quiet (h : a.IsOpen) (hquiet : b.quiet = a.quiet) : b.IsOpen := by
  have hopen : a.quiet.IsOpen := h
  rw [← hquiet] at hopen
  exact hopen

theorem IsOpen.freeSemicolon (h : a.IsOpen) (t : Token) : (a.freeSemicolon t).IsOpen := by
  obtain hwait | ⟨tree, earlier, hearlier, -, -, htaken⟩ := a.freeSemicolon_cases t
  · rw [hwait]
    exact h
  · have htrees := Frame.IsOpenIn.isDetermined h
    rw [Frame.IsDetermined, hearlier, Forest.each_ofRev_cons] at htrees
    obtain ⟨hbefore, hn, hbelow⟩ := htrees
    rw [htaken]
    refine Frame.IsOpenIn.withEarlier h _ (Forest.each_ofRev_cons.mpr ⟨hbefore, ?_, hbelow⟩)
    exact ⟨hn.plain, hn.shaped.of_eq rfl rfl, hn.before, hn.between, hn.edges, hn.after,
      hn.semicolon⟩

theorem IsOpen.closeBlock (h : a.IsOpen) {t : Token} (hb : a.closeBlock t = .ok b) :
    b.IsOpen := by
  obtain ⟨hsettled, hdone⟩ := Frame.IsOpenIn.settle h a.semicolon a.spaces
  unfold Assembly.closeBlock at hb
  cases henclosing : a.enclosing with
  | cons outer enclosing =>
      simp only [henclosing] at hb
      rw [henclosing] at hsettled
      cases hb
      exact (hsettled.close hdone _ t.span.stop).1
  | nil =>
      -- A closing brace that closes nothing goes into the text before the end of the root.
      simp only [henclosing] at hb
      rw [henclosing] at hsettled
      obtain ⟨c, hc, hb⟩ := bind_eq_ok.mp hb
      obtain ⟨recovery, rfl⟩ := report_eq_ok hc
      cases hb
      show Frame.IsOpenIn _ _
      exact hsettled.addAfter t.text

theorem IsOpen.stray (h : a.IsOpen) {tokens : List Token} (hb : a.stray tokens = .ok b) :
    b.IsOpen :=
  IsOpen.of_quiet (a := a.wait (Token.spelling tokens)) h (quiet_stray hb)

theorem IsOpen.declare (h : a.IsOpen) {cuts : Nat} {tokens : List Token} {custom : Bool}
    {terminator : Nat} (hb : Assembly.declare cuts a tokens custom terminator = .ok b) :
    b.IsOpen := by
  induction cuts generalizing a b tokens custom with
  | zero =>
      cases hb
      exact h
  | succ cuts ih =>
      cases declares_of_declare hb with
      | stray _ hb => exact h.stray hb
      | single _ hb =>
          exact (h.addLeaf (a.isRecorded_declarationNode _ _ _ _) _).of_quiet hb
      | @cut parts missed c d _ _ hc hd hb =>
          have hnode : (a.cutNode custom tokens parts missed).IsRecorded .nil := by
            have hwhole := a.isRecorded_declarationNode custom tokens parts
              (takeImportant missed.kept)
            unfold cutNode
            dsimp only
            split
            · exact hwhole
            · exact isRecorded_stopNode a _ hwhole
          have hfirst : (a.addCut custom tokens parts missed).IsOpen :=
            h.addLeaf hnode (Statement.isEnded tokens)
          have hrest : d.IsOpen := ih (hfirst.of_quiet hc) hd
          exact IsOpen.of_quiet (a := { d with semicolon := Statement.isEnded tokens }) hrest hb

theorem IsOpen.atRule (h : a.IsOpen) {word : Token} {params : List Token} {ending : AtRuleEnd}
    (hb : a.atRule word params ending = .ok b) : b.IsOpen := by
  obtain ⟨c, hquiet, -, hb⟩ := quiet_atRule hb
  have h := h.of_quiet hquiet
  have hleaf (stop : Nat) (between : Text) :
      (c.stopNode stop (c.atRuleNode word params between)).IsRecorded .nil :=
    isRecorded_stopNode c stop (c.isRecorded_atRuleNode word params between)
  cases ending with
  | semicolon t =>
      cases hb
      exact h.addLeaf (hleaf _ _) true
  | block t =>
      cases hb
      exact h.openFrame (c.isInner_atRuleWhole word params)
  | close t => exact (h.addLeaf (hleaf _ _) false).closeBlock hb
  | input =>
      unfold atRuleBody at hb
      dsimp only at hb
      split at hb
      · cases hb
        exact h.addLeaf (hleaf _ _) false
      · cases hb
        exact h.addLeaf (hleaf _ _) false
  | failure e => cases hb

/-- Every statement leaves finished trees that are determined. -/
theorem IsOpen.add (h : a.IsOpen) {statement : Statement} (hb : a.add statement = .ok b) :
    b.IsOpen := by
  cases statement with
  | space t =>
      cases hb
      exact h
  | semicolon t =>
      cases hb
      exact h.freeSemicolon t
  | close t => exact h.closeBlock hb
  | comment t =>
      cases hb
      exact h.addLeaf (a.isRecorded_commentNode t) _
  | atRule word params ending => exact h.atRule hb
  | rule head brace =>
      cases hb
      exact h.openFrame (a.isInner_ruleNode head brace)
  | declaration tokens custom terminator opened =>
      obtain ⟨c, hc, hb⟩ := bind_eq_ok.mp hb
      exact (h.of_quiet (quiet_reportOpened hc)).declare hb
  | stray tokens opened =>
      obtain ⟨c, hc, hb⟩ := bind_eq_ok.mp hb
      exact (h.of_quiet (quiet_reportOpened hc)).stray hb
  | failure e => cases hb

theorem IsOpen.foldlM_add (h : a.IsOpen) {statements : List Statement}
    (hb : statements.foldlM Assembly.add a = .ok b) : b.IsOpen := by
  induction statements generalizing a with
  | nil =>
      cases hb
      exact h
  | cons statement statements ih =>
      rw [List.foldlM_cons] at hb
      obtain ⟨c, hc, hb⟩ := bind_eq_ok.mp hb
      exact ih (h.add hc) hb

/-- Closing what is still open ends with a root that is done. -/
theorem isDone_closeOpen {enclosing : List Frame} (h : a.current.IsOpenIn enclosing)
    (hdone : a.current.IsDone) (hb : a.closeOpen enclosing = .ok b) :
    b.current.IsOpenIn [] ∧ b.current.IsDone := by
  induction enclosing generalizing a with
  | nil =>
      cases hb
      exact ⟨h, hdone⟩
  | cons outer enclosing ih =>
      obtain ⟨hclosed, hawaits⟩ := h.close hdone a a.source.size
      let closed := outer.adopt (a.current.mapNode (a.stopNode a.source.size)).tree
      have hdone : (closed.addAfter []).IsDone :=
        ⟨rfl, fun h ↦ absurd (hawaits.symm.trans h) Bool.false_ne_true⟩
      cases enclosing with
      | nil => exact ih (hclosed.addAfter []) hdone hb
      | cons next enclosing =>
          obtain ⟨c, hc, hb⟩ := bind_eq_ok.mp hb
          obtain ⟨recovery, rfl⟩ := report_eq_ok hc
          exact ih (hclosed.addAfter []) hdone hb

theorem isOpen_start (source : Source) (mode : Mode) :
    (start source mode).IsOpen := ⟨rfl, trivial⟩

/-- Assembly ends with a root that is done, and all trees in it are determined. -/
theorem isDone_of_assemble {source : Source} {mode : Mode} (h : assemble source mode = .ok a) :
    a.current.node.kind = .root ∧ a.current.IsDetermined ∧ a.current.IsDone := by
  unfold assemble at h
  obtain ⟨b, hb, hfinish⟩ := bind_eq_ok.mp h
  obtain ⟨c, d, hquiet, hd, ha, -⟩ := finish_quiet hfinish
  have hc : c.IsOpen := ((isOpen_start source mode).foldlM_add hb).of_quiet hquiet
  obtain ⟨hsettled, hdone⟩ := Frame.IsOpenIn.settle hc c.semicolon c.spaces
  obtain ⟨⟨hkind, hearlier⟩, hdone⟩ := isDone_closeOpen hsettled hdone hd
  have hcurrent : a.current = d.current.mapNode (Node.stopAt (d.source.position d.source.size)) :=
    congrArg (·.current) ha
  rw [hcurrent]
  exact ⟨hkind, hearlier, ⟨hdone.after, hdone.semicolon⟩⟩

end Assembly

/-! ## Documents -/

/-- `n.stripped` is the node without its links and its damage, neither of which is printed. -/
def Node.stripped (n : Node) : Node := n.unlinked.undamaged

@[simp] theorem Node.hasBlock_stripped (n : Node) : n.stripped.hasBlock = n.hasBlock :=
  n.hasBlock_unlinked

namespace Forest

theorem awaits_map_stripped (f : Forest Node) : (f.map Node.stripped).awaits = f.awaits := by
  induction f with
  | nil => rfl
  | cons n below rest _ ih =>
      have hends : (rest.map Node.stripped).endsBefore = rest.endsBefore := by
        rw [endsBefore, tops_map, List.any_map]
        rfl
      have htakes : n.stripped.takesSemicolon = n.takesSemicolon := by
        simp only [Node.takesSemicolon, Node.hasBlock_stripped]
        rfl
      rw [map, awaits, awaits, ih, hends, htakes]

theorem each_isDetermined_map_stripped {f : Forest Node} :
    (f.map Node.stripped).Each Node.IsDetermined ↔ f.Each Node.IsDetermined := by
  have hnode {n : Node} {below : Forest Node} :
      n.stripped.IsDetermined (below.map Node.stripped) ↔ n.IsDetermined below := by
    constructor
    · exact fun h ↦ ⟨h.plain, h.shaped.of_eq rfl n.hasBlock_stripped.symm, h.before, h.between,
        h.edges, fun hblock ↦ h.after (n.hasBlock_stripped.trans hblock),
        fun hawaits ↦ h.semicolon ((awaits_map_stripped below).trans hawaits)⟩
    · exact fun h ↦ ⟨h.plain, h.shaped.of_eq rfl n.hasBlock_stripped, h.before, h.between,
        h.edges, fun hblock ↦ h.after (n.hasBlock_stripped.symm.trans hblock),
        fun hawaits ↦ h.semicolon ((awaits_map_stripped below).symm.trans hawaits)⟩
  rw [each_map]
  exact ⟨Each.imp fun _ _ ↦ hnode.mp, Each.imp fun _ _ ↦ hnode.mpr⟩

end Forest

/-- Assembly makes documents that are determined. -/
theorem Assembly.determines_document {source : Source} {mode : Mode} {a : Assembly}
    (h : assemble source mode = .ok a) :
    a.document.Determines ((Forest.ofRev a.current.earlier).numbers 1) := by
  obtain ⟨hkind, hearlier, hdone⟩ := isDone_of_assemble h
  obtain ⟨hunfolds, hsize, hroot, hnodes⟩ := (isMade_of_assemble h).unfolds_document
  rw [Forest.map_map, Forest.map_map (f := Forest.ofRev a.current.earlier)] at hnodes
  change Forest.map Node.stripped _ = Forest.map Node.stripped _ at hnodes
  have hkind' := congrArg Node.kind hroot
  have hflag := congrArg (·.raws.semicolon) hroot
  refine ⟨hunfolds, ?_, hkind'.trans hkind, ?_, fun hawaits ↦ ?_⟩
  · rw [Forest.size_numbers, hsize]
    exact Nat.le_succ _
  · rw [← Forest.each_isDetermined_map_stripped, hnodes, Forest.each_isDetermined_map_stripped]
    exact hearlier
  · rw [← Forest.awaits_map_stripped, hnodes, Forest.awaits_map_stripped] at hawaits
    have hsome := hdone.semicolon hawaits
    exact (congrArg Option.isSome hflag).trans hsome

/-- What was read leaves nothing to infer: in either mode, printing the document does not fail,
and any two printers write the same fragments. -/
theorem print_agrees_of_parse {source : Source} {mode : Mode} {doc : Document}
    (h : parse source mode = .ok doc) (p q : Printer) :
    (p.print doc).failure = none ∧ p.print doc = q.print doc := by
  obtain ⟨a, hassemble, rfl⟩ := parse_eq_ok.mp h
  exact Printer.print_agrees (Assembly.determines_document hassemble) p q

/-- Two blocks that are open at the end of the text are closed alike, whether a printer ends the
last declaration of a block with a semicolon or not. -/
theorem print_agrees_of_parse_open :
    ∃ doc, parse ⟨"@a \x7b b \x7b c: d".toList, none⟩ .tolerant = .ok doc ∧
      ({ defaults := { semicolon := true, indent := ['\t'] }, strict := true } : Printer).print
      doc =
        ({} : Printer).print doc :=
  have h : ∃ doc, parse ⟨"@a \x7b b \x7b c: d".toList, none⟩ .tolerant = .ok doc := ⟨_, rfl⟩
  h.imp fun _ hdoc ↦ ⟨hdoc, (print_agrees_of_parse hdoc _ _).2⟩

end Stylesheet
