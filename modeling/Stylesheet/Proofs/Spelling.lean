import Stylesheet.Print.Printer
import Stylesheet.Statement.Value
import Stylesheet.Proofs.Forest

/-!
# The spelling of recorded nodes

A node that has recorded its layout is printed from what it recorded, whatever the printer is.
`Node.spell` and `Forest.spell` compute that text from the nodes alone, and `prints_forest` says
that a printer prints it: no layout is inferred, no renderer is asked, and nothing fails.
-/

namespace Stylesheet

namespace Printed

/-- `p.Prints text` says that printing does not fail and that its text is `text`. -/
structure Prints (p : Printed) (text : Text) : Prop where
  failure : p.failure = none
  text_eq : p.text = text

theorem prints_empty : empty.Prints [] := ⟨rfl, rfl⟩

theorem prints_one (fragment : Fragment) : (one fragment).Prints fragment.text :=
  ⟨rfl, by simp [one, text]⟩

theorem prints_gap (text : Text) : (gap text).Prints text := by
  cases text with
  | nil => exact prints_empty
  | cons c text => exact prints_one _

theorem Prints.append {p q : Printed} {first second : Text} (hp : p.Prints first)
    (hq : q.Prints second) : (p ++ q).Prints (first ++ second) := by
  rw [append_of_failure_none q hp.failure]
  refine ⟨hq.failure, ?_⟩
  rw [← hp.text_eq, ← hq.text_eq]
  simp [text]

end Printed

namespace Node

/-- `n.mark` is the important mark of a declaration that has one. -/
def mark (n : Node) (important : Bool) : Text :=
  if important then n.raws.important.getD usualMark else []

/-- `n.head` is the recorded text of a node up to its block or to its semicolon. -/
def head (n : Node) : Text :=
  let between := n.raws.between.getD []
  match n.kind with
  | .root | .other .. => []
  | .rule selector => RawValue.written n.raws.selector selector ++ between
  | .atRule name params =>
      '@' :: name ++ n.raws.afterName.getD [] ++ RawValue.written n.raws.params params ++ between
  | .declaration property value important =>
      property ++ between ++ RawValue.written n.raws.value value ++ n.mark important
  | .comment text =>
      "/*".toList ++ n.raws.left.getD [] ++ text ++ n.raws.right.getD [] ++ "*/".toList

/-- `n.before` is the recorded text before a node. -/
def before (n : Node) : Text := n.raws.before.getD []

/-- `n.closing` is the recorded text from the last child of a node with a block to its end. -/
def closing (n : Node) : Text :=
  n.raws.after.getD [] ++ '\x7d' :: if n.type = .rule then n.raws.ownSemicolon.getD [] else []

/-- `n.ending semicolon body` is the text of a node behind its head: its block around `body`, or a
semicolon if it can have one. -/
def ending (n : Node) (semicolon : Bool) (body : Text) : Text :=
  if n.hasBlock then '\x7b' :: body ++ n.closing
  else if n.type = .comment then []
  else Layout.semicolonText semicolon

/-- `n.spell semicolon body` is the recorded text of a node around its body. -/
def spell (n : Node) (semicolon : Bool) (body : Text) : Text :=
  n.before ++ n.head ++ n.ending semicolon body

/-- A node with the nodes below it has recorded all that is needed to print it. -/
structure IsRecorded (n : Node) (below : Forest Node) : Prop where
  before : n.raws.before.isSome = true
  between : n.type ≠ .comment → n.raws.between.isSome = true
  edges : n.type = .comment → n.raws.left.isSome = true ∧ n.raws.right.isSome = true
  afterName : n.type = .atRule → n.raws.afterName.isSome = true
  after : n.hasBlock = true → n.raws.after.isSome = true
  semicolon : below ≠ .nil → n.raws.semicolon.isSome = true
  block : below ≠ .nil → n.hasBlock = true
  plain : n.type ≠ .root ∧ n.type ≠ .other
  rule : n.type = .rule → n.hasBlock = true
  leaf : n.type = .declaration ∨ n.type = .comment → n.hasBlock = false

end Node

theorem Node.isRecorded_unlinked {n : Node} {below : Forest Node} :
    n.unlinked.IsRecorded (below.map Node.unlinked) ↔ n.IsRecorded below := by
  constructor
  · intro h
    exact ⟨h.before, h.between, h.edges, h.afterName, by simpa using h.after,
      fun hne ↦ h.semicolon (mt Forest.map_eq_nil_iff.mp hne),
      fun hne ↦ by simpa using h.block (mt Forest.map_eq_nil_iff.mp hne), h.plain,
      by simpa using h.rule, by simpa using h.leaf⟩
  · intro h
    exact ⟨h.before, h.between, h.edges, h.afterName, by simpa using h.after,
      fun hne ↦ h.semicolon (mt Forest.map_eq_nil_iff.mpr hne),
      fun hne ↦ by simpa using h.block (mt Forest.map_eq_nil_iff.mpr hne), h.plain,
      by simpa using h.rule, by simpa using h.leaf⟩

namespace Forest

/-- `f.endsBefore` says that there is a tree in the forest that is no comment, so that what goes
before it ends with a semicolon. -/
def endsBefore (f : Forest Node) : Bool :=
  f.tops.any fun n ↦ n.type != .comment

/-- `f.spell semicolon` is the recorded text of a forest. `semicolon` says that the last tree that
is no comment ends with a semicolon. -/
def spell (semicolon : Bool) : Forest Node → Text
  | nil => []
  | cons n below rest =>
      n.spell (rest.endsBefore || semicolon) (spell (n.raws.semicolon.getD false) below) ++
        spell semicolon rest

theorem endsBefore_append (f g : Forest Node) :
    (f ++ g).endsBefore = (f.endsBefore || g.endsBefore) := by
  rw [endsBefore, tops_append, List.any_append]
  rfl

theorem spell_append (semicolon : Bool) (f g : Forest Node) :
    (f ++ g).spell semicolon = f.spell (g.endsBefore || semicolon) ++ g.spell semicolon := by
  induction f with
  | nil => rfl
  | cons n below rest _ ih =>
      rw [cons_append, spell, spell, ih, endsBefore_append, Bool.or_assoc, List.append_assoc]

/-! ## Links -/

theorem endsBefore_map_unlinked (f : Forest Node) :
    (f.map Node.unlinked).endsBefore = f.endsBefore := by
  rw [endsBefore, tops_map, List.any_map]
  rfl

/-- The links between nodes are not part of how they are spelled. -/
theorem spell_map_unlinked (semicolon : Bool) (f : Forest Node) :
    (f.map Node.unlinked).spell semicolon = f.spell semicolon := by
  induction f generalizing semicolon with
  | nil => rfl
  | cons n below rest ihBelow ihRest =>
      have hspell (flag : Bool) (body : Text) : n.unlinked.spell flag body =
          n.spell flag body := by
        simp only [Node.spell, Node.ending, Node.hasBlock_unlinked]
        rfl
      rw [map, spell, spell, endsBefore_map_unlinked, ihRest, hspell, Node.raws_unlinked, ihBelow]

/-- Nodes that differ in their links only have recorded the same. -/
theorem each_isRecorded_map_unlinked {f : Forest Node} :
    (f.map Node.unlinked).Each Node.IsRecorded ↔ f.Each Node.IsRecorded := by
  rw [each_map]
  exact ⟨Each.imp fun _ _ ↦ Node.isRecorded_unlinked.mp,
    Each.imp fun _ _ ↦ Node.isRecorded_unlinked.mpr⟩

end Forest

/-! ## Printing -/

namespace Layout

variable {l : Layout} {id : NodeId} {n : Node}

theorem before_eq (hn : l.document.node id = n) (h : n.raws.before.isSome = true) :
    l.before id = n.before := by
  obtain ⟨text, htext⟩ := Option.isSome_iff_exists.mp h
  simp [before, raws, hn, Node.before, htext]

theorem between_eq (hn : l.document.node id = n) (h : n.raws.between.isSome = true) :
    l.between id = n.raws.between.getD [] := by
  obtain ⟨text, htext⟩ := Option.isSome_iff_exists.mp h
  simp [between, raws, hn, htext]

theorem after_eq (hn : l.document.node id = n) (h : n.raws.after.isSome = true) :
    l.after id = n.raws.after.getD [] := by
  obtain ⟨text, htext⟩ := Option.isSome_iff_exists.mp h
  simp [after, raws, hn, htext]

theorem semicolon_eq (hn : l.document.node id = n) (h : n.raws.semicolon.isSome = true) :
    l.semicolon id = n.raws.semicolon.getD false := by
  obtain ⟨flag, hflag⟩ := Option.isSome_iff_exists.mp h
  simp [semicolon, raws, hn, hflag]

/-- A node with a block is printed as its head, its body and its recorded end. -/
theorem block_eq (head : Text) (body : Printed) (hn : l.document.node id = n)
    (hbetween : n.raws.between.isSome = true) (hafter : n.raws.after.isSome = true) :
    l.block id head body =
      .one ⟨head ++ n.raws.between.getD [] ++ ['\x7b'], some id, some .start⟩ ++ body ++
        .gap (n.raws.after.getD []) ++ .one ⟨['\x7d'], some id, some .stop⟩ := by
  rw [block, between_eq hn hbetween, after_eq hn hafter]

end Layout

namespace Printer

variable (p : Printer) {l : Layout}

/-- A recorded node without a block is printed as one fragment. -/
theorem node_of_leaf {id : NodeId} {n : Node} {below : Forest Node} (semicolon : Bool)
    (body : Printed) (hn : l.document.node id = n) (hrecorded : n.IsRecorded below)
    (hleaf : n.hasBlock = false) :
    p.node l id semicolon body =
      .one { text := n.head ++ n.ending semicolon [], node := some id } := by
  have htype : n.type = n.kind.type := rfl
  have hbetween : n.type ≠ .comment → l.between id = n.raws.between.getD [] :=
    fun h ↦ Layout.between_eq hn (hrecorded.between h)
  unfold node
  rw [hn]
  cases hkind : n.kind with
  | root => exact absurd (by rw [htype, hkind]; rfl) hrecorded.plain.1
  | other => exact absurd (by rw [htype, hkind]; rfl) hrecorded.plain.2
  | rule =>
      rw [hkind] at htype
      exact absurd (hrecorded.rule htype) (by simp [hleaf])
  | atRule name params =>
      rw [hkind] at htype
      obtain ⟨afterName, hafterName⟩ := Option.isSome_iff_exists.mp (hrecorded.afterName htype)
      simp [Layout.atRule, Layout.atRuleHead, Layout.leaf, Layout.raws, hn, Node.head, hkind,
        Node.ending, hleaf, htype, Kind.type, hafterName, hbetween (by rw [htype]; exact nofun)]
  | declaration property value important =>
      rw [hkind] at htype
      simp only [Layout.declaration, Layout.leaf, Layout.raws, hn, Node.head, hkind, Node.ending,
        hleaf, htype, Kind.type, hbetween (by rw [htype]; exact nofun)]
      rfl
  | comment comment =>
      rw [hkind] at htype
      obtain ⟨hleft, hright⟩ := hrecorded.edges htype
      obtain ⟨left, hleft⟩ := Option.isSome_iff_exists.mp hleft
      obtain ⟨right, hright⟩ := Option.isSome_iff_exists.mp hright
      simp [Layout.comment, Layout.commentLeft, Layout.commentRight, Layout.edge, Layout.leaf,
        Layout.raws, hn, hleft, hright, Node.head, hkind, Node.ending, hleaf, htype, Kind.type,
        Layout.semicolonText]

/-- A recorded node with a block is printed as its head, its body and its end. What a rule owns
behind its block belongs to no node. -/
theorem node_of_block {id : NodeId} {n : Node} {below : Forest Node} (semicolon : Bool)
    (body : Printed) (hn : l.document.node id = n) (hrecorded : n.IsRecorded below)
    (hblock : n.hasBlock = true) :
    ∃ own : Printed, (∀ fragment ∈ own.fragments, fragment.node = none) ∧
      own.Prints (if n.type = .rule then n.raws.ownSemicolon.getD [] else []) ∧
      p.node l id semicolon body =
        .one ⟨n.head ++ ['\x7b'], some id, some .start⟩ ++ body ++ .gap (n.raws.after.getD []) ++
          .one ⟨['\x7d'], some id, some .stop⟩ ++ own := by
  have htype : n.type = n.kind.type := rfl
  have hafter := hrecorded.after hblock
  unfold node
  rw [hn]
  cases hkind : n.kind with
  | root => exact absurd (by rw [htype, hkind]; rfl) hrecorded.plain.1
  | other => exact absurd (by rw [htype, hkind]; rfl) hrecorded.plain.2
  | rule selector =>
      rw [hkind] at htype
      have hbetween := hrecorded.between (by simp [htype, Kind.type])
      have hwritten :=
        Layout.block_eq (RawValue.written n.raws.selector selector) body hn hbetween
        hafter
      simp only [Layout.rule, Layout.raws, hn, hwritten, Node.head, hkind]
      rw [if_pos (by exact htype)]
      cases hown : n.raws.ownSemicolon with
      | none => exact ⟨.empty, by simp [Printed.empty], Printed.prints_empty, by simp⟩
      | some own => exact ⟨.one { text := own }, by simp [Printed.one], Printed.prints_one _, rfl⟩
  | atRule name params =>
      rw [hkind] at htype
      have hbetween := hrecorded.between (by simp [htype, Kind.type])
      obtain ⟨afterName, hafterName⟩ := Option.isSome_iff_exists.mp (hrecorded.afterName htype)
      refine ⟨.empty, by simp [Printed.empty], by simpa [htype, Kind.type] using
        Printed.prints_empty, ?_⟩
      simp only [Layout.atRule, Layout.atRuleHead, Layout.raws, hn, Node.head, hkind, hafterName,
        Option.getD_some, if_pos hblock, Layout.block_eq _ body hn hbetween hafter,
        Printed.append_empty]
  | declaration =>
      rw [hkind] at htype
      exact absurd hblock (by simp [hrecorded.leaf (.inl htype)])
  | comment =>
      rw [hkind] at htype
      exact absurd hblock (by simp [hrecorded.leaf (.inr htype)])

/-- A recorded node is printed as its head and its ending. -/
theorem prints_node {id : NodeId} {n : Node} {below : Forest Node} (semicolon : Bool)
    {body : Printed} {text : Text} (hn : l.document.node id = n) (hrecorded : n.IsRecorded below)
    (hbody : body.Prints text) :
    (p.node l id semicolon body).Prints (n.head ++ n.ending semicolon text) := by
  cases hblock : n.hasBlock with
  | false =>
      have hending : n.ending semicolon text = n.ending semicolon [] := by
        simp [Node.ending, hblock]
      rw [p.node_of_leaf semicolon body hn hrecorded hblock, hending]
      exact Printed.prints_one _
  | true =>
      obtain ⟨own, -, hown, hnode⟩ := p.node_of_block semicolon body hn hrecorded hblock
      rw [hnode, Node.ending, if_pos hblock, Node.closing]
      have h := ((((Printed.prints_one ⟨n.head ++ ['\x7b'], some id, some .start⟩).append
        hbody).append (Printed.prints_gap (n.raws.after.getD []))).append
        (Printed.prints_one ⟨['\x7d'], some id, some .stop⟩)).append hown
      simpa using h

theorem endsBefore_eq (doc : Document) (f : Forest NodeId) :
    endsBefore doc f = (f.map doc.node).endsBefore := by
  rw [endsBefore, Forest.endsBefore, Forest.tops_map, List.any_map]
  rfl

/-- Recorded nodes are printed as they are spelled, whatever the printer and the layout are. -/
theorem prints_forest (semicolon : Bool) (f : Forest NodeId)
    (h : (f.map l.document.node).Each Node.IsRecorded) :
    (p.forest l semicolon f).Prints ((f.map l.document.node).spell semicolon) := by
  induction f generalizing semicolon with
  | nil => exact Printed.prints_empty
  | cons id below rest ihBelow ihRest =>
      obtain ⟨hnode, hbelow, hrest⟩ := h
      have hends := endsBefore_eq l.document rest
      -- Without children the semicolon of the layout does not matter.
      have hbody : (p.forest l (l.semicolon id) below).Prints
          ((below.map l.document.node).spell
            ((l.document.node id).raws.semicolon.getD false)) := by
        cases below with
        | nil => exact Printed.prints_empty
        | cons child under siblings =>
            rw [Layout.semicolon_eq rfl (hnode.semicolon (by simp [Forest.map]))]
            exact ihBelow _ hbelow
      have hgap := Printed.prints_gap (l.document.node id).before
      have h := (hgap.append (p.prints_node (endsBefore l.document rest || semicolon) rfl
        hnode hbody)).append (ihRest semicolon hrest)
      simp only [forest, Layout.before_eq rfl hnode.before, Forest.map, Forest.spell, Node.spell]
      rw [hends] at h ⊢
      simpa using h

end Printer

end Stylesheet
