import Stylesheet.Proofs.Dependence
import Stylesheet.Proofs.Inference
import Stylesheet.Proofs.Moving
import Stylesheet.Proofs.Order
import Stylesheet.Proofs.Undo

/-!
# The layout of a document that records none

Where no attached node has recorded anything of its form, nothing is found that a layout could be
inferred from, and the defaults decide. `Document.canonical` lays such a document out by a
recursion on its tree, in which each node stands on a line of its own that is indented by the
depth of the node. `print_of_unset` says that this is what is printed: siblings show nothing, the
document has no style (`Layout.IsUnset`), and the depth that the printer counts along the parents
of a node is the one that the recursion goes down (`prints_forest_of_isUnset`).
-/

namespace Stylesheet

/-! ## The canonical layout -/

/-- `d.line depth` starts a line at a depth. -/
def Defaults.line (d : Defaults) (depth : Nat) : Text :=
  '\n' :: (List.replicate depth d.indent).flatten

namespace Node

/-- `n.canonicalHead d` is the text of a node up to its block or, if it has none, up to its
semicolon. -/
def canonicalHead (d : Defaults) (n : Node) : Text :=
  match n.kind with
  | .root => []
  | .rule selector => selector
  | .atRule name params => '@' :: name ++ if params.isEmpty then [] else ' ' :: params
  | .declaration property value important =>
      property ++ d.colon ++ value ++ if important then " !important".toList else []
  | .comment text => "/*".toList ++ d.commentLeft ++ text ++ d.commentRight ++ "*/".toList
  | .other _ head value => if n.hasBlock then head else head ++ value

/-- `n.canonical d semicolon body` is the text of a node with `body` between its braces. -/
def canonical (d : Defaults) (n : Node) (semicolon : Bool) (body : Text) : Text :=
  n.canonicalHead d ++
    if n.hasBlock then d.beforeOpen ++ '\x7b' :: body ++ ['\x7d']
    else if n.type = .comment then []
    else Layout.semicolonText semicolon

variable {n : Node} (d : Defaults) (semicolon : Bool) (body : Text)

theorem canonical_of_block (h : n.hasBlock = true) :
    n.canonical d semicolon body =
      n.canonicalHead d ++ (d.beforeOpen ++ '\x7b' :: body ++ ['\x7d']) := by
  rw [canonical, if_pos h]

theorem canonical_of_leaf (h : n.hasBlock = false) (htype : n.type ≠ .comment) :
    n.canonical d semicolon body = n.canonicalHead d ++ Layout.semicolonText semicolon := by
  rw [canonical, h, if_neg Bool.false_ne_true, if_neg htype]

end Node

/-- `f.canonical d depth gap` is the text of the nodes of a forest at a depth, the first one
behind `gap` and each other one on a line of its own. -/
def Forest.canonical (d : Defaults) (depth : Nat) (gap : Text) : Forest Node → Text
  | nil => []
  | cons n below rest =>
      let body := canonical d (depth + 1) (d.line (depth + 1)) below
      let closing := if below.tops.isEmpty then d.emptyBody else d.line depth
      gap ++ n.canonical d (rest.endsBefore || d.semicolon) (body ++ closing) ++
        canonical d depth (d.line depth) rest

/-- `doc.canonical d` is the text of a document in the canonical layout. Nothing stands before its
first node. -/
def Document.canonical (doc : Document) (d : Defaults) : Text :=
  ((doc.below Document.root).map doc.node).canonical d 0 []

/-! ## Layouts that find nothing -/

theorem Raws.exists_of_form {r : Raws} (h : r.form = {}) :
    ∃ damage extra, r = { damage, extra } := by
  cases r
  cases h
  exact ⟨_, _, rfl⟩

/-- `l.IsUnset` says that no attached node has recorded anything of its form and that the document
shows no style. -/
structure Layout.IsUnset (l : Layout) : Prop where
  linked : l.document.IsLinked
  form : ∀ {id}, l.document.isAttached id = true → (l.document.node id).raws.form = {}
  style : l.style = ⟨fun _ ↦ none, none⟩

/-- A node that has recorded nothing shows nothing. -/
theorem Document.sample_of_form {doc : Document} {id : NodeId} (h : (doc.node id).raws.form = {})
    (aspect : Aspect) : doc.sample aspect id = none := by
  obtain ⟨_, _, hraws⟩ := Raws.exists_of_form h
  cases aspect <;> simp [sample, beforeSample, hraws]

theorem Document.semicolonSample_of_form {doc : Document} {id : NodeId}
    (h : (doc.node id).raws.form = {}) : doc.semicolonSample id = none := by
  obtain ⟨_, _, hraws⟩ := Raws.exists_of_form h
  simp [semicolonSample, hraws]

/-- A document whose attached nodes have recorded nothing is laid out without a style. -/
theorem Printer.isUnset_layout (p : Printer) {doc : Document} (hlinked : doc.IsLinked)
    (hform : ∀ id, doc.isAttached id = true → (doc.node id).raws.form = {}) :
    (p.layout doc Document.root).IsUnset where
  linked := hlinked
  form := hform _
  style := by
    have hwalk {id : NodeId} (hid : id ∈ doc.walk Document.root) : (doc.node id).raws.form = {} :=
      hform id (hlinked.isAttached_iff.mpr (.inr (hlinked.mem_walk_iff.mp hid)))
    unfold layout
    dsimp only
    rw [hlinked.top_root, Style.collect_eq_scan, Style.scan, Style.mk.injEq]
    exact ⟨funext fun aspect ↦ List.findSome?_eq_none_iff.mpr fun id hid ↦
        Document.sample_of_form (hwalk hid) aspect,
      List.findSome?_eq_none_iff.mpr fun id hid ↦ Document.semicolonSample_of_form (hwalk hid)⟩

namespace Layout.IsUnset

variable {l : Layout} {id : NodeId} (h : l.IsUnset) (hid : l.document.isAttached id = true)
include h

theorem text_style (aspect : Aspect) : l.style.text aspect = none := by
  rw [h.style]

theorem indentation (depth : Nat) : l.indentation depth =
    (List.replicate depth l.defaults.indent).flatten := by
  rw [Layout.indentation, indent, h.text_style, Option.getD_none]

theorem newline (aspect : Aspect) (depth : Nat) :
    l.newline aspect depth = l.defaults.line depth := by
  rw [Layout.newline, h.text_style, Option.getD_none, reindent, h.indentation, Defaults.line]
  rfl

include hid

theorem exists_raws : ∃ damage extra, (l.document.node id).raws = { damage, extra } :=
  Raws.exists_of_form (h.form hid)

/-- Siblings show nothing, as they are attached as well. -/
theorem fromSibling_eq_none {α : Type} {pick : NodeId → Option α}
    (hpick : ∀ s damage extra, (l.document.node s).raws = { damage, extra } → pick s = none) :
    l.fromSibling id pick = none := by
  refine List.findSome?_eq_none_iff.mpr fun s hs ↦ ?_
  have hearlier := (List.mem_filter.mp hs).1
  simp only [Document.earlier] at hearlier
  split at hearlier
  · next parent index hparent _ =>
      have hs := h.linked.isAttached_child (h.linked.isAttached_parent hid hparent)
        (List.mem_of_mem_take (List.mem_reverse.mp hearlier))
      obtain ⟨damage, extra, hraws⟩ := h.exists_raws hs
      exact hpick s damage extra hraws
  · cases hearlier

theorem lineIndent_eq_none : l.lineIndent id = none := by
  obtain ⟨_, _, hraws⟩ := h.exists_raws hid
  simp [lineIndent, raws, hraws]

theorem before_eq {parent : NodeId} (hparent : l.document.parent id = some parent) :
    l.before id = if l.document.isFirstOfRoot id then []
      else l.defaults.line (l.document.depth id) := by
  obtain ⟨_, _, hraws⟩ := h.exists_raws hid
  simp only [before, inferBefore, raws, hraws, hparent, Option.getD_none]
  rw [h.fromSibling_eq_none hid fun s _ _ hs ↦ by simp [Document.shownBefore, hs],
    h.lineIndent_eq_none (h.linked.isAttached_parent hid hparent), h.newline]

theorem after_eq (htype : l.document.type id ≠ .root) :
    l.after id =
      if (l.document.children id).isEmpty then l.defaults.emptyBody
        else l.defaults.line (l.document.depth id) := by
  obtain ⟨_, _, hraws⟩ := h.exists_raws hid
  have hempty : l.inferEmptyBody id = l.defaults.emptyBody := by
    rw [inferEmptyBody, h.fromSibling_eq_none hid fun s _ _ hs ↦ by
      simp [Document.shownEmptyBody, hs], h.text_style]
    rfl
  have hclose : l.inferBeforeClose id = l.defaults.line (l.document.depth id) := by
    rw [inferBeforeClose, h.fromSibling_eq_none hid fun s _ _ hs ↦ by
      simp [Document.shownBeforeClose, hs], h.lineIndent_eq_none hid, h.newline]
  simp only [after, raws, hraws, if_neg htype, hempty, hclose]

theorem between_of_declaration (htype : l.document.type id = .declaration) :
    l.between id = l.defaults.colon := by
  obtain ⟨_, _, hraws⟩ := h.exists_raws hid
  have hcolon : l.inferColon id = l.defaults.colon := by
    rw [inferColon, h.fromSibling_eq_none hid fun s _ _ hs ↦ by
      simp [Document.shownColon, hs], h.text_style]
    rfl
  simp only [between, raws, hraws, htype, hcolon]

/-- Before a block stands what the defaults say, and before no block nothing does. -/
theorem between_of_opens
    (htype : l.document.type id = .rule ∨ l.document.type id = .atRule ∨
      l.document.type id = .other) :
    l.between id = if (l.document.node id).hasBlock then l.defaults.beforeOpen else [] := by
  obtain ⟨_, _, hraws⟩ := h.exists_raws hid
  have hopen : l.inferBeforeOpen id = l.defaults.beforeOpen := by
    rw [inferBeforeOpen, h.fromSibling_eq_none hid fun s _ _ hs ↦ by
      simp [Document.shownBeforeOpen, hs], h.text_style]
    rfl
  rcases htype with htype | htype | htype <;> simp only [between, raws, hraws, htype, hopen]

theorem semicolon_eq : l.semicolon id = l.defaults.semicolon := by
  obtain ⟨_, _, hraws⟩ := h.exists_raws hid
  have hsibling : l.fromSibling id l.document.semicolonSample = none :=
    h.fromSibling_eq_none hid fun s _ _ hs ↦ by simp [Document.semicolonSample, hs]
  simp only [semicolon, raws, hraws, hsibling, h.style]
  exact ite_self _

theorem edge_eq {side : Raws → Option Text}
    (hside : ∀ damage extra, side { damage, extra } = none) (aspect : Aspect) (fallback : Text) :
    l.edge side aspect fallback id = fallback := by
  obtain ⟨_, _, hraws⟩ := h.exists_raws hid
  rw [edge, raws, hraws, hside, h.fromSibling_eq_none hid fun s _ _ hs ↦ by
    simp [Document.shownEdge, hs, hside], h.text_style]
  rfl

theorem commentLeft_eq : l.commentLeft id = l.defaults.commentLeft :=
  h.edge_eq hid (fun _ _ ↦ rfl) _ _

theorem commentRight_eq : l.commentRight id = l.defaults.commentRight :=
  h.edge_eq hid (fun _ _ ↦ rfl) _ _

end Layout.IsUnset

/-! ## Printing -/

theorem Layout.prints_block (l : Layout) (id : NodeId) (head : Text) {body : Printed}
    {text : Text} (hbody : body.Prints text) :
    (l.block id head body).Prints
      (head ++ (l.between id ++ '\x7b' :: (text ++ l.after id) ++ ['\x7d'])) := by
  have h :=
    (((Printed.prints_one ⟨head ++ l.between id ++ ['\x7b'], some id, some .start⟩).append
      hbody).append
    (Printed.prints_gap (l.after id))).append (Printed.prints_one ⟨['\x7d'], some id, some .stop⟩)
  simpa [block] using h

/-- A leaf that is written from its head is written as in the canonical layout. -/
theorem Layout.prints_leaf (l : Layout) {id : NodeId}
    (hhas : (l.document.node id).hasBlock = false) (htype : l.document.type id ≠ .comment)
    (semicolon : Bool) (body : Text) :
    (leaf id ((l.document.node id).canonicalHead l.defaults) semicolon).Prints
      ((l.document.node id).canonical l.defaults semicolon body) := by
  rw [Node.canonical_of_leaf _ _ _ hhas htype]
  exact Printed.prints_one _

/-- A node with a block that is written from its head is written as in the canonical layout. -/
theorem Layout.IsUnset.prints_block {l : Layout} {id : NodeId} (h : l.IsUnset)
    (hid : l.document.isAttached id = true)
    (htype : l.document.type id = .rule ∨ l.document.type id = .atRule ∨
      l.document.type id = .other)
    (hhas : (l.document.node id).hasBlock = true) (semicolon : Bool) {body : Printed}
    {text : Text} (hbody : body.Prints text) :
    (l.block id ((l.document.node id).canonicalHead l.defaults) body).Prints
      ((l.document.node id).canonical l.defaults semicolon (text ++ l.after id)) := by
  have hbetween := (h.between_of_opens hid htype).trans (if_pos hhas)
  rw [Node.canonical_of_block _ _ _ hhas, ← hbetween]
  exact l.prints_block id _ hbody

namespace Printer

variable {p : Printer} (hp : p.IsGeneric) {l : Layout} (h : l.IsUnset)
include h

theorem prints_atRule_of_isUnset {id : NodeId} (hid : l.document.isAttached id = true)
    {name params : Text} (hkind : (l.document.node id).kind = .atRule name params)
    (semicolon : Bool) {body : Printed} {text : Text} (hbody : body.Prints text) :
    (l.atRule id name params semicolon body).Prints
      ((l.document.node id).canonical l.defaults semicolon (text ++ l.after id)) := by
  obtain ⟨_, _, hraws⟩ := h.exists_raws hid
  have htype : l.document.type id = .atRule := congrArg Kind.type hkind
  have hhead : l.atRuleHead id name params = (l.document.node id).canonicalHead l.defaults := by
    rw [Layout.atRuleHead, Layout.raws, hraws, Node.canonicalHead, hkind]
    cases params <;> simp [RawValue.written]
  rw [Layout.atRule, hhead]
  cases hhas : (l.document.node id).hasBlock with
  | true => exact h.prints_block hid (.inr (.inl htype)) hhas semicolon hbody
  | false =>
      rw [if_neg Bool.false_ne_true, h.between_of_opens hid (.inr (.inl htype)), hhas,
        if_neg Bool.false_ne_true, List.append_nil]
      exact l.prints_leaf hhas (by rw [htype]; rintro ⟨⟩) semicolon _

theorem prints_generic_of_isUnset {id : NodeId} (hid : l.document.isAttached id = true)
    {name head value : Text} (hkind : (l.document.node id).kind = .other name head value)
    (semicolon : Bool) {body : Printed} {text : Text} (hbody : body.Prints text) :
    (l.generic id semicolon body).Prints
      ((l.document.node id).canonical l.defaults semicolon (text ++ l.after id)) := by
  obtain ⟨_, _, hraws⟩ := h.exists_raws hid
  have htype : l.document.type id = .other := congrArg Kind.type hkind
  cases hhas : (l.document.node id).hasBlock with
  | true =>
      have hblock := h.prints_block hid (.inr (.inr htype)) hhas semicolon hbody
      simpa [Layout.generic, Node.canonicalHead, hkind, hhas, Kind.head?] using hblock
  | false =>
      have hleaf := l.prints_leaf hhas (by rw [htype]; rintro ⟨⟩) semicolon (text ++ l.after id)
      have hbetween := h.between_of_opens hid (.inr (.inr htype))
      rw [hhas, if_neg Bool.false_ne_true] at hbetween
      simpa [Layout.generic, Node.canonicalHead, hkind, hhas, hraws, hbetween, Kind.head?,
        Kind.value?, RawValue.written] using hleaf

include hp

/-- A node is printed as in the canonical layout around what is printed between its braces. -/
theorem prints_node_of_isUnset {id : NodeId} (hid : l.document.isAttached id = true)
    (hshaped : (l.document.node id).IsShaped) (htype : l.document.type id ≠ .root)
    (semicolon : Bool) {body : Printed} {text : Text} (hbody : body.Prints text) :
    (p.node l id semicolon body).Prints
      ((l.document.node id).canonical l.defaults semicolon (text ++ l.after id)) := by
  obtain ⟨_, _, hraws⟩ := h.exists_raws hid
  have hkindType : l.document.type id = (l.document.node id).kind.type := rfl
  unfold node
  cases hkind : (l.document.node id).kind with
  | root => exact absurd (by rw [hkindType, hkind]; rfl) htype
  | rule selector =>
      rw [hkind] at hkindType
      have hhas := hshaped.hasBlock_of_type (.inr hkindType)
      have hblock := h.prints_block hid (.inl hkindType) hhas semicolon hbody
      simpa only [Layout.rule, Layout.raws, hraws, RawValue.written, Node.canonicalHead,
        hkind] using hblock
  | atRule name params => exact prints_atRule_of_isUnset h hid hkind semicolon hbody
  | declaration property value important =>
      rw [hkind] at hkindType
      have hleaf := l.prints_leaf (hshaped.leaf_of_type (.inl hkindType))
        (by rw [hkindType]; rintro ⟨⟩) semicolon (text ++ l.after id)
      simpa only [Layout.declaration, Layout.raws, hraws, RawValue.written, Node.canonicalHead,
        hkind, h.between_of_declaration hid hkindType, Option.getD_none] using hleaf
  | comment text =>
      rw [hkind] at hkindType
      have hhas := hshaped.leaf_of_type (.inr hkindType)
      have hcomment : (l.document.node id).type = .comment := hkindType
      rw [Node.canonical, hhas, if_neg Bool.false_ne_true, if_pos hcomment,
        Node.canonicalHead, hkind]
      simp only [Layout.comment, h.commentLeft_eq hid, h.commentRight_eq hid]
      exact Printed.prints_one _
  | other name head value =>
      simp only [other_of_isGeneric hp]
      exact prints_generic_of_isUnset h hid hkind semicolon hbody

/-- Children of an attached node are printed as in the canonical layout, the first one behind its
own gap. -/
theorem prints_forest_of_isUnset (hshaped : l.document.IsShaped)
    (hroots : l.document.HasRootsOnTop) {ids : List NodeId} {f : Forest NodeId}
    (hf : l.document.Unfolds ids f) {parent : NodeId}
    (hattached : l.document.isAttached parent = true)
    (hparent : ∀ id ∈ ids, l.document.parent id = some parent) {gap : Text}
    (hfirst : ∀ id ∈ ids.head?, l.before id = gap)
    (hlater : ∀ id ∈ ids.tail, l.before id = l.defaults.line (l.document.childDepth parent)) :
    (p.forest l l.defaults.semicolon f).Prints
      ((f.map l.document.node).canonical l.defaults (l.document.childDepth parent) gap) := by
  induction hf generalizing parent gap with
  | nil => exact Printed.prints_empty
  | cons id ids below rest hbelow hrest ihBelow ihRest =>
      obtain ⟨hup, hparent⟩ := List.forall_mem_cons.mp hparent
      have hid := h.linked.isAttached_child hattached (h.linked.mem_children_iff.mpr hup)
      have htype := hroots id parent hup
      have hdepth := h.linked.depth_of_parent hup
      have hchildDepth : l.document.childDepth id = l.document.childDepth parent + 1 := by
        rw [Document.childDepth, if_neg htype, hdepth]
      -- A child of a node that is no root starts a line.
      have hchild {child : NodeId} (hchild : child ∈ l.document.children id) :
          l.before child = l.defaults.line (l.document.childDepth id) := by
        have hmem := h.linked.mem_children_iff.mp hchild
        have hnot : l.document.isFirstOfRoot child = false := by
          simp [Document.isFirstOfRoot, hmem, htype]
        rw [h.before_eq (h.linked.isAttached_child hid hchild) hmem, hnot,
          h.linked.depth_of_parent hmem]
        rfl
      have hbody := ihBelow hid (fun child hmem ↦ h.linked.mem_children_iff.mp hmem)
        (fun child hmem ↦ hchild (List.mem_of_mem_head? hmem))
          fun child hmem ↦ hchild (List.mem_of_mem_tail hmem)
      have hbehind :=
        ihRest hattached hparent (fun other hmem ↦ hlater other (List.mem_of_mem_head? hmem))
        fun other hmem ↦ hlater other (List.mem_of_mem_tail hmem)
      have hclosing : l.after id = if (below.map l.document.node).tops.isEmpty
          then l.defaults.emptyBody
          else l.defaults.line (l.document.childDepth parent) := by
        rw [h.after_eq hid htype, hdepth, Forest.tops_map, hbelow.tops_eq, List.isEmpty_map]
      rw [hchildDepth] at hbody
      have hnode := prints_node_of_isUnset hp h hid (hshaped id) htype
        (endsBefore l.document rest || l.defaults.semicolon) hbody
      rw [hclosing, endsBefore_eq] at hnode
      rw [forest, h.semicolon_eq hid, hfirst id rfl, endsBefore_eq]
      exact ((Printed.prints_gap gap).append hnode).append hbehind

end Printer

/-! ## Documents -/

/-- What is behind the first element of a list without repetition is another element. -/
theorem head?_ne_of_mem_tail {α : Type} {xs : List α} {x : α} (hnodup : xs.Nodup)
    (h : x ∈ xs.tail) : xs.head? ≠ some x := by
  cases xs with
  | nil => cases h
  | cons first xs =>
      rintro ⟨⟩
      exact (List.nodup_cons.mp hnodup).1 h

/-- The first child of the root has nothing before it, and the other ones start a line. -/
theorem Layout.IsUnset.before_of_root {l : Layout} (h : l.IsUnset)
    (htype : l.document.type Document.root = .root) {id : NodeId}
    (hid : id ∈ l.document.children Document.root) :
    l.before id = if (l.document.children Document.root).head? = some id then []
      else l.defaults.line (l.document.childDepth Document.root) := by
  have hparent := h.linked.mem_children_iff.mp hid
  have hattached := h.linked.isAttached_child l.document.isAttached_root hid
  have hfirst : l.document.isFirstOfRoot id =
      ((l.document.children Document.root).head? == some id) := by
    simp [Document.isFirstOfRoot, hparent, htype]
  simp only [h.before_eq hattached hparent, hfirst, beq_iff_eq, h.linked.depth_of_parent hparent]

/-- A document whose attached nodes have recorded nothing is printed in the canonical layout. -/
theorem Document.prints_canonical {doc : Document} {p : Printer} (hp : p.IsGeneric)
    (hlinked : doc.IsLinked) (hshaped : doc.IsShaped) (hroots : doc.HasRootsOnTop)
    (htype : doc.type root = .root)
    (hform : ∀ id, doc.isAttached id = true → (doc.node id).raws.form = {}) :
    (p.print doc).Prints (doc.canonical p.defaults) := by
  have h : (p.layout doc root).IsUnset := p.isUnset_layout hlinked hform
  have hattached := doc.isAttached_root
  obtain ⟨_, _, hraws⟩ := h.exists_raws hattached
  have hkind : (doc.node root).kind = .root := by
    cases hkind : (doc.node root).kind with
    | root => rfl
    | _ => simp [type, Node.type, hkind, Kind.type] at htype
  have hdepth : doc.childDepth root = 0 := by
    rw [childDepth, depth, hlinked.ancestors_root, if_pos htype]
    rfl
  have hbody : (p.forest (p.layout doc root) p.defaults.semicolon (doc.below root)).Prints
      (((doc.below root).map doc.node).canonical p.defaults (doc.childDepth root) []) :=
    Printer.prints_forest_of_isUnset hp h hshaped hroots (hlinked.unfolds_below root) hattached
      (fun _ hid ↦ hlinked.mem_children_iff.mp hid)
      (fun _ hid ↦ (h.before_of_root htype (List.mem_of_mem_head? hid)).trans (if_pos hid))
      (fun _ hid ↦ (h.before_of_root htype (List.mem_of_mem_tail hid)).trans
        (if_neg (head?_ne_of_mem_tail (hlinked.nodup root) hid)))
  have hprint : p.print doc = (p.layout doc root).root root
      (p.forest (p.layout doc root) p.defaults.semicolon (doc.below root)) := by
    have hsemicolon : (p.layout doc root).semicolon root = p.defaults.semicolon :=
      h.semicolon_eq hattached
    simp only [Printer.print, Printer.printNode, hsemicolon]
    unfold Printer.node
    rw [show ((p.layout doc root).document.node root).kind = .root from hkind]
  rw [hprint, Layout.root, Layout.raws, hraws, canonical, ← hdepth]
  have hwritten := (((Printed.prints_one ⟨[], some root, some .start⟩).append hbody).append
    (Printed.prints_gap [])).append (Printed.prints_one ⟨[], some root, some .stop⟩)
  simpa only [List.nil_append, List.append_nil, Option.getD_none] using hwritten

/-- A document that was read or started empty and has then been edited without overwriting a kind
is printed in the canonical layout if its attached nodes have recorded nothing but damage and
extra texts, whatever the defaults are. -/
theorem print_of_unset {start : Document}
    (hstart : start = .empty ∨ ∃ source mode, parse source mode = .ok start)
    (commands : List Command) (hkinds : ∀ command ∈ commands, command.setsKind = false)
    (hform : ∀ id, (Command.run commands start).isAttached id = true →
      ((Command.run commands start).node id).raws.form = {})
    (defaults : Defaults) :
    (({ defaults } : Printer).print (Command.run commands start)).Prints
      ((Command.run commands start).canonical defaults) :=
  Document.prints_canonical ⟨rfl, rfl⟩ (Command.isLinked_run (isLinked_of_start hstart) commands)
    (isShaped_of_run hstart hkinds) (hasRootsOnTop_of_run hstart hkinds)
      (type_root_of_run hstart hkinds) hform

/-- A declaration before a comment in a rule in an at-rule, which a rule without children is
behind. -/
theorem print_of_unset_rule :
    ∃ doc, doc = Command.run [.create (.atRule ['a'] ['b']), .append 0 1, .create (.rule ['c']),
      .append 1 2,
        .create (.declaration ['d'] ['e'] true), .append 2 3, .create (.comment ['f']),
        .append 2 4, .create (.rule ['g']), .append 0 5] .empty ∧
      (({} : Printer).print doc).failure = none ∧
      (({} : Printer).print doc).text =
    "@a b \x7b\n  c \x7b\n    d: e !important\n    /* f */\n  \x7d\n\x7d\ng \x7b\x7d".toList := by
  have h {commands : List Command} (hkinds : ∀ command ∈ commands, command.setsKind = false)
      (hform : ∀ id < (Command.run commands .empty).size,
        ((Command.run commands .empty).node id).raws.form = {}) :
      (({} : Printer).print (Command.run commands .empty)).Prints
        ((Command.run commands .empty).canonical {}) := by
    refine print_of_unset (.inl rfl) commands hkinds (fun id _ ↦ ?_) {}
    rcases Nat.lt_or_ge id (Command.run commands .empty).size with hlt | hle
    · exact hform id hlt
    · rw [Document.node_of_size_le hle]
      rfl
  refine ⟨_, rfl, (h (by decide) (by decide +kernel)).failure, ?_⟩
  exact (h (by decide) (by decide +kernel)).text_eq.trans (by decide +kernel)

end Stylesheet
