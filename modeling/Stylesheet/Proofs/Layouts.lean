import Mathlib.Data.List.Basic
import Stylesheet.Print.Printer
import Stylesheet.Proofs.Links

/-!
# What a layout reads

To infer what a node has not recorded, a `Layout` looks at the nodes around it and at the style of
the whole document. It reads the links of nodes, their sorts and their layout raws there, and
nothing else, and it never leaves the tree of the node. So a part of two documents that no link
leads out of, and in which they are the same in these (`Document.SameLayoutIn`), is laid out alike
(`SameLayoutIn.agrees_layout`), whatever its nodes mean, in whatever form that was written, and
whatever else is in the documents. `Document.SameLayout` says so of all nodes.
-/

namespace Stylesheet

/-- `r.layout` is the part of the recorded layout that other nodes are laid out by: all but the
written forms of texts, the spelling of a mark, the text behind a name and the damage. -/
def Raws.layout (r : Raws) : Raws :=
  { before := r.before, after := r.after, between := r.between, semicolon := r.semicolon,
    left := r.left, right := r.right, ownSemicolon := r.ownSemicolon }

/-- `n.SameLayout m` says that the nodes are of the same sort, linked in the same way and laid out
alike. -/
structure Node.SameLayout (n m : Node) : Prop where
  type : m.type = n.type
  parent : m.parent = n.parent
  children : m.children = n.children
  raws : m.raws.layout = n.raws.layout

namespace Node.SameLayout

variable {n m : Node} (h : n.SameLayout m)
include h

theorem before : m.raws.before = n.raws.before := congrArg (·.before) h.raws

theorem after : m.raws.after = n.raws.after := congrArg (·.after) h.raws

theorem between : m.raws.between = n.raws.between := congrArg (·.between) h.raws

theorem semicolon : m.raws.semicolon = n.raws.semicolon := congrArg (·.semicolon) h.raws

theorem left : m.raws.left = n.raws.left := congrArg (·.left) h.raws

theorem right : m.raws.right = n.raws.right := congrArg (·.right) h.raws

theorem ownSemicolon : m.raws.ownSemicolon = n.raws.ownSemicolon :=
  congrArg (·.ownSemicolon) h.raws

theorem hasBlock : m.hasBlock = n.hasBlock := congrArg Option.isSome h.children

theorem childList : m.childList = n.childList := congrArg (Option.getD · []) h.children

end Node.SameLayout

/-! ## Look-ups -/

theorem findSome?_congr {α β : Type} {f g : α → Option β} {xs : List α}
    (h : ∀ x ∈ xs, f x = g x) : xs.findSome? f = xs.findSome? g := by
  rw [← List.head?_filterMap, List.filterMap_congr h, List.head?_filterMap]

namespace Document

/-- `doc.SameLayoutIn part other` says so of the nodes in a part of two documents that no link
leads out of. -/
structure SameLayoutIn (part : NodeId → Prop) (doc other : Document) : Prop where
  size : other.size = doc.size
  node : ∀ {id}, part id → (doc.node id).SameLayout (other.node id)
  parent_mem : ∀ {id parent}, part id → doc.parent id = some parent → part parent
  child_mem : ∀ {id child}, part id → child ∈ doc.children id → part child

namespace SameLayoutIn

variable {part : NodeId → Prop} {doc other : Document} {id : NodeId}
  (h : doc.SameLayoutIn part other)
include h

theorem type (hid : part id) : other.type id = doc.type id := (h.node hid).type

theorem parent (hid : part id) : other.parent id = doc.parent id := (h.node hid).parent

theorem children (hid : part id) : other.children id = doc.children id := (h.node hid).childList

theorem part_of_mem_earlier (hid : part id) {s : NodeId} (hs : s ∈ doc.earlier id) : part s := by
  simp only [Document.earlier] at hs
  split at hs
  · next parent index hparent _ =>
      exact h.child_mem (h.parent_mem hid hparent) (List.mem_of_mem_take (List.mem_reverse.mp hs))
  · cases hs

theorem earlier (hid : part id) : other.earlier id = doc.earlier id := by
  simp only [Document.earlier, indexOf?, h.parent hid]
  cases hparent : doc.parent id with
  | none => rfl
  | some parent =>
      have hchildren := h.children (h.parent_mem hid hparent)
      simp only [Option.bind_some, hchildren]
      cases (doc.children parent).idxOf? id with
      | none => rfl
      | some index => simp only [hchildren]

theorem isFirstOfRoot (hid : part id) : other.isFirstOfRoot id = doc.isFirstOfRoot id := by
  simp only [Document.isFirstOfRoot, h.parent hid]
  cases hparent : doc.parent id with
  | none => rfl
  | some parent =>
      have hmem := h.parent_mem hid hparent
      simp only [h.type hmem, h.children hmem]

theorem climb (steps : Nat) (hid : part id) :
    other.climb steps id = doc.climb steps id ∧ ∀ above ∈ doc.climb steps id, part above := by
  induction steps generalizing id with
  | zero => exact ⟨rfl, List.forall_mem_nil _⟩
  | succ steps ih =>
      simp only [Document.climb, h.parent hid]
      cases hparent : doc.parent id with
      | none => exact ⟨rfl, List.forall_mem_nil _⟩
      | some parent =>
          have hmem := h.parent_mem hid hparent
          obtain ⟨heq, habove⟩ := ih hmem
          exact ⟨congrArg (parent :: ·) heq, List.forall_mem_cons.mpr ⟨hmem, habove⟩⟩

theorem ancestors (hid : part id) : other.ancestors id = doc.ancestors id := by
  rw [Document.ancestors, h.size, (h.climb _ hid).1, Document.ancestors]

theorem top (hid : part id) : other.top id = doc.top id := by
  rw [Document.top, h.ancestors hid, Document.top]

theorem part_top (hid : part id) : part (doc.top id) := by
  unfold Document.top
  cases hlast : (doc.ancestors id).getLast? with
  | none => exact hid
  | some above => exact (h.climb _ hid).2 above (List.mem_of_getLast? hlast)

theorem depth (hid : part id) : other.depth id = doc.depth id := by
  rw [Document.depth, h.ancestors hid, Document.depth]
  refine List.countP_congr fun above habove ↦ ?_
  rw [h.type ((h.climb _ hid).2 above habove)]

theorem visit (steps : Nat) {stack : List NodeId} (hstack : ∀ id ∈ stack, part id) :
    other.visit steps stack = doc.visit steps stack ∧ ∀ id ∈ doc.visit steps stack, part id := by
  induction steps generalizing stack with
  | zero => exact ⟨rfl, List.forall_mem_nil _⟩
  | succ steps ih =>
      cases stack with
      | nil => exact ⟨rfl, List.forall_mem_nil _⟩
      | cons id stack =>
          obtain ⟨hid, hrest⟩ := List.forall_mem_cons.mp hstack
          obtain ⟨heq, hvisit⟩ := ih (List.forall_mem_append.mpr ⟨fun _ ↦ h.child_mem hid, hrest⟩)
          rw [Document.visit, h.children hid, heq, Document.visit]
          exact ⟨rfl, List.forall_mem_cons.mpr ⟨hid, hvisit⟩⟩

theorem walk (hid : part id) : other.walk id = doc.walk id ∧
    ∀ below ∈ doc.walk id, part below := by
  rw [Document.walk, h.size, h.children hid, Document.walk]
  exact h.visit doc.size fun _ ↦ h.child_mem hid

theorem grow (depth : Nat) {ids : List NodeId} (hids : ∀ id ∈ ids, part id) :
    other.grow depth ids = doc.grow depth ids ∧ ∀ id ∈ (doc.grow depth ids).toList, part id := by
  induction depth generalizing ids with
  | zero => exact ⟨rfl, List.forall_mem_nil _⟩
  | succ depth ih =>
      induction ids with
      | nil => exact ⟨rfl, List.forall_mem_nil _⟩
      | cons id ids ihIds =>
          obtain ⟨hid, hrest⟩ := List.forall_mem_cons.mp hids
          obtain ⟨heq, hbelow⟩ := ih fun child hchild ↦ h.child_mem hid hchild
          obtain ⟨heqRest, hrest⟩ := ihIds hrest
          simp only [Document.grow, List.foldr_cons] at heqRest hrest ⊢
          rw [h.children hid, heq, heqRest]
          exact ⟨rfl, List.forall_mem_cons.mpr ⟨hid, List.forall_mem_append.mpr ⟨hbelow, hrest⟩⟩⟩

theorem below (hid : part id) :
    other.below id = doc.below id ∧ ∀ below ∈ (doc.below id).toList, part below := by
  rw [Document.below, h.size, h.children hid, Document.below]
  exact h.grow doc.size fun _ ↦ h.child_mem hid

/-! ## Style -/

theorem sample (aspect : Aspect) (hid : part id) :
    other.sample aspect id = doc.sample aspect id := by
  have hnode := h.node hid
  simp only [Document.sample, Document.beforeSample, h.type hid, h.isFirstOfRoot hid,
    h.depth hid, hnode.type, hnode.hasBlock, hnode.childList, hnode.before, hnode.after,
    hnode.between, hnode.left, hnode.right]

theorem endsWithDeclaration (hid : part id) :
    other.endsWithDeclaration id = doc.endsWithDeclaration id := by
  rw [Document.endsWithDeclaration, h.children hid, Document.endsWithDeclaration]
  cases hlast : (doc.children id).getLast? with
  | none => rfl
  | some child =>
      rw [Option.any_some, Option.any_some, h.type (h.child_mem hid (List.mem_of_getLast? hlast))]

theorem semicolonSample (hid : part id) : other.semicolonSample id = doc.semicolonSample id := by
  rw [Document.semicolonSample, h.endsWithDeclaration hid, (h.node hid).semicolon,
    Document.semicolonSample]

theorem style (hid : part id) : Style.collect other id = Style.collect doc id := by
  obtain ⟨hwalk, hpart⟩ := h.walk hid
  have hnote : (doc.walk id).foldl (Findings.noteNode other) {} =
      (doc.walk id).foldl (Findings.noteNode doc) {} := by
    refine List.foldl_ext _ _ _ fun f below hbelow ↦ ?_
    have hsample : (other.sample · below) = (doc.sample · below) :=
      funext fun aspect ↦ h.sample aspect (hpart below hbelow)
    simp only [Findings.noteNode, h.semicolonSample (hpart below hbelow), funext_iff.mp hsample]
  simp only [Style.collect, hwalk, hnote]

end SameLayoutIn

end Document

/-! ## Layouts -/

/-- `l.AgreesIn part m` says that two layouts give the same answers about the nodes of a part. -/
structure Layout.AgreesIn (part : NodeId → Prop) (l m : Layout) : Prop where
  before : ∀ {id}, part id → m.before id = l.before id
  after : ∀ {id}, part id → m.after id = l.after id
  between : ∀ {id}, part id → m.between id = l.between id
  semicolon : ∀ {id}, part id → m.semicolon id = l.semicolon id
  commentLeft : ∀ {id}, part id → m.commentLeft id = l.commentLeft id
  commentRight : ∀ {id}, part id → m.commentRight id = l.commentRight id

namespace Document.SameLayoutIn

variable {part : NodeId → Prop} {doc other : Document} {id : NodeId}
  (h : doc.SameLayoutIn part other)
include h

/-- What is picked from a sibling is the same if it is so for each node of the part. -/
theorem fromSibling (defaults : Defaults) (style : Style) (hid : part id) {α : Type}
    (pick : Document → NodeId → Option α) (hpick : ∀ {s}, part s → pick other s = pick doc s) :
    Layout.fromSibling ⟨other, defaults, style⟩ id (pick other) =
      Layout.fromSibling ⟨doc, defaults, style⟩ id (pick doc) := by
  have hfilter : (doc.earlier id).filter (other.type · == doc.type id) =
      (doc.earlier id).filter (doc.type · == doc.type id) :=
    List.filter_congr fun s hs ↦ by rw [h.type (h.part_of_mem_earlier hid hs)]
  simp only [Layout.fromSibling, h.type hid, h.earlier hid, hfilter]
  exact findSome?_congr fun s hs ↦ hpick (h.part_of_mem_earlier hid (List.mem_filter.mp hs).1)

/-- What a comment shows at its edges is the same if it has recorded the same. -/
theorem edge (defaults : Defaults) (style : Style) (hid : part id) {side : Raws → Option Text}
    (hside : ∀ {id}, part id → side (other.node id).raws = side (doc.node id).raws)
    (aspect : Aspect) (fallback : Text) :
    Layout.edge ⟨other, defaults, style⟩ side aspect fallback id =
      Layout.edge ⟨doc, defaults, style⟩ side aspect fallback id := by
  have hsibling := h.fromSibling defaults style hid (Document.shownEdge side) fun hs ↦ by
    rw [Document.shownEdge, hside hs, Document.shownEdge]
  simp only [Layout.edge, Layout.raws, hside hid, hsibling]

/-- A part that has the same layout in two documents is laid out alike in the same style. -/
theorem agrees (defaults : Defaults) (style : Style) :
    Layout.AgreesIn part ⟨doc, defaults, style⟩ ⟨other, defaults, style⟩ where
  before {id} hid := by
    have hsibling := h.fromSibling defaults style hid Document.shownBefore fun hs ↦ by
      rw [Document.shownBefore, h.isFirstOfRoot hs, (h.node hs).before, Document.shownBefore]
    simp only [Layout.before, Layout.inferBefore, Layout.raws, (h.node hid).before, h.parent hid]
    cases hparent : doc.parent id with
    | none => rfl
    | some parent =>
        simp only [h.isFirstOfRoot hid, hsibling, Layout.lineIndent, Layout.raws,
          (h.node (h.parent_mem hid hparent)).before, h.type hid, h.depth hid]
        rfl
  after {id} hid := by
    have hnode := h.node hid
    have hempty := h.fromSibling defaults style hid Document.shownEmptyBody fun hs ↦ by
      simp only [Document.shownEmptyBody, (h.node hs).hasBlock, (h.node hs).childList,
        (h.node hs).after]
    have hblock := h.fromSibling defaults style hid Document.shownBeforeClose fun hs ↦ by
      simp only [Document.shownBeforeClose, (h.node hs).childList, (h.node hs).after]
    simp only [Layout.after, Layout.inferEmptyBody, Layout.inferBeforeClose, Layout.lineIndent,
      Layout.raws, hnode.after, hnode.before, h.type hid, h.children hid, h.depth hid, hempty,
      hblock]
    rfl
  between {id} hid := by
    have hnode := h.node hid
    have hcolon := h.fromSibling defaults style hid Document.shownColon fun hs ↦ by
      rw [Document.shownColon, (h.node hs).between, Document.shownColon]
    have hopen := h.fromSibling defaults style hid Document.shownBeforeOpen fun hs ↦ by
      rw [Document.shownBeforeOpen, (h.node hs).hasBlock, (h.node hs).between,
        Document.shownBeforeOpen]
    simp only [Layout.between, Layout.inferColon, Layout.inferBeforeOpen, Layout.raws,
      hnode.between, hnode.hasBlock, h.type hid, hcolon, hopen]
  semicolon {id} hid := by
    have hsibling := h.fromSibling defaults style hid Document.semicolonSample h.semicolonSample
    simp only [Layout.semicolon, Layout.raws, (h.node hid).semicolon, h.type hid, hsibling]
  commentLeft hid := h.edge defaults style hid (fun hs ↦ (h.node hs).left) _ _
  commentRight hid := h.edge defaults style hid (fun hs ↦ (h.node hs).right) _ _

/-- A printer lays such a part out alike, as the style is that of a tree in it. -/
theorem agrees_layout (p : Printer) (hid : part id) :
    (p.layout doc id).AgreesIn part (p.layout other id) := by
  unfold Printer.layout
  rw [h.top hid, h.style (h.part_top hid)]
  exact h.agrees p.defaults _

end Document.SameLayoutIn

/-! ## Whole documents -/

/-- `doc.SameLayout other` says of all nodes of two documents that they have the same layout. -/
structure Document.SameLayout (doc other : Document) : Prop where
  size : other.size = doc.size
  node : ∀ id, (doc.node id).SameLayout (other.node id)

/-- `l.Agrees m` says that two layouts give the same answers. -/
structure Layout.Agrees (l m : Layout) : Prop where
  before : ∀ id, m.before id = l.before id
  after : ∀ id, m.after id = l.after id
  between : ∀ id, m.between id = l.between id
  semicolon : ∀ id, m.semicolon id = l.semicolon id
  commentLeft : ∀ id, m.commentLeft id = l.commentLeft id
  commentRight : ∀ id, m.commentRight id = l.commentRight id

namespace Document.SameLayout

variable {doc other : Document} (h : doc.SameLayout other)
include h

/-- No link leads out of the whole document. -/
theorem inAll : doc.SameLayoutIn (fun _ ↦ True) other :=
  ⟨h.size, fun _ ↦ h.node _, fun _ _ ↦ trivial, fun _ _ ↦ trivial⟩

theorem after (id : NodeId) : (other.node id).raws.after = (doc.node id).raws.after :=
  (h.node id).after

theorem ownSemicolon (id : NodeId) :
    (other.node id).raws.ownSemicolon = (doc.node id).raws.ownSemicolon :=
  (h.node id).ownSemicolon

theorem nodeType (id : NodeId) : (other.node id).type = (doc.node id).type := (h.node id).type

theorem type (id : NodeId) : other.type id = doc.type id := h.nodeType id

theorem hasBlock (id : NodeId) : (other.node id).hasBlock = (doc.node id).hasBlock :=
  (h.node id).hasBlock

theorem below (id : NodeId) : other.below id = doc.below id := (h.inAll.below trivial).1

end Document.SameLayout

/-- A printer lays documents with the same layout out alike. -/
theorem Printer.agrees_layout (p : Printer) {doc other : Document} (h : doc.SameLayout other)
    (id : NodeId) : (p.layout doc id).Agrees (p.layout other id) := by
  have hall : (p.layout doc id).AgreesIn (fun _ ↦ True) (p.layout other id) :=
    h.inAll.agrees_layout p trivial
  exact ⟨fun _ ↦ hall.before trivial, fun _ ↦ hall.after trivial, fun _ ↦ hall.between trivial,
    fun _ ↦ hall.semicolon trivial, fun _ ↦ hall.commentLeft trivial,
    fun _ ↦ hall.commentRight trivial⟩

end Stylesheet
