import Stylesheet.Node.Basic
import Stylesheet.Document.Forest

/-!
# Documents

A `Document` keeps its nodes in an array and refers to them by number. Number zero is the root;
other nodes hang below it or are detached. A number outside the array stands for a node without
links. This module has the look-ups: the relatives of a node, its ancestors, its depth, and
`below`, the forest of the nodes under it.

`node_modify` and `node_add` say what a look-up finds behind a change.
-/

namespace Stylesheet

/-- How malformed text is treated: `strict` refuses it and `tolerant` repairs it. -/
inductive Mode where
  | strict
  | tolerant
  deriving Repr, DecidableEq, Inhabited

/-- The name of a mode. -/
def Mode.name : Mode → String
  | strict => "strict"
  | tolerant => "tolerant"

/-- A repair: what was wrong, where, and with which node. -/
structure Recovery where
  damage : Damage
  message : String
  position : Position
  node : Option NodeId := none
  deriving Repr, DecidableEq, Inhabited

/-- A stylesheet as a tree of nodes. -/
structure Document where
  nodes : Array Node
  source : Source := ⟨[], none⟩
  mode : Mode := .strict
  recoveries : List Recovery := []
  deriving Repr, DecidableEq

namespace Document

/-- The number of the root. -/
def root : NodeId := 0

/-- A document of this source that has only a root. -/
def ofSource (source : Source) : Document :=
  { nodes := #[{ Node.ofKind .root with origin := some { start := .start } }], source }

/-- A document without any text. -/
def empty : Document := ofSource ⟨[], none⟩

/-- The number of nodes, detached ones included. -/
def size (doc : Document) : Nat := doc.nodes.size

/-- `doc.contains id` says that the document has a node of this number. -/
def contains (doc : Document) (id : NodeId) : Bool := id < doc.size

/-- The node that a number outside a document stands for. -/
def absent : Node := { kind := .comment [] }

/-- `doc.node id` is the node of this number. -/
def node (doc : Document) (id : NodeId) : Node :=
  doc.nodes[id]?.getD absent

/-- `doc.modify id f` changes one node. -/
def modify (doc : Document) (id : NodeId) (f : Node → Node) : Document :=
  { doc with nodes := doc.nodes.modify id f }

/-- `doc.add node` has one more node, whose number is the old size. -/
def add (doc : Document) (node : Node) : Document :=
  { doc with nodes := doc.nodes.push node }

/-- The document was repaired while it was read. -/
def isRecovered (doc : Document) : Bool := !doc.recoveries.isEmpty

/-! ## Relatives -/

/-- `doc.type id` is the sort of a node. -/
def type (doc : Document) (id : NodeId) : NodeType := (doc.node id).type

/-- `doc.parent id` is the parent of a node. -/
def parent (doc : Document) (id : NodeId) : Option NodeId := (doc.node id).parent

/-- `doc.children id` are the children of a node, in order. -/
def children (doc : Document) (id : NodeId) : List NodeId := (doc.node id).childList

/-- The root has no children. -/
def isEmpty (doc : Document) : Bool := (doc.children root).isEmpty

/-- `doc.indexOf? id` is the place of a node among the children of its parent. -/
def indexOf? (doc : Document) (id : NodeId) : Option Nat :=
  (doc.parent id).bind fun parent ↦ (doc.children parent).idxOf? id

/-- `doc.earlier id` are the siblings before a node, the nearest first. -/
def earlier (doc : Document) (id : NodeId) : List NodeId :=
  match doc.parent id, doc.indexOf? id with
  | some parent, some index => ((doc.children parent).take index).reverse
  | _, _ => []

/-- `doc.later id` are the siblings behind a node, in order. -/
def later (doc : Document) (id : NodeId) : List NodeId :=
  match doc.parent id, doc.indexOf? id with
  | some parent, some index => (doc.children parent).drop (index + 1)
  | _, _ => []

/-- `doc.prev? id` is the sibling before a node. -/
def prev? (doc : Document) (id : NodeId) : Option NodeId := (doc.earlier id).head?

/-- `doc.next? id` is the sibling behind a node. -/
def next? (doc : Document) (id : NodeId) : Option NodeId := (doc.later id).head?

/-- `doc.climb steps id` are the nearest ancestors of a node, at most `steps` of them. -/
def climb (doc : Document) : Nat → NodeId → List NodeId
  | 0, _ => []
  | steps + 1, id =>
      match doc.parent id with
      | some parent => parent :: doc.climb steps parent
      | none => []

/-- `doc.ancestors id` are the ancestors of a node, the nearest first. No more of them are looked
up than the document has nodes. -/
def ancestors (doc : Document) (id : NodeId) : List NodeId :=
  doc.climb doc.size id

/-- `doc.top id` is the last ancestor of a node, or the node itself if it has none. -/
def top (doc : Document) (id : NodeId) : NodeId :=
  (doc.ancestors id).getLast?.getD id

/-- `doc.depth id` is the number of ancestors that are not of the kind root. -/
def depth (doc : Document) (id : NodeId) : Nat :=
  (doc.ancestors id).countP fun a ↦ doc.type a ≠ .root

/-- `doc.isAttached id` says that a node is the root or has the root among its ancestors. -/
def isAttached (doc : Document) (id : NodeId) : Bool :=
  id == root || (doc.ancestors id).contains root

/-- `doc.isFirstOfRoot id` says that a node is the first child of a node of the kind root. -/
def isFirstOfRoot (doc : Document) (id : NodeId) : Bool :=
  match doc.parent id with
  | some parent => doc.type parent == .root && (doc.children parent).head? == some id
  | none => false

/-- `doc.grow depth ids` is the forest that has `ids` at its tops and goes `depth` levels deep. -/
def grow (doc : Document) : Nat → List NodeId → Forest NodeId
  | 0, _ => .nil
  | depth + 1, ids =>
      ids.foldr (fun id rest ↦ .cons id (doc.grow depth (doc.children id)) rest) .nil

/-- `doc.below id` is the forest of the nodes under a node. -/
def below (doc : Document) (id : NodeId) : Forest NodeId :=
  doc.grow doc.size (doc.children id)

/-! ## Look-ups behind a change -/

@[simp] theorem size_modify (doc : Document) (id : NodeId) (f : Node → Node) :
    (doc.modify id f).size = doc.size := by
  simp [size, modify]

@[simp] theorem size_add (doc : Document) (node : Node) : (doc.add node).size = doc.size + 1 := by
  simp [size, add]

theorem node_modify (doc : Document) (id other : NodeId) (f : Node → Node) :
    (doc.modify id f).node other =
      if other = id ∧ id < doc.size then f (doc.node id) else doc.node other := by
  simp only [node, modify, size, Array.getElem?_modify]
  by_cases h : id = other
  · subst h
    by_cases hlt : id < doc.nodes.size
    · simp [hlt]
    · simp [hlt]
  · simp [h, Ne.symm h]

theorem node_add (doc : Document) (added : Node) (id : NodeId) :
    (doc.add added).node id = if id = doc.size then added else doc.node id := by
  by_cases h : id = doc.nodes.size
  · simp [node, add, size, h]
  · simp [node, add, size, Array.getElem?_push, h]

theorem node_of_size_le {doc : Document} {id : NodeId} (h : doc.size ≤ id) :
    doc.node id = absent := by
  simp [node, Array.getElem?_eq_none (show doc.nodes.size ≤ id from h)]

end Document

end Stylesheet
