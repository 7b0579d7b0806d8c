import Stylesheet.Document.Basic

/-!
# Numbering a forest of nodes

`Forest.number` turns a forest of nodes into a piece of a document. The nodes get consecutive
numbers in document order and are linked to each other; the links that they had before are
dropped. A document is made from a forest in this way, and `Document.copy` copies a part of a
document by numbering it again behind the end. `length_number` says that no node is lost, and
`tops_number_of_nil` and `tops_number_cons` give the numbers of the top nodes.
-/

namespace Stylesheet

/-- `n.link parent children` has these links. A node without a block gets no children. -/
def Node.link (n : Node) (parent : Option NodeId) (children : List NodeId) : Node :=
  { n with parent, children := n.children.map fun _ ↦ children }

namespace Forest

/-- `number parent next f` lays out the nodes of `f` with numbers from `next` on. It computes the
nodes, linked to each other and to the parent of the top nodes, and the numbers of the top
nodes. -/
def number (parent : Option NodeId) (next : NodeId) : Forest Node → List Node × List NodeId
  | nil => ([], [])
  | cons node below rest =>
      let (belowNodes, children) := number (some next) (next + 1) below
      let (restNodes, tops) := number parent (next + 1 + below.size) rest
      (node.link parent children :: (belowNodes ++ restNodes), next :: tops)

@[simp] theorem length_number (parent : Option NodeId) (next : NodeId) (f : Forest Node) :
    (number parent next f).1.length = f.size := by
  induction f generalizing parent next with
  | nil => rfl
  | cons node below rest ihBelow ihRest =>
      simp [number, size, ihBelow, ihRest]

@[simp] theorem tops_number_of_nil (parent : Option NodeId) (next : NodeId) :
    (number parent next nil).2 = [] := rfl

@[simp] theorem tops_number_cons (parent : Option NodeId) (next : NodeId) (node : Node)
    (below rest : Forest Node) :
    (number parent next (cons node below rest)).2 =
      next :: (number parent (next + 1 + below.size) rest).2 := rfl

end Forest

namespace Document

/-- `ofForest source mode tree` is the document that has the nodes of `tree`, numbered from
zero. -/
def ofForest (source : Source) (mode : Mode) (tree : Forest Node) : Document :=
  { nodes := (tree.number none 0).1.toArray, source, mode }

/-- `doc.treeAt id` is the tree of nodes that a node is the top of. -/
def treeAt (doc : Document) (id : NodeId) : Forest Node :=
  .cons (doc.node id) ((doc.below id).map doc.node) .nil

/-- `doc.copy id` has a detached copy of a node and of all that is below it. The copy gets the
numbers from the old size on. -/
def copy (doc : Document) (id : NodeId) : Document :=
  { doc with nodes := doc.nodes ++ ((doc.treeAt id).number none doc.size).1.toArray }

@[simp] theorem size_ofForest (source : Source) (mode : Mode) (tree : Forest Node) :
    (ofForest source mode tree).size = tree.size := by
  simp [ofForest, size]

@[simp] theorem size_copy (doc : Document) (id : NodeId) :
    (doc.copy id).size = doc.size + (doc.below id).size + 1 := by
  simp [copy, size, treeAt, Forest.size, Nat.add_assoc]

end Document

end Stylesheet
