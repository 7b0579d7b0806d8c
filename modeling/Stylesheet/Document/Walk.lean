import Stylesheet.Document.Basic

/-!
# Walking a document

`Document.walk` visits the nodes under a node in document order. It keeps the nodes that are still
to be visited on a stack: the next one is taken off, and its children are put in its place.
-/

namespace Stylesheet

namespace Document

/-- `doc.visit steps stack` are the first `steps` nodes that are visited when `stack` is still to
be visited with all that is under it. -/
def visit (doc : Document) : Nat → List NodeId → List NodeId
  | 0, _ => []
  | _, [] => []
  | steps + 1, id :: stack => id :: doc.visit steps (doc.children id ++ stack)

/-- `doc.walk id` are the nodes under a node, each before its children and the children in order.
No more of them are visited than the document has nodes. -/
def walk (doc : Document) (id : NodeId) : List NodeId :=
  doc.visit doc.size (doc.children id)

/-- `doc.walkType type` are the nodes of a sort under the root, in document order. -/
def walkType (doc : Document) (type : NodeType) : List NodeId :=
  (doc.walk root).filter fun id ↦ doc.type id == type

end Document

end Stylesheet
