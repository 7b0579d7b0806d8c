import Stylesheet.Print.Fragment

/-!
# Source mappings

A `Mapping` ties a place in a printed text to the place in the source that its node was read from.
There is one for each fragment that belongs to a node. The place in the printed text is counted
along while the fragments are gone through (`ofFragments_append`).
-/

namespace Stylesheet

/-- The place where a fragment of a node was printed, and the place that the node was read
from. -/
structure Mapping where
  generated : Position
  node : NodeId
  boundary : Option Boundary := none
  origin : Option Position := none
  deriving Repr, DecidableEq

/-- `o.edge boundary` is where a node was read from: its end for a fragment that ends the node, if
it has one, and else its start. -/
def Origin.edge (o : Origin) : Option Boundary → Position
  | some .stop => o.stop.getD o.start
  | some .start | none => o.start

namespace Mapping

/-- `ofFragment doc p fragment` is the mapping of a fragment that is printed at `p`. -/
def ofFragment (doc : Document) (p : Position) (fragment : Fragment) : Option Mapping :=
  fragment.node.map fun id ↦
    ⟨p, id, fragment.boundary, (doc.node id).origin.map (·.edge fragment.boundary)⟩

/-- `ofFragments doc p fragments` are the mappings of fragments that are printed from `p` on. -/
def ofFragments (doc : Document) (p : Position) : List Fragment → List Mapping
  | [] => []
  | fragment :: rest =>
      (ofFragment doc p fragment).toList ++ ofFragments doc (p.advanceText fragment.text) rest

/-- Behind some fragments the printed place is the one that is reached by reading their text. -/
theorem ofFragments_append (doc : Document) (p : Position) (first second : List Fragment) :
    ofFragments doc p (first ++ second) =
      ofFragments doc p first ++
        ofFragments doc (p.advanceText (first.flatMap (·.text))) second := by
  induction first generalizing p with
  | nil => rfl
  | cons fragment rest ih => simp [ofFragments, ih, Position.advanceText_append]

end Mapping

end Stylesheet
