import Stylesheet.Node.Kind
import Stylesheet.Node.Raws
import Stylesheet.Position

/-!
# Nodes

A `Node` has a kind, its recorded layout, the place in the source that it was read from, and its
links in a document: the parent and, if it has a block, the children. A `Setting` gives one
property of a kind another text; `Node.set?` carries it out and drops the written form that
belonged to the old text, so that no cache is stale behind it (`staleCache_set?`).
-/

namespace Stylesheet

/-- The number of a node in its document. -/
abbrev NodeId := Nat

/-- Where a node was read from. -/
structure Origin where
  start : Position
  stop : Option Position := none
  deriving Repr, DecidableEq, Inhabited

/-- A node of a document. `children` is `none` for a node without a block. -/
structure Node where
  kind : Kind
  raws : Raws := {}
  origin : Option Origin := none
  parent : Option NodeId := none
  children : Option (List NodeId) := none
  deriving Repr, DecidableEq, Inhabited

namespace Node

/-- A new node of this kind, which nothing links to. -/
def ofKind (kind : Kind) : Node :=
  { kind, children := if kind.startsWithBlock then some [] else none }

/-- The sort of the node. -/
def type (n : Node) : NodeType := n.kind.type

/-- The node has a block, which may be empty. -/
def hasBlock (n : Node) : Bool := n.children.isSome

/-- The children of the node; there are none without a block. -/
def childList (n : Node) : List NodeId := n.children.getD []

/-- `n.openBlock` has a block, an empty one if `n` had none. -/
def openBlock (n : Node) : Node :=
  { n with children := some n.childList }

/-- `n.mapRaws f` changes the recorded layout. -/
def mapRaws (f : Raws → Raws) (n : Node) : Node :=
  { n with raws := f n.raws }

/-- `n.stopAt stop` ends the place that the node was read from. A node that was not read from
anywhere has no such place. -/
def stopAt (stop : Position) (n : Node) : Node :=
  { n with origin := n.origin.map fun origin ↦ { origin with stop := some stop } }

/-- `n.cacheOf` is the written form that belongs to the kind of the node, with the text that it
should belong to. -/
def cacheOf (n : Node) : Option (CachedRaw × Text) :=
  match n.kind with
  | .rule selector => some (.selector, selector)
  | .declaration _ value _ | .other _ _ value => some (.value, value)
  | .atRule _ params => some (.params, params)
  | .root | .comment _ => none

/-- `n.staleCache` is the written form that belongs to the kind of the node but to another text
than the one that the node has. -/
def staleCache (n : Node) : Option CachedRaw :=
  match n.cacheOf with
  | some (raw, text) => if (n.raws.cache raw).all (·.value = text) then none else some raw
  | none => none

end Node

/-- Another text, or another mark, for one property of a node. -/
inductive Setting where
  | selector (text : Text)
  | property (text : Text)
  | value (text : Text)
  | important (mark : Bool)
  | name (text : Text)
  | params (text : Text)
  | text (text : Text)
  | head (text : Text)
  deriving Repr, DecidableEq

namespace Setting

/-- The sort of node that has the property. A value and a name belong to dialect nodes as well. -/
def expected : Setting → NodeType
  | selector _ => .rule
  | property _ | value _ | important _ => .declaration
  | name _ | params _ => .atRule
  | text _ => .comment
  | head _ => .other

/-- `s.kind? kind` is the kind with the property set, or `none` if it has no such property. -/
def kind? : Setting → Kind → Option Kind
  | selector new, .rule _ => some (.rule new)
  | property new, .declaration _ v mark => some (.declaration new v mark)
  | value new, .declaration p _ mark => some (.declaration p new mark)
  | value new, .other n h _ => some (.other n h new)
  | important new, .declaration p v _ => some (.declaration p v new)
  | name new, .atRule _ p => some (.atRule new p)
  | name new, .other _ h v => some (.other new h v)
  | params new, .atRule n _ => some (.atRule n new)
  | Setting.text new, .comment _ => some (.comment new)
  | head new, .other n _ v => some (.other n new v)
  | _, _ => none

/-- `s.raws r` drops the written form of the property from the recorded layout. -/
def raws : Setting → Raws → Raws
  | selector _, r => { r with selector := none }
  | value _, r => { r with value := none }
  | params _, r => { r with params := none }
  | important false, r => { r with important := none }
  | _, r => r

end Setting

/-- `n.set? s` sets a property of the node, or is `none` if the node has no such property. -/
def Node.set? (n : Node) (s : Setting) : Option Node :=
  (s.kind? n.kind).map fun kind ↦ { n with kind, raws := s.raws n.raws }

/-- A setting leaves no stale written form where there was none. -/
theorem Node.staleCache_set? {n changed : Node} {s : Setting} (h : n.set? s = some changed)
    (hn : n.staleCache = none) : changed.staleCache = none := by
  obtain ⟨kind, hkind, rfl⟩ := Option.map_eq_some_iff.mp h
  obtain ⟨nodeKind, raws, origin, parent, children⟩ := n
  cases s with
  | selector _ | value _ | params _ =>
      cases nodeKind <;> cases hkind <;> rfl
  | important mark =>
      cases mark <;> cases nodeKind <;> cases hkind <;> exact hn
  | property _ | name _ | text _ | head _ =>
      cases nodeKind <;> cases hkind <;> exact hn

end Stylesheet
