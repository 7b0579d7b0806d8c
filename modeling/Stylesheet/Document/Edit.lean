import Stylesheet.Document.Numbering
import Stylesheet.Document.Walk

/-!
# Editing a document

An `Edit` changes a document and may be refused. The document is kept when an edit is refused,
with whatever has been done to it by then, so that "a refused edit changes nothing" is a fact
about each edit and not about the type. The edits that move a node are made of three steps on a
document: `unlink` takes a node out of its place, `link` puts one into a place, and `forgetLayout`
drops the layout that a node recorded for the place it leaves.
-/

namespace Stylesheet

/-- Why an edit is refused. -/
inductive EditError where
  /-- The document has no such node. -/
  | noSuchNode (node : NodeId)
  /-- Declarations and comments have no children. -/
  | notAContainer (node : NodeId) (type : NodeType)
  /-- A root stands below no other node. -/
  | cannotInsertRoot
  /-- The node would become its own ancestor. -/
  | wouldCycle (node parent : NodeId)
  /-- The place is behind the end of the children. -/
  | indexOutOfBounds (index length : Nat)
  /-- The node has no parent. -/
  | detached (node : NodeId)
  /-- The node has no such property. -/
  | kindMismatch (expected found : NodeType)
  deriving Repr, DecidableEq

/-- `showNode id` writes the number of a node. -/
def showNode (id : NodeId) : String := s!"#{id}"

/-- The message of a refusal. -/
def EditError.message : EditError → String
  | noSuchNode node => s!"no node {node}"
  | notAContainer node type => s!"{type.name} node {showNode node} cannot have children"
  | cannotInsertRoot => "a root node cannot be inserted"
  | wouldCycle node parent =>
      s!"inserting {showNode node} into {showNode parent} would make it its own ancestor"
  | indexOutOfBounds index length => s!"index {index} out of bounds for {length} children"
  | detached node => s!"node {showNode node} has no parent"
  | kindMismatch expected found => s!"expected a {expected.name} node, found {found.name}"

namespace Document

/-! ## Steps -/

/-- `doc.unlink id` takes a node out of the children of its parent. -/
def unlink (doc : Document) (id : NodeId) : Document :=
  match doc.parent id with
  | none => doc
  | some parent =>
      (doc.modify id fun n ↦ { n with parent := none }).modify parent fun n ↦
        { n with children := n.children.map (·.filter (· ≠ id)) }

/-- `doc.link parent index child` puts a node without a parent at a place among the children of
`parent`, which gets a block if it has none. -/
def link (doc : Document) (parent : NodeId) (index : Nat) (child : NodeId) : Document :=
  (doc.modify parent
    fun n ↦ { n with children := some (n.childList.insertIdx index child) }).modify
    child fun n ↦ { n with parent := some parent }

/-- `doc.forgetPlaces ids` drops the text before and after these nodes. -/
def forgetPlaces (doc : Document) (ids : List NodeId) : Document :=
  ids.foldl (fun doc id ↦ doc.modify id (Node.mapRaws Raws.forgetPlace)) doc

/-- `doc.childDepth parent` is the depth of the children of a node. -/
def childDepth (doc : Document) (parent : NodeId) : Nat :=
  doc.depth parent + if doc.type parent = .root then 0 else 1

/-- `doc.forgetLayout child old new` drops the layout that depends on the parent of `child`, which
moves from `old` to `new`. If its depth changes, so does the depth of all that is below it. -/
def forgetLayout (doc : Document) (child old new : NodeId) : Document :=
  if doc.childDepth old = doc.childDepth new then doc.forgetPlaces [child]
  else doc.forgetPlaces (child :: doc.walk child)

/-- `doc.release parent child` takes a node out of its place so that it can be put under
`parent`. -/
def release (doc : Document) (parent child : NodeId) : Document :=
  match doc.parent child with
  | none => doc
  | some old => (if old = parent then doc else doc.forgetLayout child old parent).unlink child

/-- `doc.clear parent` detaches all children of a node. Its block stays. -/
def clear (doc : Document) (parent : NodeId) : Document :=
  let orphaned := (doc.children parent).foldl
    (fun doc child ↦ doc.modify child fun n ↦ { n with parent := none }) doc
  orphaned.modify parent fun n ↦ { n with children := n.children.map fun _ ↦ [] }

/-- `doc.cleanRaws id keepBetween` drops the layout of a node and of all that is below it, but
keeps the text between head and body if told so. -/
def cleanRaws (doc : Document) (id : NodeId) (keepBetween : Bool) : Document :=
  (id :: doc.walk id).foldl (fun doc id ↦ doc.modify id (Node.mapRaws fun raws ↦
    { raws.forgetPlace with between := if keepBetween then raws.between else none })) doc

/-- `doc.staleCaches` lists the written forms in the attached document that belong to another text
than their node has. -/
def staleCaches (doc : Document) : List (NodeId × CachedRaw) :=
  (root :: doc.walk root).filterMap fun id ↦ (doc.node id).staleCache.map (id, ·)

/-- `doc.recover recovery` records a repair, also with the node that it names. -/
def recover (doc : Document) (recovery : Recovery) : Document :=
  let doc := { doc with recoveries := doc.recoveries ++ [recovery] }
  match recovery.node with
  | some id =>
      doc.modify id (Node.mapRaws fun raws ↦
        { raws with damage := raws.damage ++ [recovery.damage] })
  | none => doc

end Document

/-- The message that lists written forms which belong to another text than their node has. -/
def staleMessage (stale : List (NodeId × CachedRaw)) : String :=
  "stale raw caches:" ++
    String.join (stale.map fun (id, raw) ↦ s!" {showNode id}." ++ raw.key)

/-- A change of a document that may be refused. -/
abbrev Edit := ExceptT EditError (StateM Document)

namespace Edit

/-- `edit.apply doc` carries out an edit. It computes the answer or the refusal and the document
behind it. -/
def apply {α : Type} (edit : Edit α) (doc : Document) : Except EditError α × Document :=
  edit.run.run doc

/-- `require id` refuses a number that is no node of the document. -/
def require (id : NodeId) : Edit Unit := do
  unless (← get).contains id do
    throw (.noSuchNode id)

/-- `create kind` adds a detached node and computes its number. -/
def create (kind : Kind) : Edit NodeId := do
  let doc ← get
  set (doc.add (Node.ofKind kind))
  return doc.size

/-- `copy id` adds a detached copy of a node with all that is below it and computes its number. -/
def copy (id : NodeId) : Edit NodeId := do
  require id
  let doc ← get
  set (doc.copy id)
  return doc.size

/-- `requireContainer id` refuses a node that cannot have children. -/
def requireContainer (id : NodeId) : Edit Unit := do
  let node := (← get).node id
  unless node.kind.canContain do
    throw (.notAContainer id node.type)

/-- `openBlock id` gives a node an empty block if it has none. -/
def openBlock (id : NodeId) : Edit Unit := do
  require id
  requireContainer id
  modify (·.modify id Node.openBlock)

/-- `requireInsertable parent child` refuses a `child` that cannot stand below `parent`. -/
def requireInsertable (parent child : NodeId) : Edit Unit := do
  requireContainer parent
  let doc ← get
  if child = Document.root ∨ doc.type child = .root then
    throw .cannotInsertRoot
  if child = parent ∨ child ∈ doc.ancestors parent then
    throw (.wouldCycle child parent)

/-- `insert parent index child` puts a node at a place among the children of `parent`. The places
are counted without the node itself. -/
def insert (parent : NodeId) (index : Nat) (child : NodeId) : Edit Unit := do
  require parent
  require child
  requireInsertable parent child
  let doc ← get
  let length := (doc.children parent).length - if doc.parent child = some parent then 1 else 0
  if length < index then
    throw (.indexOutOfBounds index length)
  set ((doc.release parent child).link parent index child)

/-- `append parent child` puts a node behind the children of `parent`. -/
def append (parent child : NodeId) : Edit Unit := do
  let doc ← get
  let length := (doc.children parent).length - if doc.parent child = some parent then 1 else 0
  insert parent length child

/-- `prepend parent child` puts a node before the children of `parent`. -/
def prepend (parent child : NodeId) : Edit Unit :=
  insert parent 0 child

/-- `moveTo child parent index` puts a node at a place among the children of `parent`. -/
def moveTo (child parent : NodeId) (index : Nat) : Edit Unit := do
  require child
  insert parent index child

/-- `insertBeside skip sibling child` puts a node next to a sibling, `skip` places behind it. -/
def insertBeside (skip : Nat) (sibling child : NodeId) : Edit Unit := do
  require sibling
  require child
  let some parent := (← get).parent sibling | throw (.detached sibling)
  unless child = sibling do
    requireInsertable parent child
    modify (·.release parent child)
    let some index := (← get).indexOf? sibling | throw (.detached sibling)
    insert parent (index + skip) child

/-- `insertBefore sibling child` puts a node directly before a sibling. -/
def insertBefore (sibling child : NodeId) : Edit Unit :=
  insertBeside 0 sibling child

/-- `insertAfter sibling child` puts a node directly behind a sibling. -/
def insertAfter (sibling child : NodeId) : Edit Unit :=
  insertBeside 1 sibling child

/-- `remove id` detaches a node. -/
def remove (id : NodeId) : Edit Unit := do
  require id
  if id = Document.root then
    throw .cannotInsertRoot
  modify (·.unlink id)

/-- `removeAll parent` detaches all children of a node. -/
def removeAll (parent : NodeId) : Edit Unit := do
  require parent
  modify (·.clear parent)

/-- `replace old new` puts a node in the place of another one, which is detached. -/
def replace (old new : NodeId) : Edit Unit := do
  require old
  require new
  unless old = new do
    if (← get).parent old = none then
      throw (.detached old)
    insertBefore old new
    modify (·.unlink old)

/-- `assign id setting` sets a property of a node. -/
def assign (id : NodeId) (setting : Setting) : Edit Unit := do
  require id
  let node := (← get).node id
  let some changed := node.set? setting | throw (.kindMismatch setting.expected node.type)
  modify (·.modify id fun _ ↦ changed)

/-- `setKind id kind` overwrites the kind of a node. Its layout, its block and its links stay. -/
def setKind (id : NodeId) (kind : Kind) : Edit Unit := do
  require id
  modify (·.modify id fun n ↦ { n with kind })

/-- `setRaws id f` changes the recorded layout of a node. -/
def setRaws (id : NodeId) (f : Raws → Raws) : Edit Unit := do
  require id
  modify (·.modify id (Node.mapRaws f))

/-- `copyOrigin id other` lets a node have been read from where another one was. -/
def copyOrigin (id other : NodeId) : Edit Unit := do
  require id
  require other
  let origin := ((← get).node other).origin
  modify (·.modify id fun n ↦ { n with origin })

/-- `cleanRaws id keepBetween` drops the layout of a node and of all that is below it. -/
def cleanRaws (id : NodeId) (keepBetween : Bool) : Edit Unit := do
  require id
  modify (·.cleanRaws id keepBetween)

/-- `setMode mode` sets the mode that the document is said to be read in. -/
def setMode (mode : Mode) : Edit Unit :=
  modify ({ · with mode })

/-- `recover recovery` records a repair. -/
def recover (recovery : Recovery) : Edit Unit := do
  recovery.node.forM require
  modify (·.recover recovery)

end Edit

end Stylesheet
