import Stylesheet.Print.Style

/-!
# Layout

A `Layout` answers how a node of a document is to be written: the text before it, between its
parts and before its end, and whether its last child ends with a semicolon. What the node has
recorded comes first. A raw that it lacks is inferred, in this order, from the nearest sibling
before it of the same sort that recorded the raw, from the indentation of the block around it,
from the style of the document, and from the `Defaults`. Of the text of other nodes only the blank
characters are taken, and the colons where one is needed; the empty body of another block is taken
as it is.
-/

namespace Stylesheet

/-! ## What a node shows to the siblings behind it -/

namespace Document

/-- `doc.shownBefore id` is the text that a node shows before itself. What stands before the first
node of a root is not shown. -/
def shownBefore (doc : Document) (id : NodeId) : Option Text :=
  if doc.isFirstOfRoot id then none else (doc.node id).raws.before.map Text.blanks

/-- `doc.shownEmptyBody id` is the text that a node shows in a block without children. -/
def shownEmptyBody (doc : Document) (id : NodeId) : Option Text :=
  let node := doc.node id
  if node.hasBlock && node.childList.isEmpty then node.raws.after else none

/-- `doc.shownBeforeClose id` is the text that a node shows behind its last child. -/
def shownBeforeClose (doc : Document) (id : NodeId) : Option Text :=
  let node := doc.node id
  if node.childList.isEmpty then none else node.raws.after.map Text.blanks

/-- `doc.shownColon id` is the text that a declaration shows between its property and its
value. -/
def shownColon (doc : Document) (id : NodeId) : Option Text :=
  (doc.node id).raws.between.map Text.colons

/-- `doc.shownBeforeOpen id` is the text that a node shows before the brace that opens its
block. -/
def shownBeforeOpen (doc : Document) (id : NodeId) : Option Text :=
  if (doc.node id).hasBlock then (doc.node id).raws.between.map Text.blanks else none

/-- `doc.shownEdge side id` is the text that a comment shows at one of its edges. -/
def shownEdge (side : Raws → Option Text) (doc : Document) (id : NodeId) : Option Text :=
  (side (doc.node id).raws).map Text.blanks

end Document

/-- The layout of a document that shows none. -/
structure Defaults where
  indent : Text := "  ".toList
  colon : Text := ": ".toList
  beforeOpen : Text := " ".toList
  emptyBody : Text := []
  commentLeft : Text := " ".toList
  commentRight : Text := " ".toList
  semicolon : Bool := false
  deriving Repr, DecidableEq

/-- A document to be written with its style, and the defaults behind it. -/
structure Layout where
  document : Document
  defaults : Defaults
  style : Style

namespace Layout

/-- `l.raws id` is what a node has recorded. -/
def raws (l : Layout) (id : NodeId) : Raws := (l.document.node id).raws

/-- The text that one level is indented by. -/
def indent (l : Layout) : Text :=
  (l.style.text .indent).getD l.defaults.indent

/-- `l.indentation depth` is the text that `depth` levels are indented by. -/
def indentation (l : Layout) (depth : Nat) : Text :=
  (List.replicate depth l.indent).flatten

/-- `l.reindent text depth` replaces what follows the last line feed by the indentation of a
depth. -/
def reindent (l : Layout) (text : Text) (depth : Nat) : Text :=
  match Text.splitLastLine text with
  | some (lines, _) => lines ++ l.indentation depth
  | none => text

/-- `l.newline aspect depth` is the text that starts a line at a depth, as the document shows
it. -/
def newline (l : Layout) (aspect : Aspect) (depth : Nat) : Text :=
  l.reindent ((l.style.text aspect).getD ['\n']) depth

/-- `l.lineIndent id` is the indentation of the line that a node starts on, if the node has
recorded that it starts on a line of its own. -/
def lineIndent (l : Layout) (id : NodeId) : Option Text :=
  (l.raws id).before.bind Text.lineIndent

/-- `l.fromSibling id pick` is what `pick` takes from the nearest sibling before a node that is of
the same sort and has something to take. -/
def fromSibling {α : Type} (l : Layout) (id : NodeId) (pick : NodeId → Option α) : Option α :=
  let sort := l.document.type id
  ((l.document.earlier id).filter fun s ↦ l.document.type s == sort).findSome? pick

/-! ## The text before a node -/

/-- `l.inferBefore id` is the text before a node that has recorded none. -/
def inferBefore (l : Layout) (id : NodeId) : Text :=
  match l.document.parent id with
  | none => []
  | some parent =>
      if l.document.isFirstOfRoot id then []
      else
        match l.fromSibling id l.document.shownBefore, l.lineIndent parent with
        | some text, _ => text
        | none, some outer => '\n' :: outer ++ l.indent
        | none, none => l.newline (.before (l.document.type id)) (l.document.depth id)

/-- `l.before id` is the text before a node. -/
def before (l : Layout) (id : NodeId) : Text :=
  (l.raws id).before.getD (l.inferBefore id)

/-! ## The text before the end of a block -/

/-- `l.inferEmptyBody id` is the text in a block without children that has recorded none. -/
def inferEmptyBody (l : Layout) (id : NodeId) : Text :=
  (l.fromSibling id l.document.shownEmptyBody <|> l.style.text .emptyBody).getD
    l.defaults.emptyBody

/-- `l.inferBeforeClose id` is the text behind the last child of a block that has recorded
none. -/
def inferBeforeClose (l : Layout) (id : NodeId) : Text :=
  match l.fromSibling id l.document.shownBeforeClose, l.lineIndent id with
  | some text, _ => text
  | none, some own => '\n' :: own
  | none, none => l.newline .beforeClose (l.document.depth id)

/-- `l.after id` is the text before the end of a block. -/
def after (l : Layout) (id : NodeId) : Text :=
  match (l.raws id).after with
  | some text => text
  | none =>
      if l.document.type id = .root then []
      else if (l.document.children id).isEmpty then l.inferEmptyBody id
      else l.inferBeforeClose id

/-! ## The text between the parts of a node -/

/-- `l.inferColon id` is the text between the property and the value of a declaration that has
recorded none. -/
def inferColon (l : Layout) (id : NodeId) : Text :=
  (l.fromSibling id l.document.shownColon <|> l.style.text .colon).getD l.defaults.colon

/-- `l.inferBeforeOpen id` is the text before the opening brace of a node that has recorded
none. -/
def inferBeforeOpen (l : Layout) (id : NodeId) : Text :=
  (l.fromSibling id l.document.shownBeforeOpen <|> l.style.text .beforeOpen).getD
    l.defaults.beforeOpen

/-- `l.between id` is the text between the head of a node and its block or value. A node without a
block that has recorded none has none. -/
def between (l : Layout) (id : NodeId) : Text :=
  match (l.raws id).between with
  | some text => text
  | none =>
      match l.document.type id with
      | .root | .comment => []
      | .declaration => l.inferColon id
      | _ => if (l.document.node id).hasBlock then l.inferBeforeOpen id else []

/-! ## The semicolon behind the last child -/

/-- `l.semicolon id` says that the last child of a node ends with a semicolon if it can have
one. -/
def semicolon (l : Layout) (id : NodeId) : Bool :=
  match (l.raws id).semicolon with
  | some flag => flag
  | none =>
      if l.document.type id = .root then l.defaults.semicolon
      else
        (l.fromSibling id l.document.semicolonSample <|> l.style.semicolon).getD
          l.defaults.semicolon

/-! ## The edges of a comment -/

/-- `l.edge side aspect fallback id` is the text at one edge of a comment. -/
def edge (l : Layout) (side : Raws → Option Text) (aspect : Aspect) (fallback : Text)
    (id : NodeId) : Text :=
  (side (l.raws id)).getD
    ((l.fromSibling id (l.document.shownEdge side) <|> l.style.text aspect).getD fallback)

/-- `l.commentLeft id` is the text at the start of a comment. -/
def commentLeft (l : Layout) (id : NodeId) : Text :=
  l.edge Raws.left .commentLeft l.defaults.commentLeft id

/-- `l.commentRight id` is the text at the end of a comment. -/
def commentRight (l : Layout) (id : NodeId) : Text :=
  l.edge Raws.right .commentRight l.defaults.commentRight id

end Layout

end Stylesheet
