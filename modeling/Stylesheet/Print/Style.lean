import Stylesheet.Document.Walk

/-!
# The style of a document

An `Aspect` is one thing about layout that a document can show, such as the text between a
property and its value. `Document.sample` is what a single node shows of it. A `Style` says what
the document shows: for each aspect what its first node to show anything shows. `Style.scan` looks
an aspect up in the document whenever it is asked, and `Style.collect` goes through the document
once and keeps what it finds.
-/

namespace Stylesheet

/-- What a document can show about layout. -/
inductive Aspect where
  | beforeDeclaration
  | beforeComment
  | beforeRule
  | beforeClose
  | emptyBody
  | colon
  | beforeOpen
  | commentLeft
  | commentRight
  | indent
  deriving Repr, DecidableEq

namespace Aspect

/-- All aspects. -/
def all : List Aspect :=
  [beforeDeclaration, beforeComment, beforeRule, beforeClose, emptyBody, colon, beforeOpen,
    commentLeft, commentRight, indent]

/-- `before type` is the aspect of the text before a node of a sort. Rules, at-rules and dialect
nodes share one. -/
def before : NodeType → Aspect
  | .declaration => beforeDeclaration
  | .comment => beforeComment
  | _ => beforeRule

end Aspect

namespace Text

/-- `colons text` keeps only the colons and the blank characters of a text. -/
def colons (text : Text) : Text :=
  text.filter fun c ↦ c.isBlank || c == ':'

/-- `newlinePart text` keeps only the blank characters of a text up to the last line feed. -/
def newlinePart (text : Text) : Text :=
  throughLastNewline (blanks text)

end Text

namespace Document

/-- `doc.beforeSample aspect id` is the text that a node shows before itself. What stands before
the first node of a root is no sample. -/
def beforeSample (doc : Document) (aspect : Aspect) (id : NodeId) : Option Text :=
  if Aspect.before (doc.type id) ≠ aspect ∨ doc.isFirstOfRoot id then none
  else (doc.node id).raws.before.map Text.newlinePart

/-- `doc.sample aspect id` is what a node shows about an aspect. -/
def sample (doc : Document) (aspect : Aspect) (id : NodeId) : Option Text :=
  let node := doc.node id
  let isEmpty := node.childList.isEmpty
  match aspect with
  | .beforeDeclaration | .beforeComment | .beforeRule => doc.beforeSample aspect id
  | .beforeClose => if isEmpty then none else node.raws.after.map Text.newlinePart
  | .emptyBody => if node.hasBlock && isEmpty then node.raws.after else none
  | .colon => if node.type = .declaration then node.raws.between.map Text.colons else none
  | .beforeOpen => if node.hasBlock then node.raws.between.map Text.blanks else none
  | .commentLeft => if node.type = .comment then node.raws.left.map Text.blanks else none
  | .commentRight => if node.type = .comment then node.raws.right.map Text.blanks else none
  | .indent => if doc.depth id = 1 then node.raws.before.bind Text.lineIndent else none

/-- `doc.endsWithDeclaration id` says that the last child of a node is a declaration. -/
def endsWithDeclaration (doc : Document) (id : NodeId) : Bool :=
  (doc.children id).getLast?.any fun child ↦ doc.type child == .declaration

/-- `doc.semicolonSample id` is what a node shows about the semicolon behind its last
declaration. -/
def semicolonSample (doc : Document) (id : NodeId) : Option Bool :=
  if doc.endsWithDeclaration id then (doc.node id).raws.semicolon else none

end Document

/-- What a document shows about layout. -/
structure Style where
  text : Aspect → Option Text
  semicolon : Option Bool

namespace Style

/-- `scan doc top` is the style of the nodes under `top`, looked up in the document for each
aspect. -/
def scan (doc : Document) (top : NodeId) : Style where
  text aspect := (doc.walk top).findSome? (doc.sample aspect)
  semicolon := (doc.walk top).findSome? doc.semicolonSample

end Style

/-- What has been found about the style of a document. -/
structure Findings where
  texts : List (Aspect × Text) := []
  semicolon : Option Bool := none
  deriving Repr, DecidableEq

namespace Findings

/-- `f.text aspect` is what has been found about an aspect. -/
def text (f : Findings) (aspect : Aspect) : Option Text :=
  f.texts.lookup aspect

/-- `f.note aspect sample` keeps a sample of an aspect about which nothing has been found. -/
def note (f : Findings) (aspect : Aspect) (sample : Option Text) : Findings :=
  match f.text aspect, sample with
  | none, some text => { f with texts := (aspect, text) :: f.texts }
  | _, _ => f

/-- `f.noteNode doc id` keeps what a node shows. -/
def noteNode (doc : Document) (f : Findings) (id : NodeId) : Findings :=
  let noted := Aspect.all.foldl (fun f aspect ↦ f.note aspect (doc.sample aspect id)) f
  { noted with semicolon := noted.semicolon <|> doc.semicolonSample id }

end Findings

/-- `Style.collect doc top` is the style of the nodes under `top`, kept from one pass through the
document. -/
def Style.collect (doc : Document) (top : NodeId) : Style :=
  let found := (doc.walk top).foldl (Findings.noteNode doc) {}
  { text := found.text, semicolon := found.semicolon }

end Stylesheet
