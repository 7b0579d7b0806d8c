import Stylesheet.Print.Fragment
import Stylesheet.Print.Layout

/-!
# Printing

A `Printer` writes the nodes of a document as fragments, each node with the layout that a `Layout`
gives it. A node of a dialect is written by the `Renderer` that is registered under its name. A
renderer computes a list of `Directive`s, which the printer carries out. Without a renderer the
node is written from its head and value, or, by a strict printer, refused.

`Printer.forest` is a recursion on the nodes of the document, and `Printer.node` writes one node
around its printed body.
-/

namespace Stylesheet

/-- A step in writing a node of a dialect. -/
inductive Directive where
  /-- Write a fragment. -/
  | push (fragment : Fragment)
  /-- Write the node as a block behind this head. -/
  | block (head : Text)
  /-- Write the children of the node. -/
  | body
  /-- Write the node from its head and value. -/
  | generic (semicolon : Bool)

/-- How the nodes of a dialect are written. A renderer can ask for the layout of any node, and it
is told whether its own node ends with a semicolon. -/
abbrev Renderer := Layout → NodeId → Bool → List Directive

/-- A way to print documents. -/
structure Printer where
  strict : Bool := false
  defaults : Defaults := {}
  renderers : List (Text × Renderer) := []

namespace Layout

/-- `l.block id head body` writes a node with a block behind a head. -/
def block (l : Layout) (id : NodeId) (head : Text) (body : Printed) : Printed :=
  .one ⟨head ++ l.between id ++ ['\x7b'], some id, some .start⟩ ++ body ++ .gap (l.after id) ++
    .one ⟨['\x7d'], some id, some .stop⟩

/-- `semicolonText semicolon` is a semicolon or nothing. -/
def semicolonText (semicolon : Bool) : Text :=
  if semicolon then [';'] else []

/-- `l.leaf id text semicolon` writes a node without a block. -/
def leaf (id : NodeId) (text : Text) (semicolon : Bool) : Printed :=
  .one { text := text ++ semicolonText semicolon, node := some id }

/-- `l.generic id semicolon body` writes a node of a dialect from its head and value. -/
def generic (l : Layout) (id : NodeId) (semicolon : Bool) (body : Printed) : Printed :=
  let node := l.document.node id
  let head := node.kind.head?.getD []
  if node.hasBlock then l.block id head body
  else
    let value := (node.kind.value?.map (RawValue.written node.raws.value)).getD []
    leaf id (head ++ l.between id ++ value) semicolon

/-- `l.carryOut id body directive` is what a directive writes. -/
def carryOut (l : Layout) (id : NodeId) (body : Printed) : Directive → Printed
  | .push fragment => .one fragment
  | .block head => l.block id head body
  | .body => body
  | .generic semicolon => l.generic id semicolon body

/-- `l.root id body` writes a node of the kind root. Its text before the end is never inferred. -/
def root (l : Layout) (id : NodeId) (body : Printed) : Printed :=
  .one ⟨[], some id, some .start⟩ ++ body ++ .gap ((l.raws id).after.getD []) ++
    .one ⟨[], some id, some .stop⟩

/-- `l.rule id selector body` writes a rule, with the semicolon that it owns. -/
def rule (l : Layout) (id : NodeId) (selector : Text) (body : Printed) : Printed :=
  let written := l.block id (RawValue.written (l.raws id).selector selector) body
  match (l.raws id).ownSemicolon with
  | some text => written ++ .one { text }
  | none => written

/-- `l.atRuleHead id name params` is an at-rule up to its parameters. -/
def atRuleHead (l : Layout) (id : NodeId) (name params : Text) : Text :=
  let params := RawValue.written (l.raws id).params params
  let gap := (l.raws id).afterName.getD (if params.isEmpty then [] else [' '])
  '@' :: name ++ gap ++ params

/-- `l.atRule id name params semicolon body` writes an at-rule. -/
def atRule (l : Layout) (id : NodeId) (name params : Text) (semicolon : Bool) (body : Printed) :
    Printed :=
  let head := l.atRuleHead id name params
  if (l.document.node id).hasBlock then l.block id head body
  else leaf id (head ++ l.between id) semicolon

/-- `l.declaration id property value important semicolon` writes a declaration. -/
def declaration (l : Layout) (id : NodeId) (property value : Text) (important semicolon : Bool) :
    Printed :=
  let mark := if important then (l.raws id).important.getD " !important".toList else []
  leaf id (property ++ l.between id ++ RawValue.written (l.raws id).value value ++ mark) semicolon

/-- `l.comment id text` writes a comment. -/
def comment (l : Layout) (id : NodeId) (text : Text) : Printed :=
  leaf id ("/*".toList ++ l.commentLeft id ++ text ++ l.commentRight id ++ "*/".toList) false

end Layout

namespace Printer

/-- `p.register name renderer` writes the dialect nodes of this name with a renderer. -/
def register (p : Printer) (name : Text) (renderer : Renderer) : Printer :=
  { p with renderers := (name, renderer) :: p.renderers }

/-- `p.other l id name semicolon body` writes a node of a dialect. -/
def other (p : Printer) (l : Layout) (id : NodeId) (name : Text) (semicolon : Bool)
    (body : Printed) : Printed :=
  match p.renderers.lookup name with
  | some renderer =>
      (renderer l id semicolon).foldl (fun written directive ↦
        written ++ l.carryOut id body directive) .empty
  | none =>
      if p.strict then .fail (.ofNode l.document id name) else l.generic id semicolon body

/-- `p.node l id semicolon body` writes a node around its body. -/
def node (p : Printer) (l : Layout) (id : NodeId) (semicolon : Bool) (body : Printed) : Printed :=
  match (l.document.node id).kind with
  | .root => l.root id body
  | .atRule name params => l.atRule id name params semicolon body
  | .rule selector => l.rule id selector body
  | .declaration property value important => l.declaration id property value important semicolon
  | .comment text => l.comment id text
  | .other name _ _ => p.other l id name semicolon body

/-- `endsBefore doc rest` says that a node is followed by a sibling that is no comment, so that it
ends with a semicolon if it can have one. -/
def endsBefore (doc : Document) (rest : Forest NodeId) : Bool :=
  rest.tops.any fun id ↦ doc.type id != .comment

/-- `p.forest l semicolon f` writes sibling nodes with what is below them. `semicolon` says that
the last one ends with a semicolon. -/
def forest (p : Printer) (l : Layout) (semicolon : Bool) : Forest NodeId → Printed
  | .nil => .empty
  | .cons id below rest =>
      let body := forest p l (l.semicolon id) below
      .gap (l.before id) ++ p.node l id (endsBefore l.document rest || semicolon) body ++
        forest p l semicolon rest

/-- `p.layout doc id` is the layout for printing a node. The style is that of the whole tree that
the node is in. -/
def layout (p : Printer) (doc : Document) (id : NodeId) : Layout :=
  { document := doc, defaults := p.defaults, style := .collect doc (doc.top id) }

/-- `p.printNode doc id` prints a node with what is below it. -/
def printNode (p : Printer) (doc : Document) (id : NodeId) : Printed :=
  let l := p.layout doc id
  p.node l id false (p.forest l (l.semicolon id) (doc.below id))

/-- `p.print doc` prints a document. -/
def print (p : Printer) (doc : Document) : Printed :=
  p.printNode doc Document.root

end Printer

end Stylesheet
