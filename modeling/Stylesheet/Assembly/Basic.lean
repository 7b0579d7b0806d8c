import Stylesheet.Defect
import Stylesheet.Document.Edit
import Stylesheet.Statement.Basic
import Stylesheet.Statement.Value

/-!
# Assembling a document

An `Assembly` is a document that is being read. Its open containers are `Frame`s, the innermost
one apart from those around it, and each frame holds the finished trees in it. Text between two
statements waits in `spaces` until a node or the end of a block takes it.

A defect goes through `report`, which is the only place where the modes differ in what a defect
does: strict assembly stops, and tolerant assembly records a repair and goes on.
-/

namespace Stylesheet

/-- An open container with its number and the trees that are finished in it, the latest first. -/
structure Frame where
  id : NodeId
  node : Node
  earlier : List (Node × Forest Node) := []
  deriving Repr

namespace Frame

/-- `f.tree` is the container as a finished tree. -/
def tree (f : Frame) : Node × Forest Node :=
  (f.node, Forest.ofRev f.earlier)

/-- `f.adopt tree` has one more finished tree. -/
def adopt (f : Frame) (tree : Node × Forest Node) : Frame :=
  { f with earlier := tree :: f.earlier }

/-- `f.mapNode g` changes the node of the container. -/
def mapNode (g : Node → Node) (f : Frame) : Frame :=
  { f with node := g f.node }

/-- `f.addAfter text` puts text before the end of the container. -/
def addAfter (text : Text) (f : Frame) : Frame :=
  f.mapNode (Node.mapRaws fun raws ↦ { raws with after := some (raws.after.getD [] ++ text) })

/-- `f.settle semicolon spaces` ends the contents of the container with the text that waits. If it
has children, it records whether the last one ended with a semicolon. -/
def settle (semicolon : Bool) (spaces : Text) (f : Frame) : Frame :=
  let noted := if f.earlier.isEmpty then f
    else f.mapNode (Node.mapRaws fun raws ↦ { raws with semicolon := some semicolon })
  noted.addAfter spaces

end Frame

/-- A document that is being read: its source and mode, the innermost open container and those
around it, the number of nodes so far, the text that waits for a node, whether the last statement
ended with a semicolon, and the repairs. -/
structure Assembly where
  source : Source
  mode : Mode
  current : Frame
  enclosing : List Frame := []
  created : Nat := 1
  spaces : Text := []
  semicolon : Bool := false
  recoveries : List Recovery := []
  deriving Repr

namespace Assembly

/-- The assembly of a document of which nothing has been read. -/
def start (source : Source) (mode : Mode) : Assembly :=
  let root := { Node.ofKind .root with origin := some { start := .start } }
  { source, mode, current := { id := Document.root, node := root } }

/-- `a.report defect span node` says that something is wrong, with the node that a repair belongs
to. -/
def report (a : Assembly) (defect : Defect) (span : Span) (node : Option NodeId) :
    Except ParseError Assembly :=
  match a.mode with
  | .strict => .error (ParseError.place a.source defect span)
  | .tolerant =>
      let position := a.source.position span.start
      let recovery : Recovery := ⟨defect.damage, defect.message, position, node⟩
      .ok { a with recoveries := a.recoveries ++ [recovery] }

/-! ## Adding nodes -/

/-- `a.wait text` lets text wait for the next node. -/
def wait (a : Assembly) (text : Text) : Assembly :=
  { a with spaces := a.spaces ++ text }

/-- `a.newNode kind offset` is a node that starts at a byte offset, behind the text that waits. -/
def newNode (a : Assembly) (kind : Kind) (offset : Nat) : Node :=
  { Node.ofKind kind with
    origin := some { start := a.source.position offset }
    raws := { before := some a.spaces } }

/-- `a.stopNode stop node` is a node that ends before a byte offset. -/
def stopNode (a : Assembly) (stop : Nat) (node : Node) : Node :=
  node.stopAt (a.source.endPosition stop)

/-- `a.addLeaf node semicolon` adds a node without children, which has taken the text that
waited. -/
def addLeaf (a : Assembly) (node : Node) (semicolon : Bool) : Assembly :=
  { a with
    current := a.current.adopt (node, .nil)
    created := a.created + 1
    spaces := []
    semicolon }

/-- `a.openFrame node` adds a node whose children follow. -/
def openFrame (a : Assembly) (node : Node) : Assembly :=
  { a with
    current := { id := a.created, node }
    enclosing := a.current :: a.enclosing
    created := a.created + 1
    spaces := []
    semicolon := false }

/-! ## Statements -/

/-- `commentKind text healed` is a comment with the blank text at its two edges. A healed comment
has no end to cut off. -/
def commentKind (text : Text) (healed : Bool) : Kind × Text × Text :=
  let opened := text.drop 2
  let inner := if healed then opened else opened.take (opened.length - 2)
  if (Text.trim inner).isEmpty then (.comment [], inner, [])
  else (.comment (Text.trim inner), Text.blankStart inner, Text.blankEnd inner)

/-- `a.comment t` adds a comment. It does not hide whether a semicolon went before. -/
def comment (a : Assembly) (t : Token) : Assembly :=
  let (kind, left, right) := commentKind t.text t.healed
  let node := a.stopNode t.span.stop (a.newNode kind t.span.start)
  a.addLeaf { node with raws := { node.raws with left := some left, right := some right } }
    a.semicolon

/-- `a.rule head brace` opens a rule. -/
def rule (a : Assembly) (head : List Token) (brace : Token) : Assembly :=
  let (body, trivia) := Token.splitTrailing Token.isTrivia head
  let selector := Value.ofTokens false body
  let node := a.newNode (.rule selector.text) (head.head?.getD brace).span.start
  a.openFrame { node with
    raws := { node.raws with between := some (Token.spelling trivia), selector := selector.raw } }

/-- `ownsSemicolon tree` says that a semicolon behind a finished tree belongs to it: it is a rule
that has none yet. -/
def ownsSemicolon (tree : Node × Forest Node) : Bool :=
  tree.1.type == .rule && tree.1.raws.ownSemicolon.isNone

/-- `a.freeSemicolon t` reads a semicolon between statements. It belongs to the rule before it,
with the text that waits, or waits itself. -/
def freeSemicolon (a : Assembly) (t : Token) : Assembly :=
  match a.current.earlier with
  | tree :: earlier =>
      if ownsSemicolon tree then
        let owner := tree.1.mapRaws fun raws ↦
          { raws with ownSemicolon := some (a.spaces ++ t.text) }
        { a with
          spaces := []
          current := { a.current with earlier := (owner, tree.2) :: earlier } }
      else a.wait t.text
  | [] => a.wait t.text

/-- `a.closeBlock t` ends the innermost open container at a closing brace. -/
def closeBlock (a : Assembly) (t : Token) : Except ParseError Assembly :=
  let settled := a.current.settle a.semicolon a.spaces
  let a := { a with semicolon := false, spaces := [], current := settled }
  match a.enclosing with
  | outer :: enclosing =>
      let closed := settled.mapNode (a.stopNode t.span.stop)
      .ok { a with current := outer.adopt closed.tree, enclosing }
  | [] => do
      let a ← a.report .unexpectedClose t.span (some settled.id)
      return { a with current := a.current.addAfter t.text }

/-- `a.stray tokens` lets tokens wait that are no statement. -/
def stray (a : Assembly) : List Token → Except ParseError Assembly
  | [] => .ok a
  | t :: rest => do
      let a ← a.report (.unknownWord t.text) t.span none
      return a.wait (Token.spelling (t :: rest))

/-- `a.atRule word params ending` adds an at-rule, or opens it if it has a block. -/
def atRule (a : Assembly) (word : Token) (params : List Token) (ending : AtRuleEnd) :
    Except ParseError Assembly := do
  let name := word.text.drop 1
  let a ← if name.isEmpty then a.report .unnamedAtRule word.span (some a.created) else .ok a
  let (body, trivia) := Token.splitTrailing Token.isTrivia params
  let (lead, core) := Token.splitLeading Token.isTrivia body
  let value := Value.ofTokens false core
  let node := a.newNode (.atRule name value.text) word.span.start
  let written (between : Text) : Node := { node with
    raws := { node.raws with
      between := some between
      afterName := some (Token.spelling lead)
      params := value.raw } }
  match ending with
  | .semicolon t =>
      return a.addLeaf (a.stopNode t.span.stop (written (Token.spelling trivia))) true
  | .block _ => return a.openFrame (written (Token.spelling trivia)).openBlock
  | .close t =>
      let stop := Token.stopOr (Token.splitTrailing (·.is .space) params).1 word.span.stop
      (a.addLeaf (a.stopNode stop (written (Token.spelling trivia))) false).closeBlock t
  | .input =>
      let stop := Token.stopOr core word.span.stop
      if core.isEmpty then
        return a.addLeaf (a.stopNode stop (written (Token.spelling trivia))) false
      else
        return (a.addLeaf (a.stopNode stop (written [])) false).wait (Token.spelling trivia)
  | .failure e => .error (ParseError.ofTokenizeError a.source e)

/-! ## The end of the text -/

/-- `a.openingSpan node` is the first byte of a node, where it was opened. -/
def openingSpan (a : Assembly) (node : Node) : Span :=
  let start := (node.origin.map (·.start.offset)).getD 0
  ⟨start, max (min (start + 1) a.source.size) start⟩

/-- `a.reportOpen frame` says that the block of a container is not closed. -/
def reportOpen (a : Assembly) (frame : Frame) : Except ParseError Assembly :=
  a.report .unclosedBlock (a.openingSpan frame.node) (some frame.id)

/-- `a.closeOpen enclosing` closes the innermost container and, one by one, those around it. All
but the outermost one are reported. -/
def closeOpen (a : Assembly) : List Frame → Except ParseError Assembly
  | [] => .ok a
  | outer :: enclosing => do
      let closed := a.current.mapNode (a.stopNode a.source.size)
      let a := { a with current := outer.adopt closed.tree, enclosing }
      let a ← if enclosing.isEmpty then .ok a else a.reportOpen outer
      closeOpen { a with current := a.current.addAfter [] } enclosing

/-- `a.reportHealed run` says that the last token of the text was closed at its end. The repair
belongs to the last node. -/
def reportHealed (a : Assembly) (run : TokenRun) : Except ParseError Assembly :=
  match run.tokens.getLast? with
  | some t =>
      if t.healed then
        let owner := if a.created = 1 then none else some (a.created - 1)
        a.report (.ofOpenConstruct (.ofTokenKind t.kind)) t.span owner
      else .ok a
  | none => .ok a

/-- `a.finish run` ends the assembly behind the last statement of a run. -/
def finish (a : Assembly) (run : TokenRun) : Except ParseError Assembly := do
  let a ← if a.enclosing.isEmpty then .ok a else a.reportOpen a.current
  let settled := a.current.settle a.semicolon a.spaces
  let a ← closeOpen { a with current := settled, spaces := [] } a.enclosing
  let stop := a.source.position a.source.size
  reportHealed { a with current := a.current.mapNode (Node.stopAt stop) } run

/-- `a.document` is the document that has been read, with the damage that each repair has done to
its node. -/
def document (a : Assembly) : Document :=
  let (root, below) := a.current.tree
  a.recoveries.foldl Document.recover (Document.ofForest a.source a.mode (.cons root below .nil))

end Assembly

end Stylesheet
