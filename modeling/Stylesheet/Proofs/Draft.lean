import Stylesheet.Proofs.Arena
import Stylesheet.Proofs.Cursor
import Stylesheet.Proofs.Indexing
import Stylesheet.Proofs.Lines

/-!
# Reading in place

A `Draft` is a document that is being built in an array of nodes. It refers to its nodes by number
and to the texts and runs of tokens by index. Every look-up, cut, slice and difference of it can
fail, and `readInPlace` is `none` if one does, or if a bound on a loop is reached: on the bytes
that are read, the statements, the declarations in a run of tokens, or the blocks that are open at
the end. Where it is not `none`, it is a document or the first defect of the text.
-/

namespace Stylesheet

/-- A computation that may find a defect, or may use an index that is out of range. -/
abbrev Checked := ExceptT ParseError Option

/-- The computation that cannot go on. -/
def Checked.stuck {α : Type} : Checked α := ExceptT.mk none

/-- A document that is being built: its nodes so far with its source, mode and repairs, the
container that is being filled, the latest node, the text that waits for a node, and whether the
last statement ended with a semicolon. -/
structure Draft where
  doc : Document
  current : NodeId := Document.root
  last : Option NodeId := none
  spaces : Text := []
  semicolon : Bool := false

/-! ## Texts by byte -/

/-- `commentKind? text healed` is a comment with the blank text at its two edges, cut by byte. -/
def commentKind? (text : Text) (healed : Bool) : Option (Kind × Text × Text) :=
  let opened : Text := text.drop 2
  let inner : Text := if healed then opened else opened.take (opened.length - 2)
  if (Text.trim inner).isEmpty then some (.comment [], inner, [])
  else do
    let left ← inner.slice? 0 (← difference? inner.utf8Size (Text.trimStart inner).utf8Size)
    let right ← inner.slice? (Text.trimEnd inner).utf8Size inner.utf8Size
    return (.comment (Text.trim inner), left, right)

/-- `hackSign? name` takes the first character off a name if it is a sign that hides the name from
some readers. -/
def hackSign? (name : Text) : Option (Text × Text) :=
  if name.head?.any (['_', '*'].contains ·) then do
    let sign ← name[0]?
    return ([sign], name.drop 1)
  else some ([], name)

@[simp] theorem commentKind?_eq (text : Text) (healed : Bool) :
    commentKind? text healed = some (Assembly.commentKind text healed) := by
  unfold commentKind? Assembly.commentKind
  dsimp only
  generalize (if healed =
    true then text.drop 2 else (text.drop 2).take ((text.drop 2).length - 2)) = inner
  have hsize : difference? (Text.utf8Size inner) (Text.trimStart inner).utf8Size =
      some (Text.blankStart inner).utf8Size := by
    have happend := congrArg Text.utf8Size (Text.blankStart_append_trimStart inner)
    rw [← happend, Text.utf8Size_append, difference?_add]
  have hleft : Text.slice? inner 0 (Text.blankStart inner).utf8Size =
      some (Text.blankStart inner) := by
    have hslice := Text.slice?_append [] (Text.blankStart inner) (Text.trimStart inner)
    rwa [Text.blankStart_append_trimStart] at hslice
  have hright : Text.slice? inner (Text.trimEnd inner).utf8Size (Text.utf8Size inner) =
      some (Text.blankEnd inner) := by
    have hslice := Text.slice?_utf8Size (Text.trimEnd inner) (Text.blankEnd inner)
    rwa [Text.trimEnd_append_blankEnd] at hslice
  simp only [hsize, hleft, hright, Option.bind_eq_bind, Option.bind_some]
  split <;> rfl

@[simp] theorem hackSign?_eq (name : Text) : hackSign? name = some (hackSign name) := by
  cases name with
  | nil => rfl
  | cons c rest =>
      by_cases hsign : c = '_' ∨ c = '*'
      · rcases hsign with rfl | rfl <;> rfl
      · obtain ⟨hunderscore, hstar⟩ := not_or.mp hsign
        simp [hackSign?, hackSign, hunderscore, hstar]

/-- An at-rule in parts: its name, its parameters without what stands at their edges, and the
white space and the comments before and behind them. -/
structure AtRuleParts where
  name : Text
  lead : List Token
  core : List Token
  trivia : List Token

namespace AtRuleParts

/-- `ofIndices? word params` cuts the sign off the name of an at-rule, and its parameters at their
edges. -/
def ofIndices? (word : Token) (params : List Token) : Option AtRuleParts := do
  let name ← word.text.slice? 1 word.text.utf8Size
  let (body, trivia) ← Token.cutTrailing? Token.isTrivia params
  let (lead, core) ← Token.cutLeading? Token.isTrivia body
  return { name, lead, core, trivia }

/-- `ofTokens word params` are the parts of an at-rule, cut token by token. -/
def ofTokens (word : Token) (params : List Token) : AtRuleParts where
  name := word.text.drop 1
  lead := (Token.splitLeading Token.isTrivia (Token.splitTrailing Token.isTrivia params).1).1
  core := Assembly.atRuleCore params
  trivia := (Token.splitTrailing Token.isTrivia params).2

/-- An at-rule of a text can be cut by index. -/
theorem ofIndices?_eq {word : Token} {name : Text} (hword : word.text = '@' :: name)
    (params : List Token) : ofIndices? word params = some (ofTokens word params) := by
  have hname : word.text.slice? 1 word.text.utf8Size = some (word.text.drop 1) := by
    rw [hword]
    exact Text.slice?_utf8Size ['@'] name
  simp only [ofIndices?, hname, Token.cutTrailing?_eq, Token.cutLeading?_eq, Option.bind_eq_bind,
    Option.bind_some]
  rfl

/-- `p.between ending` is what an at-rule has behind its parameters. Where the text ends there, it
waits. -/
def between (p : AtRuleParts) : AtRuleEnd → Text
  | .semicolon _ | .block _ | .close _ => Token.spelling p.trivia
  | .input => if p.core.isEmpty then Token.spelling p.trivia else []
  | .failure _ => []

end AtRuleParts

/-- `throwOpen source e` refuses a construct that is open at the end of the text. -/
def throwOpen {α : Type} (source : Source) (e : TokenizeError) : Checked α := do
  let position ← source.position? e.offset
  throw ⟨.ofOpenConstruct e.construct, ⟨e.offset, e.offset + 1⟩, position, source.file⟩

namespace Draft

/-- The draft of a document of which nothing has been read. -/
def start (source : Source) (mode : Mode) : Draft :=
  { doc := { Document.ofSource source with mode } }

/-- `b.report defect span node` says that something is wrong, with the node that a repair belongs
to. -/
def report (b : Draft) (defect : Defect) (span : Span) (node : Option NodeId) :
    Checked Draft := do
  let position ← b.doc.source.position? span.start
  match b.doc.mode with
  | .strict => throw ⟨defect, span, position, b.doc.source.file⟩
  | .tolerant =>
      return { b with doc := ← b.doc.recover? ⟨defect.damage, defect.message, position, node⟩ }

/-! ## Nodes -/

/-- `b.wait text` lets text wait for the next node. -/
def wait (b : Draft) (text : Text) : Draft :=
  { b with spaces := b.spaces ++ text }

/-- `b.newNode? kind offset` is a node that starts at a byte offset, behind the text that
waits. -/
def newNode? (b : Draft) (kind : Kind) (offset : Nat) : Option Node := do
  let start ← b.doc.source.position? offset
  return { Node.ofKind kind with origin := some { start }, raws := { before := some b.spaces } }

/-- `b.stopNode? stop node` is a node that ends before a byte offset. -/
def stopNode? (b : Draft) (stop : Nat) (node : Node) : Option Node := do
  return node.stopAt (← b.doc.source.endPosition? stop)

/-- `b.addLeaf? node semicolon` puts a new node behind the children of the container and fills it
in there. -/
def addLeaf? (b : Draft) (node : Node) (semicolon : Bool) : Option Draft := do
  let id := b.doc.size
  let appended ← (b.doc.add (Node.ofKind node.kind)).append? b.current id
  let doc ← appended.modify? id fun n ↦ { node with parent := n.parent }
  return { b with doc, last := some id, spaces := [], semicolon }

/-- `b.change? id f` changes a node. -/
def change? (b : Draft) (id : NodeId) (f : Node → Node) : Option Draft := do
  return { b with doc := ← b.doc.modify? id f }

/-- `b.addAfter? id text` puts text before the end of a container. -/
def addAfter? (b : Draft) (id : NodeId) (text : Text) : Option Draft :=
  b.change? id (Node.mapRaws fun raws ↦ { raws with after := some (raws.after.getD [] ++ text) })

/-- `b.settle?` ends the contents of the container with the text that waits. -/
def settle? (b : Draft) : Option Draft := do
  let node ← b.doc.node? b.current
  let noted ← if node.childList.isEmpty then some b
    else b.change? b.current (Node.mapRaws fun raws ↦ { raws with semicolon := some b.semicolon })
  return { ← noted.addAfter? b.current b.spaces with spaces := [] }

/-! ## Statements -/

/-- `b.comment? t` adds a comment. -/
def comment? (b : Draft) (t : Token) : Option Draft := do
  let (kind, left, right) ← commentKind? t.text t.healed
  let node ← b.stopNode? t.span.stop (← b.newNode? kind t.span.start)
  b.addLeaf? { node with raws := { node.raws with left := some left, right := some right } }
    b.semicolon

/-- `b.rule? head brace` opens a rule. -/
def rule? (b : Draft) (head : List Token) (brace : Token) : Option Draft := do
  let (body, trivia) ← Token.cutTrailing? Token.isTrivia head
  let selector ← Value.ofIndices? false body
  let node ← b.newNode? (.rule selector.text) (head.head?.getD brace).span.start
  let opened ← b.addLeaf? { node with
    raws := { node.raws with between := some (Token.spelling trivia), selector := selector.raw } }
      false
  return { opened with current := b.doc.size }

/-- `b.freeSemicolon? t` reads a semicolon between statements. -/
def freeSemicolon? (b : Draft) (t : Token) : Option Draft := do
  match (← b.doc.node? b.current).childList.getLast? with
  | none => return b.wait t.text
  | some last =>
      let node ← b.doc.node? last
      if node.type == .rule && node.raws.ownSemicolon.isNone then
        return { ← b.change? last (Node.mapRaws fun raws ↦
          { raws with ownSemicolon := some (b.spaces ++ t.text) }) with spaces := [] }
      else return b.wait t.text

/-- `b.leave t` goes on behind the container, which a closing brace ends. -/
def leave (b : Draft) (t : Token) : Checked Draft := do
  match (← b.doc.node? b.current).parent with
  | some parent =>
      let stop ← b.doc.source.endPosition? t.span.stop
      let closed ← b.change? b.current (Node.stopAt stop)
      return { closed with current := parent }
  | none => do
      let b ← b.report .unexpectedClose t.span (some b.current)
      b.addAfter? b.current t.text

/-- `b.closeBlock t` ends the container at a closing brace. -/
def closeBlock (b : Draft) (t : Token) : Checked Draft := do
  let settled ← b.settle?
  { settled with semicolon := false }.leave t

/-- `b.stray tokens` lets tokens wait that are no statement. -/
def stray (b : Draft) : List Token → Checked Draft
  | [] => pure b
  | t :: rest => do
      let b ← b.report (.unknownWord t.text) t.span none
      return b.wait (Token.spelling (t :: rest))

/-- `b.reportName word name id` reports an at-rule without a name. -/
def reportName (b : Draft) (word : Token) (name : Text) (id : NodeId) : Checked Draft :=
  if name.isEmpty then b.report .unnamedAtRule word.span (some id) else pure b

/-- `b.atRuleNode? word parts between` is an at-rule with these parts, which has `between` behind
them. -/
def atRuleNode? (b : Draft) (word : Token) (parts : AtRuleParts) (between : Text) :
    Option Node := do
  let value ← Value.ofIndices? false parts.core
  let node ← b.newNode? (.atRule parts.name value.text) word.span.start
  return { node with
    raws := { node.raws with
      between := some between
      afterName := some (Token.spelling parts.lead)
      params := value.raw } }

/-- `b.addAtRule? word params parts ending` adds an at-rule, or opens it if it has a block. -/
def addAtRule? (b : Draft) (word : Token) (params : List Token) (parts : AtRuleParts)
    (ending : AtRuleEnd) :
    Option Draft := do
  let node ← b.atRuleNode? word parts (parts.between ending)
  match ending with
  | .semicolon t => b.addLeaf? (← b.stopNode? t.span.stop node) true
  | .block _ => do
      let leaf ← b.addLeaf? node false
      let opened ← leaf.change? b.doc.size Node.openBlock
      return { opened with current := b.doc.size }
  | .close _ =>
      let stop := Token.stopOr (Token.splitTrailing (·.is .space) params).1 word.span.stop
      b.addLeaf? (← b.stopNode? stop node) false
  | .input => b.addLeaf? (← b.stopNode? (Token.stopOr parts.core word.span.stop) node) false
  | .failure _ => b.addLeaf? node false

/-- `b.leaveAtRule parts ending` reads the end of an at-rule that has been added. -/
def leaveAtRule (b : Draft) (parts : AtRuleParts) : AtRuleEnd → Checked Draft
  | .semicolon _ | .block _ => pure b
  | .close t => b.closeBlock t
  | .input => if parts.core.isEmpty then pure b else pure (b.wait (Token.spelling parts.trivia))
  | .failure e => throwOpen b.doc.source e

/-- `b.atRule word params ending` adds an at-rule, reports it if it has no name, and reads its
end. -/
def atRule (b : Draft) (word : Token) (params : List Token) (ending : AtRuleEnd) :
    Checked Draft := do
  let parts ← AtRuleParts.ofIndices? word params
  let added ← b.addAtRule? word params parts ending
  let reported ← added.reportName word parts.name b.doc.size
  reported.leaveAtRule parts ending

/-! ## Declarations -/

/-- `b.declarationNode? custom last parts start marked` is a declaration with these parts. -/
def declarationNode? (b : Draft) (custom : Bool) (last : Token) (parts : Parts) (start : Nat)
    (marked : Marked) : Option Node := do
  let (sign, name) ← hackSign? (Token.spelling parts.name)
  let isBlank := marked.tokens.all Token.isTrivia
  let value ← Value.ofIndices? custom ((if isBlank then parts.gap else []) ++ marked.tokens)
  let between := Token.spelling parts.colon ++ if isBlank then [] else Token.spelling parts.gap
  let node ← b.newNode? (.declaration name value.text marked.important) start
  b.stopNode? last.span.stop { node with
    raws := { node.raws with
      before := some (b.spaces ++ Token.spelling parts.stray ++ sign)
      between := some between
      important := marked.spelling
      value := value.raw } }

/-- `cutValue? mode value` cuts the value of a declaration where a semicolon is missed. Strict
reading leaves it as it is. -/
def cutValue? : Mode → List Token → Option (Option (Missed × Nat × Option Nat))
  | .strict, _ => some none
  | .tolerant, value => Missed.ofIndices? value

/-- `b.stopEarly? stop node` is a node that ends where its value is cut. -/
def stopEarly? (b : Draft) (stop : Option Nat) (node : Node) : Option Node :=
  match stop with
  | some stop => b.stopNode? stop node
  | none => some node

/-- `b.reportColon value id` reports a colon at the start of the value of a declaration. -/
def reportColon (b : Draft) (value : List Token) (id : NodeId) : Checked Draft :=
  match leadingColon value with
  | some t => b.report .doubleColon t.span (some id)
  | none => pure b

/-- `b.reportMissed value split id` reports a colon at the start of a value and a missed semicolon
in it. -/
def reportMissed (b : Draft) (value : List Token) (split : Option (Missed × Nat × Option Nat))
    (id : NodeId) : Checked Draft :=
  match b.doc.mode with
  | .strict => pure b
  | .tolerant => do
      let b ← b.reportColon value id
      match split with
      | some (_, start, _) => b.report .missedSemicolon (.point start) (some id)
      | none => return b

/-- `b.checkColons custom value tokens id` refuses a value with a colon that cannot belong to
it. -/
def checkColons (b : Draft) (custom : Bool) (value : Text) (tokens : List Token) (id : NodeId) :
    Checked Draft :=
  if b.doc.mode = .strict ∧ custom = false ∧ ':' ∈ value then do
    let b ← b.reportColon tokens id
    match colonIndex? tokens with
    | some colon => b.report .missedSemicolon (.point (← missedFrom? tokens colon)) (some id)
    | none => return b
  else pure b

/-- `b.checkValue custom value terminator id` reports a declaration without a value. -/
def checkValue (b : Draft) (custom : Bool) (value : Text) (terminator : Nat) (id : NodeId) :
    Checked Draft :=
  if custom = false ∧ value = [] then b.report .missingValue (.point terminator) (some id)
    else pure b

/-- `declare cuts b tokens custom terminator` adds the declarations that a run of tokens holds,
where `cuts` bounds their number. -/
def declare : Nat → Draft → List Token → Bool → Nat → Checked Draft
  | 0, _, _, _, _ => .stuck
  | cuts + 1, b, tokens, custom, terminator =>
      if b.doc.mode = .tolerant ∧ Assembly.isDeclaration tokens = false then b.stray tokens
      else
        match tokens.getLast? with
        | none => pure b
        | some last => do
            let first ← (tokens[0]? : Option Token)
            let ended := last.is .semicolon
            let body := if ended then tokens.dropLast else tokens
            match ← Parts.ofIndices? body with
            | none => do
                -- Only now it turns out that there is no word, when a node is already there.
                let added ← b.addLeaf?
                    (← b.newNode? (.declaration [] [] false) first.span.start) ended
                let (_, unknown) ← cutAt? (body.length - 1) body
                added.stray unknown
            | some (parts, start) => do
                let split ← cutValue? b.doc.mode parts.value
                let marked ← Marked.ofIndices? ((split.map (·.1.kept)).getD parts.value)
                let whole ← b.declarationNode? custom last parts start marked
                let node ← b.stopEarly? (split.bind (·.2.2)) whole
                let value := node.kind.value?.getD []
                let id := b.doc.size
                let b ← b.addLeaf? node ended
                let b ← parts.unknownWords.foldlM
                  (fun b t ↦ b.report (.unknownWord t.text) t.span (some id)) b
                let b ← b.reportMissed parts.value split id
                let b ← (match split with
                  | some (missed, _) => do
                      let b ← declare cuts
                        { b with spaces := Token.spelling missed.gap } missed.next
                        false terminator
                      pure { b with semicolon := ended }
                  | none => pure b)
                let b ← b.checkColons custom value marked.tokens id
                b.checkValue custom value terminator id

/-! ## Whole texts -/

/-- `b.reportOpened opened` reports a bracket that is open at the end of the text. -/
def reportOpened (b : Draft) (opened : Option Span) : Checked Draft :=
  match opened with
  | some span => b.report .unclosedBracket span none
  | none => pure b

/-- `b.add statement` adds a statement to what has been read. -/
def add (b : Draft) : Statement → Checked Draft
  | .space t => pure (b.wait t.text)
  | .semicolon t => b.freeSemicolon? t
  | .close t => b.closeBlock t
  | .comment t => b.comment? t
  | .atRule word params ending => b.atRule word params ending
  | .rule head brace => b.rule? head brace
  | .declaration tokens custom terminator opened => do
      let b ← b.reportOpened opened
      declare (tokens.length + 1) b tokens custom terminator
  | .stray tokens opened => do
      let b ← b.reportOpened opened
      b.stray tokens
  | .failure e => throwOpen b.doc.source e

/-- `b.reportOpen id` says that the block of a container is not closed. -/
def reportOpen (b : Draft) (id : NodeId) : Checked Draft := do
  let node ← b.doc.node? id
  let start := (node.origin.map (·.start.offset)).getD 0
  b.report .unclosedBlock ⟨start, max (min (start + 1) b.doc.source.size) start⟩ (some id)

/-- `closeOpen steps b` closes the container and, one by one, those around it. All but the root
are reported. -/
def closeOpen : Nat → Draft → Checked Draft
  | 0, _ => .stuck
  | steps + 1, b => do
      match (← b.doc.node? b.current).parent with
      | none => return b
      | some parent =>
          let stop ← b.doc.source.endPosition? b.doc.source.size
          let closed ← b.change? b.current (Node.stopAt stop)
          let b := { closed with current := parent }
          let b ← if parent = Document.root then pure b else b.reportOpen parent
          closeOpen steps (← b.addAfter? parent [])

/-- `b.reportHealed run` says that the last token of the text was closed at its end. -/
def reportHealed (b : Draft) (run : TokenRun) : Checked Draft :=
  match run.tokens.getLast? with
  | some t =>
      if t.healed then b.report (.ofOpenConstruct (.ofTokenKind t.kind)) t.span b.last else pure b
  | none => pure b

/-- `b.endText run` closes all containers behind the last statement of a run. -/
def endText (b : Draft) (run : TokenRun) : Checked Draft := do
  let settled ← b.settle?
  let b ← closeOpen (settled.doc.size + 1) settled
  let stop ← b.doc.source.position? b.doc.source.size
  let ended ← b.change? Document.root (Node.stopAt stop)
  ended.reportHealed run

/-- `b.finish run` ends the draft behind the last statement of a run. -/
def finish (b : Draft) (run : TokenRun) : Checked Draft :=
  if b.current = Document.root then b.endText run
  else do
    let b ← b.reportOpen b.current
    b.endText run

end Draft

/-- `Statement.group? stop failure steps tokens` are the statements of a run, at most `steps` of
them with the end of the run. -/
def Statement.group? (stop : Nat) (failure : Option TokenizeError) :
    Nat → List Token → Option (List Statement)
  | 0, _ => none
  | _ + 1, [] => some (failure.toList.map .failure)
  | steps + 1, t :: rest => do
      let (statement, rest) := first stop failure t rest
      return statement :: (← group? stop failure steps rest)

/-- `readInPlace source mode` is the document that a source holds, or its first defect. -/
def readInPlace (source : Source) (mode : Mode) : Checked Document := do
  let run ← (Cursor.ofText source.text mode.openPolicy .stock).run (source.text.length + 1)
  let statements ← Statement.group? source.size run.failure (run.tokens.length + 1) run.tokens
  let b ← statements.foldlM Draft.add (Draft.start source mode)
  return (← b.finish run).doc

end Stylesheet
