import Stylesheet.Assembly.Basic
import Stylesheet.Statement.Parts

/-!
# Assembling declarations

`Assembly.declaration` adds the declaration that a run of tokens holds. Under tolerant assembly a
run can hold several of them, if semicolons are missed between them, or none; under strict
assembly that is a defect. The text of every token goes into the node, its name apart from a sign
in front of it, or waits for the next one.
-/

namespace Stylesheet

/-- `hackSign name` cuts a name behind a sign that hides it from some readers. -/
def hackSign (name : Text) : Text × Text :=
  match name with
  | '_' :: rest => (['_'], rest)
  | '*' :: rest => (['*'], rest)
  | _ => ([], name)

namespace Assembly

/-- `a.declarationNode custom tokens parts marked` is a declaration with these parts. The white
space and comments behind the colon belong to the layout if there is a value, and else to the
value. -/
def declarationNode (a : Assembly) (custom : Bool) (tokens : List Token) (parts : Parts)
    (marked : Marked) : Node :=
  let (sign, name) := hackSign (Token.spelling parts.name)
  let isBlank := marked.tokens.all Token.isTrivia
  let value := Value.ofTokens custom ((if isBlank then parts.gap else []) ++ marked.tokens)
  let between := Token.spelling parts.colon ++ if isBlank then [] else Token.spelling parts.gap
  let start := ((parts.name.head?).map (·.span.start)).getD 0
  let node := a.newNode (.declaration name value.text marked.important) start
  a.stopNode (Token.stopOr tokens 0) { node with
    raws := { node.raws with
      before := some (a.spaces ++ Token.spelling parts.stray ++ sign)
      between := some between
      important := marked.spelling
      value := value.raw } }

/-- `a.reportColon value id` reports a colon at the start of the value of a declaration. -/
def reportColon (a : Assembly) (value : List Token) (id : NodeId) : Except ParseError Assembly :=
  match leadingColon value with
  | some t => a.report .doubleColon t.span (some id)
  | none => .ok a

/-- `a.splitValue value id` cuts the value of a declaration where a semicolon is missed. Strict
assembly leaves the value as it is. -/
def splitValue (a : Assembly) (value : List Token) (id : NodeId) :
    Except ParseError (Assembly × Option Missed) :=
  match a.mode with
  | .strict => .ok (a, none)
  | .tolerant => do
      let a ← a.reportColon value id
      match Missed.ofValue? value with
      | none => return (a, none)
      | some missed =>
          let start := (missed.next.head?.map (·.span.start)).getD 0
          let a ← a.report .missedSemicolon (.point start) (some id)
          return (a, some missed)

/-- `a.checkColons custom value tokens id` refuses a value with a colon that cannot belong to it,
where `tokens` are the tokens of the value. Tolerant assembly has cut the value there. -/
def checkColons (a : Assembly) (custom : Bool) (value : Text) (tokens : List Token)
    (id : NodeId) : Except ParseError Assembly :=
  if a.mode = .strict ∧ custom = false ∧ ':' ∈ value then do
    let a ← a.reportColon tokens id
    match secondColon tokens with
    | some (before, _) => a.report .missedSemicolon (.point (missedAt before)) (some id)
    | none => return a
  else .ok a

/-- `a.checkValue custom value terminator id` reports a declaration without a value. -/
def checkValue (a : Assembly) (custom : Bool) (value : Text) (terminator : Nat) (id : NodeId) :
    Except ParseError Assembly :=
  if custom = false ∧ value = [] then a.report .missingValue (.point terminator) (some id)
  else .ok a

/-- `isDeclaration tokens` says that a run has more than one token and a word among them. -/
def isDeclaration (tokens : List Token) : Bool :=
  1 < tokens.length && tokens.any (·.is .word)

/-- `declare cuts a tokens custom terminator` adds the declarations that a run of tokens holds,
where `cuts` bounds their number. -/
def declare : Nat → Assembly → List Token → Bool → Nat → Except ParseError Assembly
  | 0, a, _, _, _ => .ok a
  | cuts + 1, a, tokens, custom, terminator =>
      if a.mode = .tolerant ∧ isDeclaration tokens = false then a.stray tokens
      else
        let ended := tokens.getLast?.any (·.is .semicolon)
        let body := if ended then tokens.dropLast else tokens
        match Parts.ofTokens? body with
        | none => a.stray body.getLast?.toList
        | some parts => do
            let id := a.created
            let a ← parts.unknownWords.foldlM
              (fun a t ↦ a.report (.unknownWord t.text) t.span (some id)) a
            let (a, missed) ← a.splitValue parts.value id
            let kept := (missed.map (·.kept)).getD parts.value
            let marked := takeImportant kept
            let node := a.declarationNode custom tokens parts marked
            let node := match missed with
              | some missed =>
                  if missed.kept.isEmpty then node
                  else a.stopNode (Token.stopOr missed.kept 0) node
              | none => node
            let value := (node.kind.value?).getD []
            let a := a.addLeaf node ended
            let a ← match missed with
              | some missed => do
                  let a ← declare cuts { a with spaces := Token.spelling missed.gap } missed.next
                    false terminator
                  pure { a with semicolon := ended }
              | none => .ok a
            let a ← a.checkColons custom value marked.tokens id
            a.checkValue custom value terminator id

/-- `a.declaration tokens custom terminator` adds the declarations that a run of tokens holds. -/
def declaration (a : Assembly) (tokens : List Token) (custom : Bool) (terminator : Nat) :
    Except ParseError Assembly :=
  declare tokens.length a tokens custom terminator

end Assembly

end Stylesheet
