import Stylesheet.Assembly.Declaration

/-!
# Reading a document

`parse` reads a source: its text is cut into tokens, the tokens are grouped into statements, and
the statements are assembled into a document. Strict reading computes the first defect of a text
that has one. Tolerant reading repairs the text; it closes what is open at the end, so that the
run of tokens has no error.
-/

namespace Stylesheet

namespace Assembly

/-- `a.reportOpened opened` reports a bracket that is open at the end of the text. -/
def reportOpened (a : Assembly) (opened : Option Span) : Except ParseError Assembly :=
  match opened with
  | some span => a.report .unclosedBracket span none
  | none => .ok a

/-- `a.add statement` adds a statement to what has been read. -/
def add (a : Assembly) : Statement → Except ParseError Assembly
  | .space t => .ok (a.wait t.text)
  | .semicolon t => .ok (a.freeSemicolon t)
  | .close t => a.closeBlock t
  | .comment t => .ok (a.comment t)
  | .atRule word params ending => a.atRule word params ending
  | .rule head brace => .ok (a.rule head brace)
  | .declaration tokens custom terminator opened => do
      let a ← a.reportOpened opened
      a.declaration tokens custom terminator
  | .stray tokens opened => do
      let a ← a.reportOpened opened
      a.stray tokens
  | .failure e => .error (ParseError.ofTokenizeError a.source e)

end Assembly

/-- What a mode does with a construct that is open at the end of the text. -/
def Mode.openPolicy : Mode → OpenPolicy
  | strict => .fail
  | tolerant => .heal

/-- `assemble source mode` reads a source up to its end. -/
def assemble (source : Source) (mode : Mode) : Except ParseError Assembly := do
  let run := Token.run source.text mode.openPolicy
  let a ← (Statement.ofRun source.size run).foldlM Assembly.add (Assembly.start source mode)
  a.finish run

/-- `parse source mode` is the document that a source holds, or its first defect. -/
def parse (source : Source) (mode : Mode) : Except ParseError Document :=
  (assemble source mode).map Assembly.document

end Stylesheet
