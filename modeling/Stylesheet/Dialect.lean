import Stylesheet.Parse
import Stylesheet.Print.Mapping
import Stylesheet.Print.Printer

/-!
# Dialects

A `Dialect` is a named way to read and print stylesheets. `Dialect.css` refuses malformed text and
`Dialect.safeCss` repairs it, whatever mode is asked for. A `Registry` finds dialects by name, and
`process` reads a source and prints it again together with its source mappings.
-/

namespace Stylesheet

/-- A named way to read and to print stylesheets. -/
structure Dialect where
  name : String
  parse : Source → Mode → Except ParseError Document
  print : Document → Printed

namespace Dialect

/-- Stylesheets that are refused if they are malformed, printed in a given way. -/
def cssWith (printer : Printer) : Dialect where
  name := "css"
  parse source _ := Stylesheet.parse source .strict
  print := printer.print

/-- Stylesheets that are refused if they are malformed. -/
def css : Dialect := cssWith {}

/-- Stylesheets that are repaired if they are malformed. -/
def safeCss : Dialect where
  name := "safe-css"
  parse source _ := Stylesheet.parse source .tolerant
  print := ({} : Printer).print

end Dialect

/-- Dialects in the order of their names, no two of the same name. -/
structure Registry where
  dialects : List Dialect := []

/-- Why a text could not be processed. -/
inductive ProcessError where
  | parse (e : ParseError)
  | print (e : PrintError)
  | unknownDialect (name : String)

/-- The message of an error. -/
def ProcessError.message : ProcessError → String
  | parse e => e.message
  | print e => e.message
  | unknownDialect name => "unknown syntax `" ++ name ++ "`"

/-- A document, its printed text and the mappings between the two. -/
structure Processed where
  document : Document
  text : Text
  mappings : List Mapping

namespace Registry

/-- `insertByName dialect dialects` puts a dialect in its place. It replaces the one of its
name. -/
def insertByName (dialect : Dialect) : List Dialect → List Dialect
  | [] => [dialect]
  | d :: rest =>
      if d.name = dialect.name then dialect :: rest
      else if dialect.name < d.name then dialect :: d :: rest
      else d :: insertByName dialect rest

/-- `r.register dialect` adds a dialect, in place of the one that has its name. -/
def register (r : Registry) (dialect : Dialect) : Registry :=
  ⟨insertByName dialect r.dialects⟩

/-- The dialects that are always there. -/
def builtin : Registry :=
  (({} : Registry).register .css).register .safeCss

/-- The names of the dialects, in order. -/
def names (r : Registry) : List String :=
  r.dialects.map (·.name)

/-- `r.get name` is the dialect of this name. -/
def get (r : Registry) (name : String) : Except ProcessError Dialect :=
  match r.dialects.find? (·.name == name) with
  | some dialect => .ok dialect
  | none => .error (.unknownDialect name)

end Registry

/-- `process dialect source mode` reads a source and prints it again. -/
def process (dialect : Dialect) (source : Source) (mode : Mode) :
    Except ProcessError Processed := do
  let document ← (dialect.parse source mode).mapError .parse
  let fragments ← (dialect.print document).result.mapError .print
  return ⟨document, fragments.flatMap (·.text), Mapping.ofFragments document .start fragments⟩

/-- `r.process name source mode` reads a source in the dialect of this name and prints it
again. -/
def Registry.process (r : Registry) (name : String) (source : Source) (mode : Mode) :
    Except ProcessError Processed := do
  Stylesheet.process (← r.get name) source mode

end Stylesheet
