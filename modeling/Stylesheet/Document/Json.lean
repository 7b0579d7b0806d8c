import Stylesheet.Json
import Stylesheet.Document.Basic

/-!
# Documents as JSON

`Document.toJson` shows all that a node and the nodes below it record, and
`Document.toSemanticJson` shows only what they mean: the kinds and the nesting. Documents with the
same semantic view differ at most in how they are written.
-/

namespace Stylesheet

/-- The members that show a kind. -/
def Kind.jsonMembers : Kind → List (String × Json)
  | root => []
  | atRule name params => [("name", .text name), ("params", .text params)]
  | rule selector => [("selector", .text selector)]
  | declaration property value important =>
      [("prop", .text property), ("value", .text value)] ++
        if important then [("important", .bool true)] else []
  | comment text => [("text", .text text)]
  | other name head value => [("name", .text name), ("head", .text head), ("value", .text value)]

/-- A tidied text with its written form. -/
def RawValue.toJson (cached : RawValue) : Json :=
  .object [("value", .text cached.value), ("raw", .text cached.raw)]

/-- The recorded layout. Extra texts are shown under their own keys, in place of a raw that has
the same key. -/
def Raws.toJson (r : Raws) : Json :=
  let texts := TextRaw.all.filterMap fun raw ↦ (r.text raw).map fun text ↦ (raw.key, .text text)
  let semicolon := r.semicolon.toList.map fun flag ↦ ("semicolon", .bool flag)
  let caches := CachedRaw.all.filterMap fun raw ↦
    (r.cache raw).map fun cached ↦ (raw.name, cached.toJson)
  let damage := if r.isDamaged then
    [("damage", .array (r.damage.map fun d ↦ .ofString d.name))] else []
  .object (r.extra.foldl (fun members entry ↦ Json.put members entry.1 (.text entry.2))
    (texts ++ semicolon ++ caches ++ damage))

/-- A position as an object. -/
def Position.toJson (p : Position) : Json :=
  .object [("line", .number p.line), ("column", .number p.column), ("offset", .number p.offset)]

/-- `o.toJson file` shows where a node was read from. -/
def Origin.toJson (o : Origin) (file : Option String) : Json :=
  .object ([("start", o.start.toJson)] ++ o.stop.toList.map (fun stop ↦ ("end", stop.toJson)) ++
    file.toList.map fun file ↦ ("from", .ofString file))

namespace Document

/-- `doc.nodeJson full id nodes` shows a node whose children have been shown as `nodes`. -/
def nodeJson (doc : Document) (full : Bool) (id : NodeId) (nodes : List Json) : Json :=
  let node := doc.node id
  let block := if node.hasBlock then [("nodes", .array nodes)] else []
  let record := if full then
      [("raws", node.raws.toJson)] ++
        node.origin.toList.map fun origin ↦ ("source", origin.toJson doc.source.file)
    else []
  .object ([("type", .ofString node.type.name)] ++ node.kind.jsonMembers ++ block ++ record)

/-- `doc.forestJson full f` shows the nodes of a forest. -/
def forestJson (doc : Document) (full : Bool) : Forest NodeId → List Json
  | .nil => []
  | .cons id below rest =>
      doc.nodeJson full id (doc.forestJson full below) :: doc.forestJson full rest

/-- `doc.toJson id` shows all that is recorded of a node and of the nodes below it. -/
def toJson (doc : Document) (id : NodeId) : Json :=
  doc.nodeJson true id (doc.forestJson true (doc.below id))

/-- `doc.toSemanticJson id` shows what a node and the nodes below it mean. -/
def toSemanticJson (doc : Document) (id : NodeId) : Json :=
  doc.nodeJson false id (doc.forestJson false (doc.below id))

end Document

end Stylesheet
