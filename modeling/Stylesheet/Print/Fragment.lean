import Stylesheet.Document.Basic

/-!
# Printed fragments

Printing a document computes a list of `Fragment`s, pieces of text that name the node they belong
to. A `Printed` also says whether printing failed, with the fragments before the failure. Printed
pieces are put one behind the other by `++`, and nothing follows a failure (`append_of_failure`).
-/

namespace Stylesheet

/-- The edge of a node with a block that a fragment stands at. -/
inductive Boundary where
  | start
  | stop
  deriving Repr, DecidableEq

/-- A piece of printed text, the node that it belongs to, and the edge of the node that it is. -/
structure Fragment where
  text : Text
  node : Option NodeId := none
  boundary : Option Boundary := none
  deriving Repr, DecidableEq

/-- The failure to print a node of a kind that no renderer is registered for. -/
structure PrintError where
  kind : Text
  node : NodeId
  position : Option Position := none
  file : Option String := none
  deriving Repr, DecidableEq

namespace PrintError

/-- `ofNode doc id kind` says that a node of this kind cannot be printed. -/
def ofNode (doc : Document) (id : NodeId) (kind : Text) : PrintError :=
  let origin := (doc.node id).origin
  ⟨kind, id, origin.map (·.start), origin.bind fun _ ↦ doc.source.file⟩

/-- The message of the failure. -/
def message (e : PrintError) : String :=
  let problem := "no renderer for node type `" ++ String.ofList e.kind ++ s!"` (#{e.node})"
  match e.position with
  | some position => s!"{Source.fileName e.file}:{position.lineColumn}: {problem}"
  | none => problem

end PrintError

/-- Printed fragments, up to a failure if there is one. -/
structure Printed where
  fragments : List Fragment
  failure : Option PrintError := none
  deriving Repr, DecidableEq

namespace Printed

/-- Nothing is printed. -/
def empty : Printed := ⟨[], none⟩

/-- `one fragment` prints a single fragment. -/
def one (fragment : Fragment) : Printed := ⟨[fragment], none⟩

/-- `gap text` prints text that belongs to no node, or nothing if there is no text. -/
def gap (text : Text) : Printed :=
  if text.isEmpty then empty else one { text }

/-- `fail e` prints nothing and fails. -/
def fail (e : PrintError) : Printed := ⟨[], some e⟩

/-- `p.append q` prints `p` and, if that does not fail, `q` behind it. -/
def append (p q : Printed) : Printed :=
  match p.failure with
  | some _ => p
  | none => ⟨p.fragments ++ q.fragments, q.failure⟩

instance : Append Printed := ⟨append⟩

/-- The printed text. -/
def text (p : Printed) : Text :=
  p.fragments.flatMap (·.text)

/-- `p.result` are the fragments, or the failure. -/
def result (p : Printed) : Except PrintError (List Fragment) :=
  match p.failure with
  | some e => .error e
  | none => .ok p.fragments

theorem append_def (p q : Printed) : p ++ q = p.append q := rfl

theorem append_of_failure {p : Printed} (q : Printed) {e : PrintError}
    (h : p.failure = some e) : p ++ q = p := by
  simp [append_def, append, h]

theorem append_of_failure_none {p : Printed} (q : Printed) (h : p.failure = none) :
    p ++ q = ⟨p.fragments ++ q.fragments, q.failure⟩ := by
  simp [append_def, append, h]

@[simp] theorem empty_append (p : Printed) : empty ++ p = p := rfl

@[simp] theorem append_empty (p : Printed) : p ++ empty = p := by
  cases h : p.failure with
  | some e => rw [append_of_failure _ h]
  | none => rw [append_of_failure_none _ h, empty, List.append_nil, ← h]

theorem append_assoc (p q r : Printed) : p ++ q ++ r = p ++ (q ++ r) := by
  obtain ⟨fragments, failure⟩ := p
  obtain ⟨more, ending⟩ := q
  cases failure <;> cases ending <;> simp [append_def, append]

end Printed

end Stylesheet
