import Stylesheet.Text

/-!
# Kinds of nodes

A `Kind` is what a node of a document is, together with its meaning: the selector of a rule, the
property and the value of a declaration. How a node is written is not part of its kind. A
`NodeType` is a kind without the texts.
-/

namespace Stylesheet

/-- What sort of node a node is. -/
inductive NodeType where
  | root
  | atRule
  | rule
  | declaration
  | comment
  | other
  deriving Repr, DecidableEq

/-- The name of a node type. -/
def NodeType.name : NodeType → String
  | root => "root"
  | atRule => "atrule"
  | rule => "rule"
  | declaration => "decl"
  | comment => "comment"
  | other => "other"

/-- What a node is and means. `other` is a node of a dialect, which is printed by a renderer that
is registered under its name. -/
inductive Kind where
  | root
  | atRule (name params : Text)
  | rule (selector : Text)
  | declaration (property value : Text) (important : Bool)
  | comment (text : Text)
  | other (name head value : Text)
  deriving Repr, DecidableEq, Inhabited

namespace Kind

/-- The sort of a kind. -/
def type : Kind → NodeType
  | root => .root
  | atRule .. => .atRule
  | rule .. => .rule
  | declaration .. => .declaration
  | comment .. => .comment
  | other .. => .other

/-- Declarations and comments have no children; all other nodes can have a block. -/
def canContain : Kind → Bool
  | declaration .. | comment .. => false
  | _ => true

/-- A new root or rule has an empty block; other nodes get a block when they need one. -/
def startsWithBlock : Kind → Bool
  | root | rule .. => true
  | _ => false

/-- The selector of a rule. -/
def selector? : Kind → Option Text
  | rule selector => some selector
  | _ => none

/-- The property of a declaration. -/
def property? : Kind → Option Text
  | declaration property .. => some property
  | _ => none

/-- The value of a declaration or of a dialect node. -/
def value? : Kind → Option Text
  | declaration _ value _ | other _ _ value => some value
  | _ => none

/-- The name of an at-rule or of a dialect node. -/
def name? : Kind → Option Text
  | atRule name _ | other name _ _ => some name
  | _ => none

/-- The parameters of an at-rule. -/
def params? : Kind → Option Text
  | atRule _ params => some params
  | _ => none

/-- The text of a comment. -/
def text? : Kind → Option Text
  | comment text => some text
  | _ => none

/-- The head of a dialect node. -/
def head? : Kind → Option Text
  | other _ head _ => some head
  | _ => none

/-- The kind is a declaration that is marked as important. -/
def isImportant : Kind → Bool
  | declaration _ _ important => important
  | _ => false

end Kind

end Stylesheet
