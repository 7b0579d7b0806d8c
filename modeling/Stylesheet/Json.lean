import Stylesheet.Text

/-!
# JSON values

The values that a view of a document is made of. An object lists its members, and writing a member
that is already there gives it another value in its place (`lookup_put`).
-/

namespace Stylesheet

/-- A JSON value without fractions and without null. -/
inductive Json where
  | bool (value : Bool)
  | number (value : Nat)
  | text (value : Text)
  | array (items : List Json)
  | object (members : List (String × Json))
  deriving Repr, Inhabited

namespace Json

/-- A text that is given as a string. -/
def ofString (s : String) : Json := .text s.toList

/-- `put members name value` writes a member of an object. -/
def put (members : List (String × Json)) (name : String) (value : Json) : List (String × Json) :=
  match members with
  | [] => [(name, value)]
  | (n, v) :: members =>
      if n = name then (name, value) :: members else (n, v) :: put members name value

theorem lookup_put (members : List (String × Json)) (name other : String) (value : Json) :
    (put members name value).lookup other =
      if other = name then some value else members.lookup other := by
  induction members with
  | nil =>
      by_cases h : other = name
      · simp [put, h]
      · simp [put, List.lookup_cons, h, beq_false_of_ne h]
  | cons member members ih =>
      obtain ⟨n, v⟩ := member
      by_cases hn : n = name
      · subst hn
        by_cases ho : other = n
        · simp [put, ho]
        · simp [put, List.lookup_cons, ho, beq_false_of_ne ho]
      · by_cases ho : other = n
        · subst ho
          simp [put, hn]
        · simp [put, List.lookup_cons, hn, beq_false_of_ne ho, ih]

end Json

end Stylesheet
