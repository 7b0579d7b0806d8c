/-!
# Forests

A `Forest` is a list of trees in which every node carries a value. It is built like a list whose
elements have a forest of their own below them, so that a function on it is a recursion on two
smaller forests. `toList` lists the values with every node before the nodes below it, and
`toList_map` and `length_toList` relate the list to the other operations.
-/

namespace Stylesheet

/-- Trees in a row: the first one has `value` at its top and `below` beneath it, and `rest` are
the trees behind it. -/
inductive Forest (α : Type) where
  | nil
  | cons (value : α) (below rest : Forest α)
  deriving Repr, DecidableEq

namespace Forest

variable {α β : Type}

/-- `f.size` is the number of nodes. -/
def size : Forest α → Nat
  | nil => 0
  | cons _ below rest => below.size + rest.size + 1

/-- `f.map g` applies `g` to the value of every node. -/
def map (g : α → β) : Forest α → Forest β
  | nil => nil
  | cons value below rest => cons (g value) (below.map g) (rest.map g)

/-- `f.toList` lists the values in document order: a node, what is below it, what is behind
it. -/
def toList : Forest α → List α
  | nil => []
  | cons value below rest => value :: (below.toList ++ rest.toList)

/-- `f.tops` lists the values at the tops of the trees. -/
def tops : Forest α → List α
  | nil => []
  | cons value _ rest => value :: rest.tops

/-- `ofRev trees` is the forest of trees that are given from the last to the first. -/
def ofRev (trees : List (α × Forest α)) : Forest α :=
  trees.foldl (fun rest tree ↦ cons tree.1 tree.2 rest) nil

@[simp] theorem length_toList (f : Forest α) : f.toList.length = f.size := by
  induction f with
  | nil => rfl
  | cons value below rest ihBelow ihRest =>
      simp [toList, size, ihBelow, ihRest]

@[simp] theorem toList_map (g : α → β) (f : Forest α) : (f.map g).toList = f.toList.map g := by
  induction f with
  | nil => rfl
  | cons value below rest ihBelow ihRest =>
      simp [toList, map, ihBelow, ihRest]

@[simp] theorem size_map (g : α → β) (f : Forest α) : (f.map g).size = f.size := by
  rw [← length_toList, ← length_toList, toList_map, List.length_map]

end Forest

end Stylesheet
