import Stylesheet.Document.Walk
import Stylesheet.Proofs.Descendants
import Stylesheet.Proofs.Forest

/-!
# A walk lists a forest

`Document.visit` keeps a stack of nodes and takes a bounded number of steps, and `Document.below`
is a forest that goes down a bounded number of levels. Where the links of a document unfold to a
forest, both follow the same links: visiting the nodes at its tops lists the forest and goes on
with what is behind them on the stack (`visit_of_unfolds`). In a linked document neither of the
bounds is met, as no node is listed twice, so that a walk lists all that is below a node
(`IsLinked.walk_eq`).
-/

namespace Stylesheet

namespace Document

variable {doc : Document} {id : NodeId}

@[simp] theorem visit_nil (doc : Document) (steps : Nat) : doc.visit steps [] = [] := by
  cases steps <;> rfl

/-- Visiting the nodes at the tops of a forest takes one step for each of its nodes. -/
theorem visit_of_unfolds {ids : List NodeId} {f : Forest NodeId} (h : doc.Unfolds ids f)
    {steps : Nat} (hsteps : f.size ≤ steps) (stack : List NodeId) :
    doc.visit steps (ids ++ stack) = f.toList ++ doc.visit (steps - f.size) stack := by
  induction h generalizing steps stack with
  | nil => rfl
  | cons id ids below rest _ _ ihBelow ihRest =>
      simp only [Forest.size] at hsteps
      obtain ⟨steps, rfl⟩ : ∃ s, steps = s + 1 := ⟨steps - 1, by omega⟩
      have hleft : steps - below.size - rest.size = steps + 1 - (below.size + rest.size + 1) := by
        omega
      rw [List.cons_append, visit, ihBelow (by omega), ihRest (by omega), hleft, Forest.toList,
        List.cons_append, List.append_assoc, Forest.size]

theorem walk_of_unfolds {f : Forest NodeId} (h : doc.Unfolds (doc.children id) f)
    (hsize : f.size ≤ doc.size) : doc.walk id = f.toList := by
  have hvisit := visit_of_unfolds h hsize []
  rwa [List.append_nil, visit_nil, List.append_nil] at hvisit

/-- The links below given nodes unfold to one forest only. -/
theorem Unfolds.unique {ids : List NodeId} {f g : Forest NodeId} (hf : doc.Unfolds ids f)
    (hg : doc.Unfolds ids g) : f = g := by
  induction hf generalizing g with
  | nil =>
      cases hg
      rfl
  | cons id ids below rest _ _ ihBelow ihRest =>
      cases hg with
      | cons _ _ _ _ hbelow hrest => rw [ihBelow hbelow, ihRest hrest]

theorem Unfolds.tops_eq {ids : List NodeId} {f : Forest NodeId} (h : doc.Unfolds ids f) :
    f.tops = ids := by
  induction h with
  | nil => rfl
  | cons id ids below rest _ _ _ ihRest => rw [Forest.tops, ihRest]

/-- A forest that does not go down as far as it could has been followed to the end. -/
theorem unfolds_grow {depth : Nat} {ids : List NodeId}
    (h : (doc.grow depth ids).height < depth) : doc.Unfolds ids (doc.grow depth ids) := by
  induction depth generalizing ids with
  | zero => exact absurd h (Nat.not_lt_zero _)
  | succ depth ih =>
      induction ids with
      | nil => exact .nil
      | cons id ids ihIds =>
          rw [grow] at h ihIds ⊢
          simp only [List.foldr_cons, Forest.height, Nat.max_lt] at h
          exact .cons id ids _ _ (ih (by omega)) (ihIds h.2)

theorem below_of_size_le (h : doc.size ≤ id) : doc.below id = .nil := by
  rw [below, children_of_size_le h]
  exact grow_eq_of_unfolds .nil (Nat.zero_le _)

namespace IsLinked

variable (h : doc.IsLinked)
include h

/-- A node and the nodes below it are listed once each. -/
theorem nodup_tree (id : NodeId) : (id :: (doc.below id).toList).Nodup :=
  List.nodup_cons.mpr ⟨fun hself ↦ h.not_ancestor_self id (h.mem_below_iff.mp hself),
    h.nodup_below id⟩

/-- There are fewer nodes below a node than the document has. -/
theorem size_below_lt (hid : id < doc.size) : (doc.below id).size < doc.size := by
  have hsubset : (id :: (doc.below id).toList) ⊆ List.range doc.size := by
    intro other hother
    rw [List.mem_range]
    rcases List.mem_cons.mp hother with rfl | hother
    · exact hid
    · exact (h.mem_below_iff.mp hother).lt_size
  have hle := (h.nodup_tree id).length_le_of_subset hsubset
  rw [List.length_cons, List.length_range, Forest.length_toList] at hle
  exact hle

/-- The bounded look-up follows the links below a node to the end. -/
theorem unfolds_below (id : NodeId) : doc.Unfolds (doc.children id) (doc.below id) := by
  rcases Nat.lt_or_ge id doc.size with hid | hid
  · exact unfolds_grow (Nat.lt_of_le_of_lt (Forest.height_le_size _) (h.size_below_lt hid))
  · rw [below_of_size_le hid, children_of_size_le hid]
    exact .nil

theorem walk_eq (id : NodeId) : doc.walk id = (doc.below id).toList := by
  refine walk_of_unfolds (h.unfolds_below id) ?_
  rcases Nat.lt_or_ge id doc.size with hid | hid
  · exact Nat.le_of_lt (h.size_below_lt hid)
  · rw [below_of_size_le hid]
    exact Nat.zero_le _

theorem toList_tree (id : NodeId) :
    (Forest.cons id (doc.below id) .nil).toList = id :: doc.walk id := by
  rw [h.walk_eq, Forest.toList, Forest.toList, List.append_nil]

/-- A walk lists the nodes that a node is above. -/
theorem mem_walk_iff {above : NodeId} : id ∈ doc.walk above ↔ doc.Ancestor above id := by
  rw [h.walk_eq]
  exact h.mem_below_iff

end IsLinked

end Document

end Stylesheet
