import Stylesheet.Proofs.Locality
import Stylesheet.Proofs.Walking

/-!
# Reading numbers the nodes in document order

Assembly makes a tree, and the nodes of the document are those of the tree, numbered from the root
on in document order. So a walk from the root of a document that was read meets the numbers one
after the other, with none left out (`walk_of_parse`). Of the sorts of nodes, only the root is of
the kind root and none is of a dialect, and a node has a block if it is a rule and has none if it
is a declaration or a comment.
-/

namespace Stylesheet

open Document (root)

/-- Number zero of a document that was read is a root. -/
theorem root_of_parse {source : Source} {mode : Mode} {doc : Document}
    (h : parse source mode = .ok doc) : 0 < doc.size ∧ doc.type root = .root := by
  obtain ⟨a, hassemble, rfl⟩ := parse_eq_ok.mp h
  obtain ⟨-, hsize, -⟩ := (Assembly.isMade_of_assemble hassemble).unfolds_document
  refine ⟨by rw [hsize]; exact Nat.succ_pos _, ?_⟩
  rw [Document.type, Node.type, (Assembly.determines_document hassemble).kind]
  rfl

/-- Where no kind was overwritten, the root is of the kind root. -/
theorem type_root_of_run {start : Document}
    (hstart : start = .empty ∨ ∃ source mode, parse source mode = .ok start)
    {commands : List Command} (hkinds : ∀ command ∈ commands, command.setsKind = false) :
    (Command.run commands start).type root = .root := by
  have hroot : 0 < start.size ∧ start.type root = .root := by
    rcases hstart with rfl | ⟨source, mode, hparse⟩
    · exact ⟨Nat.one_pos, rfl⟩
    · exact root_of_parse hparse
  exact ((Command.changes_run (isLinked_of_start hstart) hkinds).type_eq hroot.1).trans hroot.2

/-- A walk from the root meets all other nodes of a document that was read, in the order of their
numbers. The sorts of these nodes are those that a text can show. -/
theorem walk_of_parse {source : Source} {mode : Mode} {doc : Document}
    (h : parse source mode = .ok doc) :
    doc.walk root = List.range' 1 (doc.size - 1) ∧ 0 < doc.size ∧ ∀ id < doc.size,
      (doc.type id = .root ↔ id = root) ∧ doc.type id ≠ .other ∧
        (doc.type id = .rule → (doc.node id).hasBlock = true) ∧
          (doc.type id = .declaration ∨ doc.type id = .comment →
            (doc.node id).hasBlock = false) := by
  obtain ⟨hpositive, hroot⟩ := root_of_parse h
  refine ⟨?_, hpositive, fun id hid ↦ ?_⟩
  · obtain ⟨a, hassemble, rfl⟩ := parse_eq_ok.mp h
    have hmade := Assembly.isMade_of_assemble hassemble
    obtain ⟨hunfolds, hsize, -⟩ := hmade.unfolds_document
    rw [Document.walk_of_unfolds hunfolds (by simp [hsize]), Forest.toList_numbers, hsize,
      Nat.add_sub_cancel]
  · have hshaped := isShaped_of_parse h id
    have hplain : (doc.type id = .root ↔ id = root) ∧ doc.type id ≠ .other := by
      by_cases hne : id = root
      · subst hne
        exact ⟨iff_of_true hroot rfl, by rw [hroot]; nofun⟩
      · obtain ⟨below, hdetermined⟩ := exists_isDetermined_of_parse h hne hid
        exact ⟨iff_of_false hdetermined.plain.1 hne, hdetermined.plain.2⟩
    exact ⟨hplain.1, hplain.2, fun hrule ↦ hshaped.hasBlock_of_type (.inr hrule),
      hshaped.leaf_of_type⟩

/-- A declaration that a missed semicolon cuts in two and blocks that are open at the end of the
text are numbered like any others. -/
theorem walk_of_parse_cut :
    ∃ doc, parse ⟨"@a \x7b b \x7b c: d e: f; /*g".toList, none⟩ .tolerant = .ok doc ∧
      doc.walk root = [1, 2, 3, 4, 5] := by
  have h {doc : Document}
      (hparse : parse ⟨"@a \x7b b \x7b c: d e: f; /*g".toList, none⟩ .tolerant = .ok doc)
      (hsize : doc.size = 6) : doc.walk root = [1, 2, 3, 4, 5] := by
    rw [(walk_of_parse hparse).1, hsize]
    rfl
  exact ⟨_, rfl, h rfl rfl⟩

end Stylesheet
