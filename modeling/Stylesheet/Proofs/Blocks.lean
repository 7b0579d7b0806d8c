import Stylesheet.Proofs.Edits
import Stylesheet.Proofs.Steps

/-!
# Reading makes a linked document

In either mode only nodes with a block have nodes below them (`Assembly.IsMade`). So the tree that
a document is made from can be numbered, and the document is linked (`isLinked_of_parse`). It
stays linked whatever commands are carried out on it (`links_of_run`).
-/

namespace Stylesheet

namespace Assembly

/-- What is recorded of repairs is no link. -/
theorem sameLinks_foldl_recover (doc : Document) (recoveries : List Recovery) :
    doc.SameLinks (recoveries.foldl Document.recover doc) := by
  induction recoveries generalizing doc with
  | nil => exact .refl doc
  | cons recovery recoveries ih => exact (doc.sameLinks_recover recovery).trans (ih _)

theorem IsMade.isLinked_document {a : Assembly} (ha : a.IsMade) : a.document.IsLinked := by
  have hbelow := ha.current.earlier.imp (Q := fun n below ↦ below = .nil ∨ n.hasBlock = true)
    fun _ _ hmade ↦ hmade.block
  exact (sameLinks_foldl_recover _ _).isLinked
    (Document.isLinked_ofForest _ _ ⟨.inr ha.current.block, hbelow, trivial⟩)

end Assembly

/-- A document that has been read is linked, in either mode. -/
theorem isLinked_of_parse {source : Source} {mode : Mode} {doc : Document}
    (h : parse source mode = .ok doc) : doc.IsLinked := by
  obtain ⟨final, hfinal, rfl⟩ := parse_eq_ok.mp h
  exact (Assembly.isMade_of_assemble hfinal).isLinked_document

/-- A document without any text is linked. -/
theorem isLinked_empty : Document.empty.IsLinked := by
  have hroot : (Forest.cons { Node.ofKind .root with origin := some { start := .start } } .nil
      .nil).IsBlocked := ⟨.inl rfl, trivial, trivial⟩
  exact Document.isLinked_ofForest ⟨[], none⟩ .strict hroot

/-- All documents that an edit can start from are linked. -/
theorem isLinked_of_start {start : Document}
    (hstart : start = .empty ∨ ∃ source mode, parse source mode = .ok start) :
    start.IsLinked := by
  rcases hstart with rfl | ⟨source, mode, hparse⟩
  · exact isLinked_empty
  · exact isLinked_of_parse hparse

/-- No run of commands breaks the links of a document that was read or started empty: parents and
children agree, no node is listed twice, the root has no parent, both ends of a link are nodes of
the document, no node is its own ancestor, and every chain of parents ends. -/
theorem links_of_run {start : Document}
    (hstart : start = .empty ∨ ∃ source mode, parse source mode = .ok start)
    (commands : List Command) :
    let doc := Command.run commands start
    (∀ parent child, child ∈ doc.children parent ↔ doc.parent child = some parent) ∧
      (∀ id, (doc.children id).Nodup) ∧
      doc.parent Document.root = none ∧
      (∀ parent child, doc.parent child = some parent → parent < doc.size ∧ child < doc.size) ∧
      (∀ id, ¬doc.Ancestor id id) ∧
      ∀ id, ∃ top, (top = id ∨ doc.Ancestor top id) ∧ doc.parent top = none := by
  have hlinked : start.IsLinked := by
    rcases hstart with rfl | ⟨source, mode, hparse⟩
    · exact isLinked_empty
    · exact isLinked_of_parse hparse
  have h := Command.isLinked_run hlinked commands
  exact ⟨fun _ _ ↦ h.mem_children_iff, h.nodup, h.root, fun _ _ ↦ h.lt_size, h.not_ancestor_self,
    h.exists_top⟩

/-- A rule that was moved into another one does not take that one in. -/
theorem links_of_refused_cycle :
    ∃ start, parse ⟨"a{b:c}d{}".toList, none⟩ .strict = .ok start ∧
      (Command.run [.append 3 1, .append 1 3] start).children 3 = [1] ∧
      ¬(Command.run [.append 3 1, .append 1 3] start).Ancestor 3 3 :=
  ⟨_, rfl, rfl, (links_of_run (.inr ⟨⟨"a{b:c}d{}".toList, none⟩, .strict, rfl⟩)
    [.append 3 1, .append 1 3]).2.2.2.2.1 3⟩

end Stylesheet
