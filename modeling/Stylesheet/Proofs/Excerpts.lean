import Stylesheet.Proofs.Locality
import Stylesheet.Proofs.Walking

/-!
# Printing a part of a document

A node can be printed alone, with all that is below it. The style is then still that of the whole
tree, which is found from the top of the tree (`IsLinked.top_of_ancestor`), and what is inferred
from siblings and parents does not depend on where printing begins. So all that differs is whether
the node ends with a semicolon, which only the nodes around it tell. `printNode_of_run` says that
what is printed of a node in the tree stands together in what is printed of the document, but for
that semicolon.
-/

namespace Stylesheet

/-! ## Parts of what is printed -/

namespace Printed

/-- `p.IsPartOf q` says that neither fails and that the fragments of `p` stand together in `q`. -/
structure IsPartOf (p q : Printed) : Prop where
  failure : p.failure = none
  failure_whole : q.failure = none
  fragments : p.fragments <:+: q.fragments

variable {p q r : Printed}

theorem IsPartOf.refl (h : p.failure = none) : p.IsPartOf p := ⟨h, h, List.infix_refl _⟩

theorem IsPartOf.append (h : p.IsPartOf q) (hr : r.failure = none) : p.IsPartOf (q ++ r) := by
  rw [append_of_failure_none r h.failure_whole]
  exact ⟨h.failure, hr, h.fragments.trans (List.prefix_append _ _).isInfix⟩

theorem IsPartOf.prepend (h : p.IsPartOf q) (hr : r.failure = none) : p.IsPartOf (r ++ q) := by
  rw [append_of_failure_none q hr]
  exact ⟨h.failure, h.failure_whole, h.fragments.trans (List.suffix_append _ _).isInfix⟩

end Printed

namespace Printer

variable {p : Printer} (hp : p.IsGeneric) {l : Layout} (hshaped : l.document.IsShaped)
include hp hshaped

/-- The body of a node is a part of what is printed of the node. -/
theorem isPartOf_node {id : NodeId} (hblock : (l.document.node id).hasBlock = true)
    (semicolon : Bool) {part body : Printed} (h : part.IsPartOf body) :
    part.IsPartOf (p.node l id semicolon body) := by
  obtain ⟨head, hnode⟩ := exists_node_of_block hp (hshaped id) hblock
  rw [hnode]
  exact (h.append (l.hasMarks_closing id).failure).prepend rfl

/-- Each node of a forest is printed with what is below it in one part of what is printed of the
forest. -/
theorem exists_isPartOf_forest {ids : List NodeId} {f : Forest NodeId}
    (h : l.document.Unfolds ids f) (hblocked : (f.map l.document.node).IsBlocked) {id : NodeId}
    (hid : id ∈ f.toList) (semicolon : Bool) :
    ∃ below ended, l.document.Unfolds (l.document.children id) below ∧
      (p.node l id ended (p.forest l (l.semicolon id) below)).IsPartOf
      (p.forest l semicolon f) := by
  induction h generalizing semicolon with
  | nil => cases hid
  | cons top ids under rest hunder _ ihUnder ihRest =>
      obtain ⟨hblock, hblockedUnder, hblockedRest⟩ := hblocked
      have hgap := (Printed.hasMarks_gap (l.before top)).failure
      have hrest := (hasMarks_forest hp hshaped semicolon rest).failure
      have hnode := (hasMarks_node hp hshaped top (endsBefore l.document rest || semicolon)
        (hasMarks_forest hp hshaped (l.semicolon top) under)).failure
      rw [Forest.toList, List.mem_cons, List.mem_append] at hid
      rcases hid with rfl | hid | hid
      · exact ⟨under, _, hunder, ((Printed.IsPartOf.refl hnode).prepend hgap).append hrest⟩
      · obtain ⟨below, ended, hbelow, hpart⟩ := ihUnder hblockedUnder hid (l.semicolon top)
        have htop : (l.document.node top).hasBlock = true :=
          hblock.resolve_left (Forest.map_ne_nil_of_mem hid)
        exact ⟨below, ended, hbelow,
          ((isPartOf_node hp hshaped htop _ hpart).prepend hgap).append hrest⟩
      · obtain ⟨below, ended, hbelow, hpart⟩ := ihRest hblockedRest hid semicolon
        refine ⟨below, ended, hbelow, hpart.prepend ?_⟩
        rw [Printed.append_of_failure_none _ hgap]
        exact hnode

end Printer

/-! ## Documents -/

namespace Document

variable {doc : Document} {id : NodeId} {p : Printer}

/-- The whole tree is laid out in the same way, whichever of its nodes is printed. -/
theorem IsLinked.layout_eq (h : doc.IsLinked) (p : Printer)
    (hattached : doc.isAttached id = true) : p.layout doc id = p.layout doc Document.root := by
  by_cases hid : id = Document.root
  · rw [hid]
  · rw [Printer.layout, Printer.layout,
      h.top_of_ancestor (h.ancestor_of_isAttached hattached hid)]

/-- A node in the tree is printed in one part of what is printed of the document, with a semicolon
or without one. -/
theorem IsLinked.exists_isPartOf_print (h : doc.IsLinked) (hp : p.IsGeneric)
    (hshaped : doc.IsShaped) (hattached : doc.isAttached id = true) :
    let l := p.layout doc id
    ∃ ended, (p.node l id ended (p.forest l (l.semicolon id) (doc.below id))).IsPartOf
      (p.print doc) := by
  rw [h.layout_eq p hattached]
  intro l
  have hshaped : l.document.IsShaped := hshaped
  by_cases hid : id = Document.root
  · rw [hid]
    exact ⟨false,
      .refl
      (Printer.hasMarks_node hp hshaped _ _ (Printer.hasMarks_forest hp hshaped _ _)).failure⟩
  · have habove := h.ancestor_of_isAttached hattached hid
    obtain ⟨below, ended, hbelow, hpart⟩ := Printer.exists_isPartOf_forest hp hshaped
      (h.unfolds_below Document.root) (isBlocked_grow doc _ _) (h.mem_below_iff.mpr habove)
      (l.semicolon Document.root)
    cases hbelow.unique (h.unfolds_below id)
    exact ⟨ended, Printer.isPartOf_node hp hshaped (h.hasBlock_of_ancestor habove) false hpart⟩

end Document

/-- In a document that was read or started empty and has then been edited without overwriting a
kind, a node in the tree can be printed alone. If it has a block, its fragments stand together in
what is printed of the document. If it has none, it has one fragment, which may lack the semicolon
that the document has behind it. -/
theorem printNode_of_run {start : Document}
    (hstart : start = .empty ∨ ∃ source mode, parse source mode = .ok start)
    (commands : List Command) (hkinds : ∀ command ∈ commands, command.setsKind = false)
    {id : NodeId} (hattached : (Command.run commands start).isAttached id = true) :
    let doc := Command.run commands start
    let alone := ({} : Printer).printNode doc id
    let whole := ({} : Printer).print doc
    alone.failure = none ∧ whole.failure = none ∧
      if (doc.node id).hasBlock then alone.fragments <:+: whole.fragments
      else ∃ text ended, alone.fragments = [⟨text, some id, none⟩] ∧
        [⟨text ++ Layout.semicolonText ended, some id, none⟩] <:+: whole.fragments := by
  intro doc alone whole
  have hlinked : doc.IsLinked := Command.isLinked_run (isLinked_of_start hstart) commands
  have hgeneric : ({} : Printer).IsGeneric := ⟨rfl, rfl⟩
  have hshaped : (({} : Printer).layout doc id).document.IsShaped := isShaped_of_run hstart hkinds
  obtain ⟨ended, hpart⟩ := hlinked.exists_isPartOf_print hgeneric hshaped hattached
  have hfailure : alone.failure = none :=
    (Printer.hasMarks_node hgeneric hshaped id false
      (Printer.hasMarks_forest hgeneric hshaped _ _)).failure
  refine ⟨hfailure, hpart.failure_whole, ?_⟩
  cases hblock : (doc.node id).hasBlock with
  | true =>
      obtain ⟨head, hnode⟩ := Printer.exists_node_of_block hgeneric (hshaped id) hblock
      have hsame : (({} : Printer).node _ id ended _).fragments = alone.fragments :=
        congrArg Printed.fragments ((hnode ended _).trans (hnode false _).symm)
      rw [if_pos rfl, ← hsame]
      exact hpart.fragments
  | false =>
      obtain ⟨text, hnode⟩ := Printer.exists_node_of_leaf hgeneric (hshaped id) hblock
      have halone : alone.fragments = [⟨text, some id, none⟩] := by
        rw [← text.append_nil]
        exact congrArg Printed.fragments (hnode false _)
      rw [hnode] at hpart
      rw [if_neg Bool.false_ne_true]
      exact ⟨text, _, halone, hpart.fragments⟩

/-- A new declaration takes its colon from the style of the document, also when it is printed
alone. Then it lacks the semicolon that parts it from the next one. -/
theorem printNode_of_new_declaration :
    ∃ start, parse ⟨"a\x7bb: c\x7d".toList, none⟩ .strict = .ok start ∧
      let doc := Command.run [.create (.declaration ['d'] ['e'] false), .prepend 1 3] start
      (({} : Printer).print doc).text = "a\x7bd: e;b: c\x7d".toList ∧
        (({} : Printer).printNode doc 3).fragments = [⟨"d: e".toList, some 3, none⟩] ∧
        ∃ ended, [⟨"d: e".toList ++ Layout.semicolonText ended, some 3, none⟩] <:+:
          (({} : Printer).print doc).fragments := by
  have h {start : Document} (hparse : parse ⟨"a\x7bb: c\x7d".toList, none⟩ .strict = .ok start) :
      let doc := Command.run [.create (.declaration ['d'] ['e'] false), .prepend 1 3] start
      doc.isAttached 3 = true → (doc.node 3).hasBlock = false →
      (({} : Printer).printNode doc 3).fragments = [⟨"d: e".toList, some 3, none⟩] →
        ∃ ended, [⟨"d: e".toList ++ Layout.semicolonText ended, some 3, none⟩] <:+:
          (({} : Printer).print doc).fragments := by
    intro doc hattached hleaf halone
    obtain ⟨-, -, hprint⟩ := printNode_of_run (.inr ⟨_, _, hparse⟩)
      [.create (.declaration ['d'] ['e'] false), .prepend 1 3] (by decide) hattached
    rw [if_neg (Bool.eq_false_iff.mp hleaf)] at hprint
    obtain ⟨text, ended, htext, hinfix⟩ := hprint
    cases halone.symm.trans htext
    exact ⟨ended, hinfix⟩
  exact ⟨_, rfl, rfl, rfl, h rfl rfl rfl rfl⟩

end Stylesheet
