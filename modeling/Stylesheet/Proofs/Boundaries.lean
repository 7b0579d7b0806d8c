import Stylesheet.Proofs.Order

/-!
# The boundaries of nodes in what is printed

The fragments of a printed document are marked by the nodes that they belong to, and the marks are
computed by a recursion on the forest of nodes (`Document.marks`). Two facts about this recursion
say how the fragments are nested. The marks that are no stop list the forest in document order
(`tops_marks`), and the marks of a node stand together, apart from those of all nodes that are
neither it nor below it (`exists_marks_around`).
-/

namespace Stylesheet

theorem Printer.hasMarks_print {p : Printer} (hp : p.IsGeneric) {doc : Document}
    (hshaped : doc.IsShaped) :
    (p.print doc).HasMarks (doc.marks (.cons Document.root (doc.below Document.root) .nil)) :=
  hasMarks_node hp (l := p.layout doc Document.root) hshaped _ _
    (hasMarks_forest hp (l := p.layout doc Document.root) hshaped _ _)

/-! ## What the marks of a forest are -/

namespace Document

variable {doc : Document}

/-- The marks that are no stop list a forest in document order. -/
theorem tops_marks {f : Forest NodeId} (hblocked : (f.map doc.node).IsBlocked) :
    ((doc.marks f).filter (·.2 ≠ some .stop)).map (·.1) = f.toList := by
  induction f with
  | nil => rfl
  | cons id below rest ihBelow ihRest =>
      obtain ⟨hblock, hbelow, hrest⟩ := hblocked
      rw [marks, Forest.toList, ← ihBelow hbelow, ← ihRest hrest]
      split
      · simp
      · next hleaf =>
          rw [Forest.map_eq_nil_iff] at hblock
          simp [hblock.resolve_right hleaf, marks]

/-- The marks of a node with those of the nodes below it stand together. All other marks are of
nodes that are listed before it or behind these. -/
theorem exists_marks_around {ids : List NodeId} {f : Forest NodeId} (h : doc.Unfolds ids f)
    (hblocked : (f.map doc.node).IsBlocked) {id : NodeId} (hid : id ∈ f.toList) :
    ∃ below, doc.Unfolds (doc.children id) below ∧ ∃ before behind first last,
      doc.marks f = before ++ (doc.marks (.cons id below .nil) ++ behind) ∧
        f.toList = first ++ (id :: below.toList ++ last) ∧
          ∀ mark ∈ before ++ behind, mark.1 ∈ first ++ last := by
  induction h with
  | nil => cases hid
  | cons top ids under rest hunder hrest ihUnder ihRest =>
      obtain ⟨hblock, hblockedUnder, hblockedRest⟩ := hblocked
      rw [Forest.toList, List.mem_cons, List.mem_append] at hid
      rcases hid with rfl | hid | hid
      · refine ⟨under, hunder, [], doc.marks rest, [], rest.toList, ?_, ?_, ?_⟩
        · simp only [marks]
          split <;> simp
        · simp [Forest.toList]
        · exact fun mark hmark ↦ mem_of_mem_marks hmark
      · obtain ⟨below, hbelow, before, behind, first, last, hmarks, hlist, hothers⟩ :=
          ihUnder hblockedUnder hid
        -- A node that has nodes below it has a block, so that its edges are around their marks.
        have hcontainer : (doc.node top).hasBlock = true :=
          hblock.resolve_left (Forest.map_ne_nil_of_mem hid)
        refine ⟨below, hbelow, (top, some .start) :: before,
          behind ++ (top, some .stop) :: doc.marks rest, top :: first, last ++ rest.toList,
          ?_, ?_, ?_⟩
        · simp [marks, hcontainer, hmarks]
        · simp [Forest.toList, hlist]
        · have hrest {mark} (h : mark ∈ doc.marks rest) := mem_of_mem_marks h
          grind
      · obtain ⟨below, hbelow, before, behind, first, last, hmarks, hlist, hothers⟩ :=
          ihRest hblockedRest hid
        refine ⟨below, hbelow, doc.marks (.cons top under .nil) ++ before, behind,
          top :: under.toList ++ first, last, ?_, ?_, ?_⟩
        · rw [marks, hmarks]
          simp only [marks]
          split <;> simp
        · simp [Forest.toList, hlist]
        · have hunder {mark} (h : mark ∈ doc.marks (.cons top under .nil)) := mem_of_mem_marks h
          simp only [Forest.toList, List.append_nil] at hunder
          grind

/-! ## Nested fragments -/

/-- `doc.HasEdges id` says that a node is printed between two edges. -/
def HasEdges (doc : Document) (id : NodeId) : Prop :=
  id = root ∨ doc.type id = .rule ∨ (doc.node id).hasBlock = true

/-- `doc.Delimits fragments` says how fragments belong to the nodes of a document. -/
structure Delimits (doc : Document) (fragments : List Fragment) : Prop where
  /-- The fragments that are no stop belong to the root and to the nodes of a walk, one to each in
  order. -/
  order : (fragments.filter (·.boundary ≠ some .stop)).filterMap (·.node) = root :: doc.walk root
  /-- No fragment belongs to any other node. -/
  attached : ∀ fragment ∈ fragments, ∀ id, fragment.node = some id →
    id = root ∨ id ∈ doc.walk root
  /-- A node with edges has one start and one stop, and what belongs to the nodes below it is
  between them. -/
  edges : ∀ id, id = root ∨ id ∈ doc.walk root → doc.HasEdges id →
    ∃ before head inner tail behind, fragments = before ++ ⟨head, some id, some .start⟩ ::
        (inner ++ ⟨tail, some id, some .stop⟩ :: behind) ∧
      (∀ fragment ∈ inner, ∀ other, fragment.node = some other → doc.Ancestor id other) ∧
        ∀ fragment ∈ before ++ behind, ∀ other, fragment.node = some other →
          other ≠ id ∧ ¬doc.Ancestor id other
  /-- Any other node has one fragment, which is no edge. -/
  single : ∀ id ∈ doc.walk root, ¬doc.HasEdges id → ∃ before text behind,
    fragments = before ++ ⟨text, some id, none⟩ :: behind ∧
      ∀ fragment ∈ before ++ behind, fragment.node ≠ some id
  /-- A fragment that belongs to no node is no edge. -/
  plain : ∀ fragment ∈ fragments, fragment.node = none → fragment.boundary = none

/-- A mark is that of one of the fragments, and what stands around it is that of the fragments
around it. -/
theorem exists_fragment_of_marks {fragments : List Fragment} {id : NodeId}
    {edge : Option Boundary} {before behind : List (NodeId × Option Boundary)}
    (h : fragments.filterMap Fragment.mark? = before ++ (id, edge) :: behind) :
    ∃ first text last, fragments = first ++ ⟨text, some id, edge⟩ :: last ∧
      first.filterMap Fragment.mark? = before ∧ last.filterMap Fragment.mark? = behind := by
  obtain ⟨first, rest, rfl, hfirst, hrest⟩ := List.filterMap_eq_append_iff.mp h
  obtain ⟨gap, fragment, last, rfl, hgap, hmark, hlast⟩ := List.filterMap_eq_cons_iff.mp hrest
  obtain ⟨text, node, boundary⟩ := fragment
  obtain ⟨n, hnode, hpair⟩ := Option.map_eq_some_iff.mp hmark
  cases hnode
  cases hpair
  refine ⟨first ++ gap, text, last, by rw [List.append_assoc], ?_, hlast⟩
  rw [List.filterMap_append, hfirst, List.filterMap_eq_nil_iff.mpr hgap, List.append_nil]

theorem nodes_eq_map_marks (fragments : List Fragment) :
    (fragments.filter (·.boundary ≠ some .stop)).filterMap (·.node) =
      ((fragments.filterMap Fragment.mark?).filter (·.2 ≠ some .stop)).map (·.1) := by
  induction fragments with
  | nil => rfl
  | cons fragment fragments ih =>
      obtain ⟨text, node, boundary⟩ := fragment
      by_cases hstop : boundary = some .stop <;> cases node <;>
        simpa [Fragment.mark?, List.filter_cons, List.filterMap_cons, hstop] using ih

/-- In a document whose nodes are shaped, the nodes with edges are those with a block. -/
theorem IsShaped.hasEdges_iff (hshaped : doc.IsShaped) (hroot : doc.type root = .root)
    {id : NodeId} : doc.HasEdges id ↔ (doc.node id).hasBlock = true := by
  refine ⟨?_, fun hblock ↦ .inr (.inr hblock)⟩
  rintro (rfl | hrule | hblock)
  · exact (hshaped root).hasBlock_of_type (.inl hroot)
  · exact (hshaped id).hasBlock_of_type (.inr hrule)
  · exact hblock

theorem isBlocked_tree {id : NodeId} (hblock : (doc.node id).hasBlock = true) :
    ((Forest.cons id (doc.below id) .nil).map doc.node).IsBlocked :=
  ⟨.inr hblock, isBlocked_grow doc _ _, trivial⟩

/-- The marks of a node and of the nodes below it stand apart from those of all other nodes. -/
theorem IsLinked.exists_marks_apart (h : doc.IsLinked) {top id : NodeId}
    (hblock : (doc.node top).hasBlock = true) (hid : id ∈ top :: doc.walk top) :
    ∃ before behind,
      doc.marks (.cons top (doc.below top) .nil) =
          before ++ (doc.marks (.cons id (doc.below id) .nil) ++ behind) ∧
        ∀ mark ∈ before ++ behind, mark.1 ≠ id ∧ ¬doc.Ancestor id mark.1 := by
  have hnodup := h.nodup_tree top
  rw [← h.walk_eq, ← h.toList_tree top] at hnodup
  rw [← h.toList_tree top] at hid
  obtain ⟨below, hbelow, before, behind, first, last, hmarks, hlist, hothers⟩ :=
    exists_marks_around (.cons top [] _ _ (h.unfolds_below top) .nil) (isBlocked_tree hblock) hid
  obtain rfl := hbelow.unique (h.unfolds_below id)
  refine ⟨before, behind, hmarks, fun mark hmark ↦ ?_⟩
  rw [hlist, (List.perm_append_comm_assoc first _ last).nodup_iff, List.nodup_append] at hnodup
  rw [← h.mem_below_iff, ← not_or, ← List.mem_cons]
  exact fun hmem ↦ hnodup.2.2 _ hmem _ (hothers mark hmark) rfl

/-- Fragments with the marks of all nodes below the root belong to the nodes of the document as
they should. -/
theorem delimits_of_hasMarks (hlinked : doc.IsLinked) (hshaped : doc.IsShaped)
    (hroot : doc.type root = .root) {p : Printed}
    (h : p.HasMarks (doc.marks (.cons root (doc.below root) .nil))) :
    doc.Delimits p.fragments := by
  have hblock : (doc.node root).hasBlock = true := (hshaped.hasEdges_iff hroot).mp (.inl rfl)
  have hlist := hlinked.toList_tree root
  constructor
  · rw [nodes_eq_map_marks, h.marks, tops_marks (isBlocked_tree hblock), hlist]
  · intro fragment hmem id hnode
    have hmark := Fragment.mark_mem hmem hnode
    rw [h.marks] at hmark
    have hid := mem_of_mem_marks hmark
    rw [hlist] at hid
    exact List.mem_cons.mp hid
  · intro id hid hhas
    obtain ⟨before, behind, hmarks, hothers⟩ :=
      hlinked.exists_marks_apart hblock (List.mem_cons.mpr hid)
    rw [← h.marks, marks, if_pos ((hshaped.hasEdges_iff hroot).mp hhas), List.cons_append,
      List.append_assoc, List.cons_append, marks, List.nil_append] at hmarks
    obtain ⟨first, head, rest, hfirst, rfl, hrest⟩ := exists_fragment_of_marks hmarks
    obtain ⟨inner, tail, last, rfl, hinner, rfl⟩ := exists_fragment_of_marks hrest
    refine ⟨first, head, inner, tail, last, hfirst, fun fragment hmem other hnode ↦ ?_,
      fun fragment hmem other hnode ↦ ?_⟩
    · have hmark := Fragment.mark_mem hmem hnode
      rw [hinner] at hmark
      exact hlinked.mem_below_iff.mp (mem_of_mem_marks hmark)
    · have hmark := Fragment.mark_mem hmem hnode
      rw [List.filterMap_append] at hmark
      exact hothers _ hmark
  · intro id hid hhas
    obtain ⟨before, behind, hmarks, hothers⟩ :=
      hlinked.exists_marks_apart hblock (List.mem_cons_of_mem _ hid)
    rw [← h.marks, marks, if_neg (mt (hshaped.hasEdges_iff hroot).mpr hhas), marks,
      List.singleton_append] at hmarks
    obtain ⟨first, text, last, hfirst, rfl, rfl⟩ := exists_fragment_of_marks hmarks
    refine ⟨first, text, last, hfirst, fun fragment hmem hnode ↦ ?_⟩
    have hmark := Fragment.mark_mem hmem hnode
    rw [List.filterMap_append] at hmark
    exact (hothers _ hmark).1 rfl
  · exact h.plain

end Document

/-! ## Documents that were read and edited -/

/-- The fragments of a printed document are well nested and in document order: this holds of every
document that was read or started empty and has then been edited without overwriting a kind. -/
theorem print_delimits {start : Document}
    (hstart : start = .empty ∨ ∃ source mode, parse source mode = .ok start)
    (commands : List Command) (hkinds : ∀ command ∈ commands, command.setsKind = false) :
    let doc := Command.run commands start
    (({} : Printer).print doc).failure = none ∧
      doc.Delimits (({} : Printer).print doc).fragments := by
  have hlinked := isLinked_of_start hstart
  have hshaped := isShaped_of_run hstart hkinds
  have hroot : 0 < start.size ∧ start.type Document.root = .root := by
    rcases hstart with rfl | ⟨source, mode, hparse⟩
    · exact ⟨Nat.one_pos, rfl⟩
    · exact root_of_parse hparse
  have hchanges := Command.changes_run hlinked hkinds
  have hmarks := Printer.hasMarks_print (p := {}) ⟨rfl, rfl⟩ hshaped
  exact ⟨hmarks.failure,
    Document.delimits_of_hasMarks (Command.isLinked_run hlinked commands) hshaped
    ((hchanges.type_eq hroot.1).trans hroot.2) hmarks⟩

/-- A declaration that is moved into a node of a dialect is printed between the edges of that
node. -/
theorem print_delimits_dialect :
    ∃ start, parse ⟨"a\x7b b: c \x7d".toList, none⟩ .strict = .ok start ∧
      let doc := Command.run [.create (.other ['d'] ['e'] ['f']), .append 0 3, .append 3 2] start
      doc.walk Document.root = [1, 3, 2] ∧ ∃ before head inner tail behind,
        (({} : Printer).print doc).fragments = before ++ ⟨head, some 3, some .start⟩ ::
          (inner ++ ⟨tail, some 3, some .stop⟩ :: behind) := by
  have h {start : Document} (hparse : parse ⟨"a\x7b b: c \x7d".toList, none⟩ .strict = .ok start)
      (hwalk : 3 ∈ (Command.run [.create (.other ['d'] ['e'] ['f']), .append 0 3, .append 3 2]
        start).walk Document.root)
      (hblock : ((Command.run [.create (.other ['d'] ['e'] ['f']), .append 0 3, .append 3 2]
        start).node 3).hasBlock = true) :
      ∃ before head inner tail behind,
        (({} : Printer).print (Command.run [.create (.other ['d'] ['e'] ['f']), .append 0 3,
          .append 3 2] start)).fragments = before ++ ⟨head, some 3, some .start⟩ ::
            (inner ++ ⟨tail, some 3, some .stop⟩ :: behind) := by
    have hprint := (print_delimits (.inr ⟨_, _, hparse⟩)
      [.create (.other ['d'] ['e'] ['f']), .append 0 3, .append 3 2] (by decide)).2
    obtain ⟨before, head, inner, tail, behind, hfragments, -⟩ :=
      hprint.edges 3 (.inr hwalk) (.inr (.inr hblock))
    exact ⟨before, head, inner, tail, behind, hfragments⟩
  exact ⟨_, rfl, rfl, h rfl (by decide) rfl⟩

end Stylesheet
