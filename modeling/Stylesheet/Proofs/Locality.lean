import Stylesheet.Proofs.Dependence
import Stylesheet.Proofs.Descendants
import Stylesheet.Proofs.Determined

/-!
# A setting is local in what is printed

A setting changes what one node means, and drops the written form of that. No other node is laid
out by either, so that all other nodes are printed as before (`forest_eq_of_not_mem`). The node
itself is printed in one place, as a node is below the root once only, and there only the text in
front of its block, or all its text if it has none, can be another one. `print_assign` says so of
the printed fragments: they are those from before the setting, but for the text of a single one.
-/

namespace Stylesheet

/-! ## Settings -/

theorem Setting.layout_raws (setting : Setting) (r : Raws) :
    (setting.raws r).layout = r.layout := by
  cases setting with
  | important mark => cases mark <;> rfl
  | _ => rfl

/-- A setting does not change how a node is laid out. -/
theorem Node.sameLayout_set? {n changed : Node} {setting : Setting}
    (h : n.set? setting = some changed) : n.SameLayout changed := by
  obtain ⟨kind, hkind, rfl⟩ := Option.map_eq_some_iff.mp h
  exact ⟨Setting.type_of_kind? hkind, rfl, rfl, setting.layout_raws n.raws⟩

theorem Document.sameLayout_modify (doc : Document) (id : NodeId) {f : Node → Node}
    (h : (doc.node id).SameLayout (f (doc.node id))) : doc.SameLayout (doc.modify id f) := by
  refine ⟨doc.size_modify id f, fun other ↦ ?_⟩
  rw [node_modify]
  split
  · next hother =>
      rw [hother.1]
      exact h
  · exact ⟨rfl, rfl, rfl, rfl⟩

/-! ## Fragments of a node -/

namespace Printed

/-- `p.Avoids id` says that printing does not fail and that no fragment belongs to the node
`id`. -/
structure Avoids (id : NodeId) (p : Printed) : Prop where
  failure : p.failure = none
  avoids : ∀ fragment ∈ p.fragments, fragment.node ≠ some id

variable {id : NodeId} {edge : Option Boundary} {p q r : Printed}

/-- A node has no fragments among those with the marks of other nodes. -/
theorem HasMarks.avoids {marks : List (NodeId × Option Boundary)} (h : p.HasMarks marks)
    (hid : ∀ mark ∈ marks, mark.1 ≠ id) : p.Avoids id :=
  ⟨h.failure, fun _ hmem hnode ↦ hid _ (h.marks ▸ Fragment.mark_mem hmem hnode) rfl⟩

theorem avoids_gap (text : Text) : (gap text).Avoids id :=
  (hasMarks_gap text).avoids (List.forall_mem_nil _)

theorem Avoids.append (hp : p.Avoids id) (hq : q.Avoids id) : (p ++ q).Avoids id := by
  rw [append_of_failure_none q hp.failure]
  exact ⟨hq.failure, List.forall_mem_append.mpr ⟨hp.avoids, hq.avoids⟩⟩

/-- `DiffersAt id edge p q` says that `p` and `q` are the same but for the text of one fragment,
which belongs to the node `id` at this edge. The node has no other fragments than the end of its
block. -/
def DiffersAt (id : NodeId) (edge : Option Boundary) (p q : Printed) : Prop :=
  ∃ before behind old new,
    p = ⟨before ++ ⟨old, some id, edge⟩ :: behind, none⟩ ∧
      q = ⟨before ++ ⟨new, some id, edge⟩ :: behind, none⟩ ∧
        ∀ fragment ∈ before ++ behind, fragment.node = some id →
          edge = some .start ∧ fragment.boundary = some .stop

theorem DiffersAt.prepend (h : DiffersAt id edge p q) (hr : r.Avoids id) :
    DiffersAt id edge (r ++ p) (r ++ q) := by
  obtain ⟨before, behind, old, new, rfl, rfl, hothers⟩ := h
  refine ⟨r.fragments ++ before, behind, old, new, ?_, ?_, ?_⟩
  · rw [append_of_failure_none _ hr.failure, List.append_assoc]
  · rw [append_of_failure_none _ hr.failure, List.append_assoc]
  · rw [List.append_assoc]
    exact List.forall_mem_append.mpr
      ⟨fun fragment hmem hnode ↦ absurd hnode (hr.avoids fragment hmem), hothers⟩

theorem DiffersAt.append (h : DiffersAt id edge p q) (hr : r.Avoids id) :
    DiffersAt id edge (p ++ r) (q ++ r) := by
  obtain ⟨before, behind, old, new, rfl, rfl, hothers⟩ := h
  refine ⟨before, behind ++ r.fragments, old, new, ?_, ?_, ?_⟩
  · rw [append_of_failure_none _ rfl, hr.failure, List.append_assoc, List.cons_append]
  · rw [append_of_failure_none _ rfl, hr.failure, List.append_assoc, List.cons_append]
  · rw [← List.append_assoc]
    exact List.forall_mem_append.mpr
      ⟨hothers, fun fragment hmem hnode ↦ absurd hnode (hr.avoids fragment hmem)⟩

end Printed

/-! ## Two layouts -/

/-- `l.AgreesBut id m` says that two layouts agree, of documents that differ in what the node `id`
is at most. -/
structure Layout.AgreesBut (id : NodeId) (l m : Layout) : Prop where
  agrees : l.Agrees m
  document : l.document.SameLayout m.document
  others : ∀ other ≠ id, m.document.node other = l.document.node other

/-- The other nodes are alike. -/
theorem Layout.AgreesBut.alikeIn {l m : Layout} {id : NodeId} (h : l.AgreesBut id m) :
    l.AlikeIn (· ≠ id) m where
  agrees :=
    ⟨fun _ ↦ h.agrees.before _, fun _ ↦ h.agrees.after _, fun _ ↦ h.agrees.between _,
      fun _ ↦ h.agrees.semicolon _, fun _ ↦ h.agrees.commentLeft _,
      fun _ ↦ h.agrees.commentRight _⟩
  node hne := by
    rw [h.others _ hne]
    exact .refl _

/-- Nodes among which the changed one is not are printed as before. -/
theorem Printer.forest_eq_of_not_mem {p : Printer} (hp : p.IsGeneric) {l m : Layout} {id : NodeId}
    (h : l.AgreesBut id m) (semicolon : Bool) {f : Forest NodeId} (hid : id ∉ f.toList) :
    p.forest m semicolon f = p.forest l semicolon f :=
  forest_eq_of_alikeIn hp h.alikeIn semicolon fun _ hmem heq ↦ hid (heq ▸ hmem)

theorem Layout.AgreesBut.closing {l m : Layout} {id : NodeId} (h : l.AgreesBut id m)
    (other : NodeId) : m.closing other = l.closing other := by
  simp only [Layout.closing, Layout.raws, h.document.type, h.document.after,
    h.document.ownSemicolon, h.agrees.after]

theorem Layout.avoids_closing (l : Layout) {id other : NodeId} (hne : other ≠ id) :
    (l.closing other).Avoids id :=
  (l.hasMarks_closing other).avoids (List.forall_mem_singleton.mpr hne)

/-- The only fragment of a node at the end of its block is the end itself. -/
theorem Layout.boundary_closing (l : Layout) {id : NodeId} {fragment : Fragment}
    (hmem : fragment ∈ (l.closing id).fragments) (hnode : fragment.node = some id) :
    fragment.boundary = some .stop := by
  have hmark := Fragment.mark_mem hmem hnode
  rw [(l.hasMarks_closing id).marks, List.mem_singleton] at hmark
  exact congrArg Prod.snd hmark

namespace Printer

variable {p : Printer} (hp : p.IsGeneric) {l m : Layout} {id other : NodeId}
  (hshaped : l.document.IsShaped)
include hp hshaped

/-- A node has no fragments among those of other nodes. -/
theorem avoids_forest (semicolon : Bool) {f : Forest NodeId} (hid : id ∉ f.toList) :
    (p.forest l semicolon f).Avoids id :=
  (hasMarks_forest hp hshaped semicolon f).avoids fun _ hmark heq ↦
    hid (heq ▸ Document.mem_of_mem_marks hmark)

theorem avoids_node (semicolon inner : Bool) {below : Forest NodeId} (hne : other ≠ id)
    (hid : id ∉ below.toList) :
    (p.node l other semicolon (p.forest l inner below)).Avoids id := by
  refine (hasMarks_node hp hshaped other semicolon
    (hasMarks_forest hp hshaped inner below)).avoids fun mark hmark heq ↦ ?_
  have hmem := Document.mem_of_mem_marks hmark
  rw [heq, Forest.toList, Forest.toList, List.append_nil, List.mem_cons] at hmem
  exact hmem.elim (Ne.symm hne) hid

variable (h : l.AgreesBut id m)
include h

/-- The changed node is printed with another text in front of its block, or with another text if
it has none. -/
theorem differsAt_node (semicolon : Bool) {body : Printed} (hbody : body.Avoids id) :
    Printed.DiffersAt id (if (l.document.node id).hasBlock then some .start else none)
      (p.node l id semicolon body) (p.node m id semicolon body) := by
  have hshaped' : (m.document.node id).IsShaped :=
    (hshaped id).of_eq (h.document.nodeType id) (h.document.hasBlock id)
  cases hblock : (l.document.node id).hasBlock with
  | true =>
      obtain ⟨old, hold⟩ := exists_node_of_block hp (hshaped id) hblock
      obtain ⟨new, hnew⟩ := exists_node_of_block hp hshaped'
        ((h.document.hasBlock id).trans hblock)
      have hrest (text : Text) :
          Printed.one ⟨text, some id, some .start⟩ ++ (body ++ l.closing id) =
            ⟨⟨text, some id, some .start⟩ :: (body.fragments ++ (l.closing id).fragments),
              none⟩ := by
        rw [Printed.append_of_failure_none (p := body) _ hbody.failure,
          (l.hasMarks_closing id).failure]
        rfl
      refine ⟨[], body.fragments ++ (l.closing id).fragments, old, new, ?_, ?_, ?_⟩
      · rw [hold, hrest]
        rfl
      · rw [hnew, h.closing, hrest]
        rfl
      · rw [List.nil_append]
        exact List.forall_mem_append.mpr
          ⟨fun fragment hmem hnode ↦ absurd hnode (hbody.avoids fragment hmem),
            fun fragment hmem hnode ↦ ⟨rfl, l.boundary_closing hmem hnode⟩⟩
  | false =>
      obtain ⟨old, hold⟩ := exists_node_of_leaf hp (hshaped id) hblock
      obtain ⟨new, hnew⟩ := exists_node_of_leaf hp hshaped'
        ((h.document.hasBlock id).trans hblock)
      rw [hold, hnew]
      exact ⟨[], [], _, _, rfl, rfl, List.forall_mem_nil _⟩

/-- A change in the body of another node is all that changes of the node. -/
theorem differsAt_around (hne : other ≠ id) (hblock : (l.document.node other).hasBlock = true)
    (semicolon : Bool) {edge : Option Boundary} {body body' : Printed}
    (hbody : Printed.DiffersAt id edge body body') :
    Printed.DiffersAt id edge (p.node l other semicolon body)
      (p.node m other semicolon body') := by
  obtain ⟨head, hnode⟩ := exists_node_of_block hp (hshaped other) hblock
  rw [node_eq_of_alikeIn hp h.alikeIn hne, hnode, hnode]
  exact (hbody.append (l.avoids_closing hne)).prepend
    ((Printed.hasMarks_one head other _).avoids (List.forall_mem_singleton.mpr hne))

/-- Among nodes that are listed once each, the change is in one place. -/
theorem differsAt_forest (semicolon : Bool) {f : Forest NodeId} (hid : id ∈ f.toList)
    (hnodup : f.toList.Nodup) (hblocked : (f.map l.document.node).IsBlocked) :
    Printed.DiffersAt id (if (l.document.node id).hasBlock then some .start else none)
      (p.forest l semicolon f) (p.forest m semicolon f) := by
  induction f generalizing semicolon with
  | nil => cases hid
  | cons other below rest ihBelow ihRest =>
      obtain ⟨hother, hnodup⟩ := List.nodup_cons.mp hnodup
      obtain ⟨hbelow, hrest, hapart⟩ := List.nodup_append.mp hnodup
      obtain ⟨hblock, hblockedBelow, hblockedRest⟩ := hblocked
      simp only [forest, endsBefore, h.document.type, h.agrees.before, h.agrees.semicolon]
      rcases List.mem_cons.mp hid with rfl | hid
      · have hnot : id ∉ below.toList ∧ id ∉ rest.toList := by
          simpa [List.mem_append, not_or] using hother
        rw [forest_eq_of_not_mem hp h _ hnot.1, forest_eq_of_not_mem hp h _ hnot.2]
        exact ((differsAt_node hp hshaped h _ (avoids_forest hp hshaped _ hnot.1)).prepend
          (Printed.avoids_gap _)).append (avoids_forest hp hshaped _ hnot.2)
      · have hne : other ≠ id := by
          rintro rfl
          exact hother hid
        rcases List.mem_append.mp hid with hid | hid
        · have hnot : id ∉ rest.toList := fun hmem ↦ hapart id hid id hmem rfl
          have hother : (l.document.node other).hasBlock = true :=
            hblock.resolve_left (Forest.map_ne_nil_of_mem hid)
          rw [forest_eq_of_not_mem hp h _ hnot]
          exact ((differsAt_around hp hshaped h hne hother _
            (ihBelow _ hid hbelow hblockedBelow)).prepend
            (Printed.avoids_gap _)).append (avoids_forest hp hshaped _ hnot)
        · have hnot : id ∉ below.toList := fun hmem ↦ hapart id hmem id hid rfl
          rw [node_eq_of_alikeIn hp h.alikeIn hne, forest_eq_of_not_mem hp h _ hnot]
          exact (ihRest _ hid hrest hblockedRest).prepend ((Printed.avoids_gap _).append
            (avoids_node hp hshaped _ _ hne hnot))

end Printer

/-! ## Documents -/

namespace Document

variable {doc : Document} {id : NodeId}

theorem IsLinked.ancestor_of_isAttached (h : doc.IsLinked) (hattached : doc.isAttached id = true)
    (hne : id ≠ Document.root) : doc.Ancestor Document.root id :=
  (h.isAttached_iff.mp hattached).resolve_left hne

/-- What is printed of a document is what a setting of an attached node leaves, but for one
fragment. -/
theorem differsAt_print {p : Printer} (hp : p.IsGeneric) (hlinked : doc.IsLinked)
    (hshaped : doc.IsShaped) (hattached : doc.isAttached id = true) {changed : Node}
    (hchanged : (doc.node id).SameLayout changed) :
    Printed.DiffersAt id (if (doc.node id).hasBlock then some .start else none)
      (p.print doc) (p.print (doc.modify id fun _ ↦ changed)) := by
  have hsame := doc.sameLayout_modify id (f := fun _ ↦ changed) hchanged
  have h : (p.layout doc root).AgreesBut id (p.layout (doc.modify id fun _ ↦ changed) root) :=
    ⟨p.agrees_layout hsame root, hsame, fun other hne ↦ by
      show (doc.modify id fun _ ↦ changed).node other = doc.node other
      rw [node_modify, if_neg fun hother ↦ hne hother.1]⟩
  have hblocked : ((doc.below root).map doc.node).IsBlocked := isBlocked_grow doc _ _
  unfold Printer.print Printer.printNode
  dsimp only
  rw [hsame.below, h.agrees.semicolon]
  by_cases hid : id = root
  · subst hid
    have hnot : root ∉ (doc.below root).toList := fun hmem ↦
      hlinked.not_ancestor_self root (hlinked.mem_below_iff.mp hmem)
    rw [Printer.forest_eq_of_not_mem hp h _ hnot]
    exact Printer.differsAt_node hp hshaped h _ (Printer.avoids_forest hp hshaped _ hnot)
  · have habove := hlinked.ancestor_of_isAttached hattached hid
    exact Printer.differsAt_around hp hshaped h (Ne.symm hid)
      (hlinked.hasBlock_of_ancestor habove) _
      (Printer.differsAt_forest hp hshaped h _ (hlinked.mem_below_iff.mpr habove)
        (hlinked.nodup_below root) hblocked)

end Document

/-! ## Documents that were read -/

/-- The nodes of a document that was read are determined, apart from the root. -/
theorem exists_isDetermined_of_parse {source : Source} {mode : Mode} {doc : Document}
    (h : parse source mode = .ok doc) {id : NodeId} (hne : id ≠ Document.root)
    (hlt : id < doc.size) : ∃ below, (doc.node id).IsDetermined below := by
  obtain ⟨a, hassemble, rfl⟩ := parse_eq_ok.mp h
  have hmem := (Assembly.isMade_of_assemble hassemble).mem_numbers hne hlt
  have hnodes := (Assembly.determines_document hassemble).nodes
  exact (hnodes.imp fun _ below hn ↦ ⟨below, hn⟩).forall_mem
    (P := fun n ↦ ∃ below, n.IsDetermined below) id hmem

/-- The nodes of a document that was read are shaped. -/
theorem isShaped_of_parse {source : Source} {mode : Mode} {doc : Document}
    (h : parse source mode = .ok doc) : doc.IsShaped := by
  intro id
  by_cases hid : id = Document.root
  · obtain ⟨a, hassemble, rfl⟩ := parse_eq_ok.mp h
    have hmade := Assembly.isMade_of_assemble hassemble
    obtain ⟨-, -, hroot, -⟩ := hmade.unfolds_document
    have hblock : (a.document.node Document.root).hasBlock = true := by
      have hblock := congrArg Node.hasBlock hroot
      rw [← hmade.current.block, ← a.current.node.hasBlock_stripped, ← Node.hasBlock_stripped]
      exact hblock
    rw [hid]
    refine ⟨fun _ ↦ hblock, fun _ ↦ ?_⟩
    rw [(Assembly.determines_document hassemble).kind]
    rfl
  · by_cases hlt : id < doc.size
    · obtain ⟨below, hdetermined⟩ := exists_isDetermined_of_parse h hid hlt
      exact hdetermined.shaped
    · rw [Document.node_of_size_le (Nat.le_of_not_lt hlt)]
      exact ⟨fun hstarts ↦ hstarts, nofun⟩

theorem isShaped_empty : Document.empty.IsShaped := by
  intro id
  cases id with
  | zero => exact ⟨fun _ ↦ rfl, fun _ ↦ rfl⟩
  | succ id =>
      rw [Document.node_of_size_le (Nat.le_add_left 1 id)]
      exact ⟨fun hstarts ↦ hstarts, nofun⟩

/-- The nodes of a document stay shaped as long as no kind is overwritten. -/
theorem isShaped_of_run {start : Document}
    (hstart : start = .empty ∨ ∃ source mode, parse source mode = .ok start)
    {commands : List Command} (hkinds : ∀ command ∈ commands, command.setsKind = false) :
    (Command.run commands start).IsShaped := by
  refine (Command.changes_run (isLinked_of_start hstart) hkinds).keeps Document.IsShaped.change ?_
  rcases hstart with rfl | ⟨source, mode, hparse⟩
  · exact isShaped_empty
  · exact isShaped_of_parse hparse

/-- A setting that is carried out changes its node only. -/
theorem Edit.apply_assign_eq_ok {doc after : Document} {id : NodeId} {setting : Setting}
    (h : (assign id setting).apply doc = (.ok (), after)) :
    ∃ changed, (doc.node id).set? setting = some changed ∧
      after = doc.modify id fun _ ↦ changed := by
  have hyields : (assign id setting).Yields doc (fun _ ↦ True) fun _ other ↦
      ∃ changed, (doc.node id).set? setting = some changed ∧
        other = doc.modify id fun _ ↦ changed := by
    apply yields_bind
    apply yields_require trivial
    intro _
    apply yields_bind
    apply yields_get
    dsimp only
    split
    · next changed hchanged => exact yields_modify ⟨changed, hchanged, rfl⟩
    · exact yields_throw trivial
  unfold Yields at hyields
  rw [h] at hyields
  exact hyields

/-- A setting of an attached node changes the text of one fragment that is printed, and nothing
else: the start of the block of the node, or the only fragment of the node if it has no block.
This holds of every document that was read or started empty and has then been edited without
overwriting a kind. -/
theorem print_assign {start : Document}
    (hstart : start = .empty ∨ ∃ source mode, parse source mode = .ok start)
    (commands : List Command) (hkinds : ∀ command ∈ commands, command.setsKind = false)
    (id : NodeId) (hattached : (Command.run commands start).isAttached id = true)
    (setting : Setting) {after : Document}
    (h : (Edit.assign id setting).apply (Command.run commands start) = (.ok (), after)) :
    let doc := Command.run commands start
    let edge := if (doc.node id).hasBlock then some Boundary.start else none
    ∃ before behind old new,
      ({} : Printer).print doc = ⟨before ++ ⟨old, some id, edge⟩ :: behind, none⟩ ∧
        ({} : Printer).print after = ⟨before ++ ⟨new, some id, edge⟩ :: behind, none⟩ ∧
          ∀ fragment ∈ before ++ behind, fragment.node = some id →
            edge = some .start ∧ fragment.boundary = some .stop := by
  have hshaped := isShaped_of_run hstart hkinds
  have hlinked := Command.isLinked_run (isLinked_of_start hstart) commands
  obtain ⟨changed, hset, rfl⟩ := Edit.apply_assign_eq_ok h
  exact Document.differsAt_print ⟨rfl, rfl⟩ hlinked hshaped hattached (Node.sameLayout_set? hset)

/-- A declaration has one fragment, in which the value is set. The comment in the old one goes
with it. -/
theorem print_assign_value :
    ∃ start after, parse ⟨"a\x7b b: c/*d*/e \x7d f\x7b g: h \x7d".toList, none⟩ .strict =
      .ok start ∧ (Edit.assign 2 (.value ['i'])).apply (Command.run [.append 1 4] start) =
      (.ok (), after) ∧ ∃ before behind old new,
        ({} : Printer).print (Command.run [.append 1 4] start) =
            ⟨before ++ ⟨old, some 2, none⟩ :: behind, none⟩ ∧
          ({} : Printer).print after = ⟨before ++ ⟨new, some 2, none⟩ :: behind, none⟩ ∧
            ∀ fragment ∈ before ++ behind, fragment.node ≠ some 2 := by
  have h {start after : Document}
      (hparse : parse ⟨"a\x7b b: c/*d*/e \x7d f\x7b g: h \x7d".toList, none⟩ .strict = .ok start)
      (hattached : (Command.run [.append 1 4] start).isAttached 2 = true)
      (hleaf : ((Command.run [.append 1 4] start).node 2).hasBlock = false)
      (hset : (Edit.assign 2 (.value ['i'])).apply (Command.run [.append 1 4] start) =
        (.ok (), after)) :
      ∃ before behind old new,
        ({} : Printer).print (Command.run [.append 1 4] start) =
            ⟨before ++ ⟨old, some 2, none⟩ :: behind, none⟩ ∧
          ({} : Printer).print after = ⟨before ++ ⟨new, some 2, none⟩ :: behind, none⟩ ∧
            ∀ fragment ∈ before ++ behind, fragment.node ≠ some 2 := by
    obtain ⟨before, behind, old, new, hold, hnew, hothers⟩ :=
      print_assign (.inr ⟨_, _, hparse⟩) [.append 1 4] (by decide) 2 hattached _ hset
    simp only [hleaf, Bool.false_eq_true, if_false] at hold hnew hothers
    exact ⟨before, behind, old, new, hold, hnew,
      fun fragment hmem hnode ↦ nomatch (hothers fragment hmem hnode).1⟩
  exact ⟨_, _, rfl, rfl, h rfl rfl rfl rfl⟩

end Stylesheet
