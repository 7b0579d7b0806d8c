import Stylesheet.Proofs.Copies
import Stylesheet.Proofs.Insertion
import Stylesheet.Proofs.Locality

/-!
# Undoing a removal and a move

Taking a node out of its place and putting it back are inverse to each other
(`IsLinked.link_unlink` and `IsLinked.unlink_link`), as long as the parent has a block: a node
that gets a block for its first child keeps it. A node that could be put below the parent that it
has (`Document.Seats`) fits at each place there, so that neither step is refused, and below the
same parent no layout is dropped. `undo_of_run` puts this together for the nodes of a document
that any run of commands has made, kinds not overwritten. It needs that no node of the kind root
stands below another one (`Document.HasRootsOnTop`), which every change keeps.
-/

namespace Stylesheet

/-- An element is taken out from between others. -/
theorem filter_ne_middle {α : Type} [DecidableEq α] {before behind : List α} {x : α}
    (hbefore : x ∉ before) (hbehind : x ∉ behind) :
    (before ++ x :: behind).filter (· ≠ x) = before ++ behind := by
  have hkept {l : List α} (hl : x ∉ l) : l.filter (· ≠ x) = l :=
    List.filter_eq_self.mpr fun y hy ↦ decide_eq_true fun heq ↦ hl (heq ▸ hy)
  rw [List.filter_append, List.filter_cons_of_neg (by simp), hkept hbefore, hkept hbehind]

namespace Document

variable {doc other : Document} {id parent : NodeId} {index : Nat}

/-! ## Documents with the same nodes and links -/

theorem eq_of_sameLinks (hnodes : doc.SameNodes other) (hlinks : doc.SameLinks other)
    (hrest : other = { doc with nodes := other.nodes }) : other = doc := by
  have hnode (id : NodeId) : other.node id = doc.node id := by
    have hchildren : (other.node id).childList = (doc.node id).childList := hlinks.children id
    have hparent : (other.node id).parent = (doc.node id).parent := hlinks.parent id
    rw [Node.eq_of_unlinked (hnodes id), hparent, hchildren, ← Node.eq_of_unlinked rfl]
  have hsize : other.nodes.size = doc.nodes.size := hlinks.size
  have hequal : other.nodes = doc.nodes := by
    refine Array.ext hsize fun i hi hi' ↦ ?_
    have hsame := hnode i
    rw [node, node, Array.getElem?_eq_getElem hi, Array.getElem?_eq_getElem hi'] at hsame
    exact hsame
  rw [hrest, hequal]

/-- A node with a block gets no other one when a node is linked to it. -/
theorem sameNodes_link (hblock : (doc.node parent).hasBlock = true) (index : Nat)
    (child : NodeId) : doc.SameNodes (doc.link parent index child) := by
  obtain ⟨ids, hids⟩ := Option.isSome_iff_exists.mp hblock
  refine (sameNodes_modify doc parent ?_).trans (sameNodes_modify _ child rfl)
  simp [Node.unlinked, Node.link, hids]

/-! ## Steps that undo each other -/

/-- A node that is taken out of its place can be put back. -/
theorem IsLinked.link_unlink (h : doc.IsLinked) (hparent : doc.parent id = some parent)
    (hindex : doc.indexOf? id = some index) : (doc.unlink id).link parent index id = doc := by
  obtain ⟨hparentLt, hid⟩ := h.lt_size hparent
  have hblock : ((doc.unlink id).node parent).hasBlock = true := by
    rw [← Node.hasBlock_unlinked, doc.sameNodes_unlink id, Node.hasBlock_unlinked]
    exact h.hasBlock_of_ancestor (.parent hparent)
  obtain ⟨before, behind, hsplit, hplace⟩ := h.exists_place hparent
  cases hindex.symm.trans hplace
  have hnodup := h.nodup parent
  rw [hsplit, List.perm_middle.nodup_iff, List.nodup_cons, List.mem_append, not_or] at hnodup
  have hinserted : ((doc.unlink id).children parent).insertIdx before.length id =
      doc.children parent := by
    rw [h.children_unlink_eq, hsplit, filter_ne_middle hnodup.1.1 hnodup.1.2]
    exact insertIdx_append before behind 0 id
  refine eq_of_sameLinks ((doc.sameNodes_unlink id).trans (sameNodes_link hblock _ _))
    ⟨?_, ?_, ?_⟩ ?_
  · simp [Document.link]
  · intro other
    rw [parent_link, parent_unlink, size_unlink]
    by_cases hother : other = id
    · rw [if_pos ⟨hother, hid⟩, hother, hparent]
    · rw [if_neg (fun hcond ↦ hother hcond.1), if_neg hother]
  · intro other
    rw [children_link, hinserted, size_unlink, children_unlink, hparent]
    by_cases hother : other = parent
    · rw [if_pos ⟨hother, hparentLt⟩, hother]
    · rw [if_neg (fun hcond ↦ hother hcond.1), if_neg fun heq ↦ hother (Option.some.inj heq).symm]
  · unfold Document.unlink
    rw [hparent]
    rfl

/-- A node that is put below one with a block can be taken out again. -/
theorem IsLinked.unlink_link (h : doc.IsLinked) (hblock : (doc.node parent).hasBlock = true)
    (hfits : doc.Fits parent index id) (hdetached : doc.parent id = none) :
    (doc.link parent index id).unlink id = doc := by
  have hparent : (doc.link parent index id).parent id = some parent := by
    rw [parent_link, if_pos ⟨rfl, hfits.child_lt⟩]
  have hindex := hfits.index_le
  rw [release_of_detached hdetached] at hindex
  obtain ⟨before, behind, hsplit, rfl⟩ : ∃ before behind, doc.children parent = before ++ behind ∧
      before.length = index :=
    ⟨_, _, (List.take_append_drop index _).symm, List.length_take_of_le hindex⟩
  have hout : id ∉ before ++ behind := by
    rw [← hsplit, h.mem_children_iff, hdetached]
    exact nofun
  rw [List.mem_append, not_or] at hout
  have hremoved : ((doc.children parent).insertIdx before.length id).filter (· ≠ id) =
      doc.children parent := by
    rw [hsplit, show before.length = before.length + 0 from rfl, insertIdx_append,
      List.insertIdx_zero, filter_ne_middle hout.1 hout.2]
  refine eq_of_sameLinks ((sameNodes_link hblock _ _).trans (sameNodes_unlink _ id))
    ⟨?_, ?_, ?_⟩ ?_
  · simp [Document.link]
  · intro other
    rw [parent_unlink, parent_link]
    by_cases hother : other = id
    · rw [if_pos hother, hother, hdetached]
    · rw [if_neg hother, if_neg fun hcond ↦ hother hcond.1]
  · intro other
    rw [children_unlink, hparent, children_link]
    by_cases hother : other = parent
    · rw [if_pos (congrArg some hother.symm), if_pos ⟨hother, hfits.parent_lt⟩, hremoved, hother]
    · rw [if_neg fun heq ↦ hother (Option.some.inj heq).symm, if_neg fun hcond ↦ hother hcond.1]
  · unfold Document.unlink
    rw [hparent]
    rfl

/-- `doc.Seats parent id` says that a node is the child of a parent that it could also be put
below. -/
structure Seats (doc : Document) (parent id : NodeId) : Prop where
  child : doc.parent id = some parent
  container : (doc.node parent).kind.canContain = true
  type_ne_root : doc.type id ≠ .root

/-- A node that could be put below its parent fits at each place there. -/
theorem Seats.fits (h : doc.Seats parent id) (hdoc : doc.IsLinked)
    (hindex : index ≤ (doc.childrenBut id parent).length) : doc.Fits parent index id where
  admits := by
    refine ⟨h.container, ?_, h.type_ne_root, ?_, fun hcycle ↦ ?_⟩
    · rintro rfl
      exact Option.some_ne_none parent (h.child.symm.trans hdoc.root)
    · rintro rfl
      exact hdoc.not_ancestor_self id (.parent h.child)
    · exact hdoc.not_ancestor_self id ((hdoc.mem_ancestors_iff.mp hcycle).trans (.parent h.child))
  parent_lt := (hdoc.lt_size h.child).1
  child_lt := (hdoc.lt_size h.child).2
  index_le := by
    rw [hdoc.children_release]
    exact hindex

/-- A node that moves below its parent is taken out and loses no layout. -/
theorem release_of_parent (hparent : doc.parent id = some parent) :
    doc.release parent id = doc.unlink id := by
  simp only [release, hparent, if_true]

theorem Seats.fits_unlink (h : doc.Seats parent id) (hdoc : doc.IsLinked)
    (hindex : index ≤ (doc.childrenBut id parent).length) :
    (doc.unlink id).Fits parent index id :=
  release_of_parent h.child ▸ (h.fits hdoc hindex).release hdoc

theorem parent_unlink_self (doc : Document) (id : NodeId) : (doc.unlink id).parent id = none := by
  rw [parent_unlink, if_pos rfl]

theorem IsLinked.index_le (h : doc.IsLinked) (hparent : doc.parent id = some parent)
    (hindex : doc.indexOf? id = some index) : index ≤ (doc.childrenBut id parent).length := by
  obtain ⟨before, behind, hsplit, hplace⟩ := h.exists_place hparent
  cases hindex.symm.trans hplace
  have hlength := h.length_children_release parent id
  rw [h.children_release, if_pos hparent, hsplit, List.length_append, List.length_cons] at hlength
  omega

/-- A move below the same parent keeps what is needed for another one, and taking the node out
again leaves what was left before. -/
theorem Seats.link_unlink (h : doc.Seats parent id) (hdoc : doc.IsLinked)
    (hindex : index ≤ (doc.childrenBut id parent).length) :
    let after := (doc.unlink id).link parent index id
    after.IsLinked ∧ after.Seats parent id ∧ after.unlink id = doc.unlink id ∧
      after.childrenBut id parent = doc.childrenBut id parent := by
  intro after
  have hfits := h.fits_unlink hdoc hindex
  have hblock : ((doc.unlink id).node parent).hasBlock = true := by
    rw [← Node.hasBlock_unlinked, doc.sameNodes_unlink id, Node.hasBlock_unlinked]
    exact hdoc.hasBlock_of_ancestor (.parent h.child)
  have hlinked := hfits.isLinked (hdoc.unlink id) (doc.parent_unlink_self id)
  have hsame : doc.SameNodes after :=
    (doc.sameNodes_unlink id).trans (sameNodes_link hblock index id)
  have hunlink : after.unlink id = doc.unlink id :=
    (hdoc.unlink id).unlink_link hblock hfits (doc.parent_unlink_self id)
  refine ⟨hlinked, ⟨?_, ?_, ?_⟩, hunlink, ?_⟩
  · rw [parent_link, if_pos ⟨rfl, hfits.child_lt⟩]
  · rw [hsame.kind parent, h.container]
  · rw [type, Node.type, hsame.kind id]
    exact h.type_ne_root
  · show (after.children parent).filter (· ≠ id) = (doc.children parent).filter (· ≠ id)
    rw [← hlinked.children_unlink_eq, hunlink, hdoc.children_unlink_eq]

end Document

/-! ## Edits that undo each other -/

namespace Edit

variable {doc : Document} {id parent : NodeId} {index : Nat} {refused : Document → Prop}
  {answered : Unit → Document → Prop}

theorem yields_remove_of_lt (hid : id < doc.size) (hne : id ≠ Document.root)
    (h : answered () (doc.unlink id)) : (remove id).Yields doc refused answered := by
  apply yields_bind
  apply yields_require_of_lt hid
  dsimp only
  rw [if_neg hne]
  exact yields_modify h

/-- A move below the same parent takes a node out and puts it into the other place. -/
theorem yields_moveTo_of_seats (hdoc : doc.IsLinked) (hseats : doc.Seats parent id)
    (hindex : index ≤ (doc.childrenBut id parent).length)
    (h : answered () ((doc.unlink id).link parent index id)) :
    (moveTo id parent index).Yields doc refused answered := by
  apply yields_bind
  apply yields_require_of_lt (hdoc.lt_size hseats.child).2
  refine yields_insert_of_fits hdoc (hseats.fits hdoc hindex) ?_
  rw [Document.release_of_parent hseats.child]
  exact h

/-- A node that is removed can be put back. -/
theorem apply_remove_insert (hdoc : doc.IsLinked) (hseats : doc.Seats parent id)
    (hindex : doc.indexOf? id = some index) :
    (do remove id; insert parent index id : Edit Unit).apply doc = (.ok (), doc) := by
  have hfits := hseats.fits hdoc (hdoc.index_le hseats.child hindex)
  have h : (do remove id; insert parent index id : Edit Unit).Yields doc (fun _ ↦ False)
      fun _ after ↦
      () = () ∧ after = doc := by
    apply yields_bind
    apply yields_remove_of_lt hfits.child_lt hfits.admits.ne_root
    refine yields_insert_of_fits (hdoc.unlink id)
      (hseats.fits_unlink hdoc (hdoc.index_le hseats.child hindex)) ⟨rfl, ?_⟩
    rw [Document.release_of_detached (doc.parent_unlink_self id),
      hdoc.link_unlink hseats.child hindex]
  exact h.apply_eq

/-- A node that is moved below its parent can be moved back. -/
theorem apply_moveTo_moveTo (hdoc : doc.IsLinked) (hseats : doc.Seats parent id)
    (hindex : doc.indexOf? id = some index) {other : Nat}
    (hother : other ≤ (doc.childrenBut id parent).length) :
    (do moveTo id parent other; moveTo id parent index : Edit Unit).apply doc =
      (.ok (), doc) := by
  obtain ⟨hlinked, hmoved, hunlink, hbut⟩ := hseats.link_unlink hdoc hother
  have h : (do moveTo id parent other; moveTo id parent index : Edit Unit).Yields doc
      (fun _ ↦ False)
      fun _ after ↦ () = () ∧ after = doc := by
    apply yields_bind
    refine yields_moveTo_of_seats hdoc hseats hother ?_
    refine yields_moveTo_of_seats hlinked hmoved ?_ ⟨rfl, ?_⟩
    · rw [hbut]
      exact hdoc.index_le hseats.child hindex
    · rw [hunlink, hdoc.link_unlink hseats.child hindex]
  exact h.apply_eq

end Edit

/-! ## Roots -/

namespace Document

variable {writes : (Raws → Raws) → Prop} {doc other : Document}

/-- No node of the kind root stands below another one. -/
def HasRootsOnTop (doc : Document) : Prop :=
  ∀ id parent, doc.parent id = some parent → doc.type id ≠ .root

/-- Where nodes keep their sorts and no root gets a parent, no root comes to stand below another
node. -/
theorem HasRootsOnTop.of_parent (h : doc.HasRootsOnTop) (hsize : other.size = doc.size)
    (htype : ∀ id, id < doc.size → other.type id = doc.type id)
    (hparent : ∀ id parent, other.parent id = some parent →
      doc.parent id = some parent ∨ doc.type id ≠ .root) : other.HasRootsOnTop := by
  intro id parent hid
  rw [htype id (hsize ▸ lt_size_of_parent hid)]
  exact (hparent id parent hid).elim (h id parent) fun hroot ↦ hroot

/-- No change of a linked document puts a root below another node. -/
theorem HasRootsOnTop.change (h : doc.HasRootsOnTop) (hdoc : doc.IsLinked)
    (hchange : doc.Change writes other) : other.HasRootsOnTop := by
  have htype := fun id (hid : id < doc.size) ↦ hchange.type_eq hid
  have hlinks (hsame : doc.SameLinks other) : other.HasRootsOnTop :=
    h.of_parent hsame.size htype fun id _ hid ↦ .inl ((hsame.parent id).symm.trans hid)
  have hlost {p : Prop} [Decidable p] {id above : NodeId}
      (hid : (if p then none else doc.parent id) = some above) : doc.parent id = some above := by
    split at hid
    · cases hid
    · exact hid
  cases hchange with
  | add kind =>
      intro id parent hid
      rw [Document.parent, node_add] at hid
      rw [type, node_add]
      split at hid
      · cases hid
      · next hne =>
          rw [if_neg hne]
          exact h id parent hid
  | copy id =>
      intro new parent hnew
      by_cases hlt : new < doc.size
      · rw [Document.parent, node_copy_of_lt hlt] at hnew
        rw [type, node_copy_of_lt hlt]
        exact h new parent hnew
      -- A copy has a parent if its original has one, and both are of the same sort.
      · obtain ⟨original, horiginal, rfl⟩ :=
          hdoc.exists_copyOf_eq id (Nat.le_of_not_lt hlt) (lt_size_of_parent hnew)
        obtain ⟨above, habove, -⟩ := hdoc.exists_parent_of_copyOf horiginal hnew
        rw [type, ← Node.type_unlinked, hdoc.unlinked_copyOf id horiginal]
        exact h original above habove
  | openBlock => exact hlinks (sameLinks_openBlock doc _)
  | release above child =>
      refine h.of_parent (size_release doc above child) htype fun id _ hid ↦ .inl ?_
      rw [(sameLinks_release doc above child).parent, parent_unlink] at hid
      exact hlost hid
  | link hfits =>
      refine h.of_parent (by simp [Document.link]) htype fun id _ hid ↦ ?_
      rw [parent_link] at hid
      split at hid
      · next hcond => exact .inr (hcond.1 ▸ hfits.admits.type_ne_root)
      · exact .inl hid
  | unlink child =>
      refine h.of_parent (size_unlink doc child) htype fun id _ hid ↦ .inl ?_
      rw [parent_unlink] at hid
      exact hlost hid
  | clear above =>
      have hclear : doc.ChangesNodes writes (doc.clear above) := doc.changesNodes_clear above
      refine h.of_parent hclear.1 htype fun id _ hid ↦ .inl ?_
      rw [parent_clear] at hid
      exact hlost hid
  | layout id => exact hlinks (doc.sameLinks_mapRaws id _)
  | assign hset =>
      obtain ⟨kind, -, rfl⟩ := Option.map_eq_some_iff.mp hset
      exact hlinks (sameLinks_modify doc _ rfl rfl)
  | origin id => exact hlinks (doc.sameLinks_modify id rfl rfl)
  | mode => exact hlinks ⟨rfl, fun _ ↦ rfl, fun _ ↦ rfl⟩
  | recover recovery => exact hlinks (doc.sameLinks_recover recovery)

theorem hasRootsOnTop_of_start {start : Document}
    (hstart : start = .empty ∨ ∃ source mode, parse source mode = .ok start) :
    start.HasRootsOnTop := by
  intro id parent hid
  have hne : id ≠ root := by
    rintro rfl
    exact Option.some_ne_none parent (hid.symm.trans (isLinked_of_start hstart).root)
  have hlt := lt_size_of_parent hid
  rcases hstart with rfl | ⟨source, mode, hparse⟩
  · exact absurd (Nat.lt_one_iff.mp hlt) hne
  · obtain ⟨below, hdetermined⟩ := exists_isDetermined_of_parse hparse hne hlt
    exact hdetermined.plain.1

end Document

/-! ## Documents that were read and edited -/

/-- Where no kind was overwritten, no root stands below another node. -/
theorem hasRootsOnTop_of_run {start : Document}
    (hstart : start = .empty ∨ ∃ source mode, parse source mode = .ok start)
    {commands : List Command} (hkinds : ∀ command ∈ commands, command.setsKind = false) :
    (Command.run commands start).HasRootsOnTop := by
  have hlinked := isLinked_of_start hstart
  exact ((Command.changes_run hlinked hkinds).keeps
    (P := fun doc ↦ doc.IsLinked ∧ doc.HasRootsOnTop)
    (fun hchange h ↦ ⟨hchange.isLinked h.1, h.2.change h.1 hchange⟩)
    ⟨hlinked, Document.hasRootsOnTop_of_start hstart⟩).2

/-- In a document that was read or started empty and has then been edited without overwriting a
kind, a node in the tree can be removed and put back, and it can be moved to any place below its
parent and back, and in either case the document is what it was. -/
theorem undo_of_run {start : Document}
    (hstart : start = .empty ∨ ∃ source mode, parse source mode = .ok start)
    (commands : List Command) (hkinds : ∀ command ∈ commands, command.setsKind = false)
    {id : NodeId} (hattached : (Command.run commands start).isAttached id = true)
    (hne : id ≠ Document.root) :
    let doc := Command.run commands start
    ∃ parent index, doc.parent id = some parent ∧ doc.indexOf? id = some index ∧
      (do Edit.remove id; Edit.insert parent index id : Edit Unit).apply doc = (.ok (), doc) ∧
      ∀ other ≤ (doc.childrenBut id parent).length,
        (do Edit.moveTo id parent other; Edit.moveTo id parent index : Edit Unit).apply doc =
          (.ok (), doc) := by
  intro doc
  have hlinked := isLinked_of_start hstart
  obtain ⟨hdoc, hroots⟩ : doc.IsLinked ∧ doc.HasRootsOnTop :=
    (Command.changes_run hlinked hkinds).keeps (P := fun doc ↦ doc.IsLinked ∧ doc.HasRootsOnTop)
      (fun hchange h ↦ ⟨hchange.isLinked h.1, h.2.change h.1 hchange⟩)
      ⟨hlinked, Document.hasRootsOnTop_of_start hstart⟩
  obtain ⟨parent, hparent, -⟩ := (hdoc.ancestor_of_isAttached hattached hne).exists_parent
  obtain ⟨before, -, -, hindex⟩ := hdoc.exists_place hparent
  have hseats : doc.Seats parent id :=
    ⟨hparent,
      (isShaped_of_run hstart hkinds parent).container
      (hdoc.hasBlock_of_ancestor (.parent hparent)), hroots id parent hparent⟩
  exact ⟨parent, before.length, hparent, hindex, Edit.apply_remove_insert hdoc hseats hindex,
    fun _ hother ↦ Edit.apply_moveTo_moveTo hdoc hseats hindex hother⟩

/-- A declaration between a comment and another declaration is moved behind both and back. -/
theorem undo_of_moved_declaration :
    ∃ start, parse ⟨"a\x7bb:c;d:e\x7d".toList, none⟩ .strict = .ok start ∧
      let doc := Command.run [.create (.comment ['f']), .prepend 1 4] start
      doc.children 1 = [4, 2, 3] ∧
        (do Edit.remove 2; Edit.insert 1 1 2 : Edit Unit).apply doc = (.ok (), doc) ∧
        (do Edit.moveTo 2 1 2; Edit.moveTo 2 1 1 : Edit Unit).apply doc = (.ok (), doc) := by
  have h {start : Document} (hparse : parse ⟨"a\x7bb:c;d:e\x7d".toList, none⟩ .strict = .ok start)
      (hattached : (Command.run [.create (.comment ['f']), .prepend 1 4] start).isAttached 2 =
        true)
      (hparent : (Command.run [.create (.comment ['f']), .prepend 1 4] start).parent 2 = some 1)
      (hindex : (Command.run [.create (.comment ['f']), .prepend 1 4] start).indexOf? 2 = some 1)
      (hlength : ((Command.run [.create (.comment ['f']), .prepend 1 4] start).childrenBut 2
        1).length = 2) :
      let doc := Command.run [.create (.comment ['f']), .prepend 1 4] start
      (do Edit.remove 2; Edit.insert 1 1 2 : Edit Unit).apply doc = (.ok (), doc) ∧
        (do Edit.moveTo 2 1 2; Edit.moveTo 2 1 1 : Edit Unit).apply doc = (.ok (), doc) := by
    obtain ⟨parent, index, hparent', hindex', hremoved, hmoved⟩ :=
      undo_of_run (.inr ⟨_, _, hparse⟩) [.create (.comment ['f']),
        .prepend 1 4] (by decide) hattached
        (by decide)
    cases hparent.symm.trans hparent'
    cases hindex.symm.trans hindex'
    exact ⟨hremoved, hmoved 2 (Nat.le_of_eq hlength.symm)⟩
  exact ⟨_, rfl, rfl, h rfl rfl rfl rfl rfl⟩

end Stylesheet
