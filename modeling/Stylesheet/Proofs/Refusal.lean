import Stylesheet.Proofs.Blocks

/-!
# Refused edits change nothing

Most edits check all that they need before they change anything. An edit that puts a node beside
another one takes the node out of its place first and looks up the place and checks it again
behind that, so that it must be known that this cannot fail any more: what fits at a place still
does so when it is released (`Fits.release`), and its new sibling keeps a place
(`exists_place_release`). Both ways to put a node into a place are so described by one change of
the document (`yields_insert_fits` and `yields_insertBeside_fits`). `unchanged_of_refused` says
that a refused command leaves the whole document as it was.
-/

namespace Stylesheet

/-! ## What release leaves as it is -/

namespace Document

variable {doc other : Document} {parent child id : NodeId}

/-- `doc.SameKinds other` says that the nodes of the documents are and mean the same. -/
def SameKinds (doc other : Document) : Prop :=
  ∀ id, (other.node id).kind = (doc.node id).kind

theorem sameKinds_modify (doc : Document) (id : NodeId) {f : Node → Node}
    (h : (f (doc.node id)).kind = (doc.node id).kind) : doc.SameKinds (doc.modify id f) :=
  fun other ↦ view_modify Node.kind doc id other h

theorem sameKinds_unlink (doc : Document) (id : NodeId) : doc.SameKinds (doc.unlink id) :=
  (doc.sameNodes_unlink id).kind

theorem sameKinds_forgetPlaces (doc : Document) (ids : List NodeId) :
    doc.SameKinds (doc.forgetPlaces ids) := by
  unfold forgetPlaces
  induction ids generalizing doc with
  | nil => exact fun _ ↦ rfl
  | cons id ids ih => exact fun other ↦ (ih _ other).trans (sameKinds_modify doc id rfl other)

theorem sameKinds_release (doc : Document) (parent child : NodeId) :
    doc.SameKinds (doc.release parent child) := by
  unfold release
  split
  · exact fun _ ↦ rfl
  · refine fun id ↦ (sameKinds_unlink _ child id).trans ?_
    split
    · rfl
    · unfold forgetLayout
      split <;> exact sameKinds_forgetPlaces doc _ id

/-- `doc.Admits parent child` says that `child` can stand below `parent`. -/
structure Admits (doc : Document) (parent child : NodeId) : Prop where
  container : (doc.node parent).kind.canContain = true
  ne_root : child ≠ root
  type_ne_root : doc.type child ≠ .root
  ne_parent : child ≠ parent
  not_above : child ∉ doc.ancestors parent

/-- A node that can stand below another one can also do so when it is released. -/
theorem Admits.release (h : doc.Admits parent child) (hdoc : doc.IsLinked) :
    (doc.release parent child).Admits parent child where
  container := by rw [sameKinds_release doc parent child parent, h.container]
  ne_root := h.ne_root
  type_ne_root := by
    rw [type, Node.type, sameKinds_release doc parent child child]
    exact h.type_ne_root
  ne_parent := h.ne_parent
  not_above hmem := h.not_above
    (hdoc.mem_ancestors_iff.mpr (ancestor_of_release (ancestor_of_mem_climb hmem)))

theorem release_of_detached (h : doc.parent child = none) : doc.release parent child = doc := by
  rw [release, h]

/-- `doc.Fits parent index child` says that `child` can be put at this place among the children of
`parent`. The places are counted when the node has been taken out of its own place. -/
structure Fits (doc : Document) (parent : NodeId) (index : Nat) (child : NodeId) : Prop where
  admits : doc.Admits parent child
  parent_lt : parent < doc.size
  child_lt : child < doc.size
  index_le : index ≤ ((doc.release parent child).children parent).length

/-- A node that can be put at a place can also be put there when it is released. -/
theorem Fits.release {index : Nat} (h : doc.Fits parent index child) (hdoc : doc.IsLinked) :
    (doc.release parent child).Fits parent index child where
  admits := h.admits.release hdoc
  parent_lt := by simpa using h.parent_lt
  child_lt := by simpa using h.child_lt
  index_le := by
    rw [release_of_detached (parent_release_self doc parent child)]
    exact h.index_le

/-- A node without a parent is linked to a place that it fits. -/
theorem Fits.isLinked {index : Nat} (h : doc.Fits parent index child) (hdoc : doc.IsLinked)
    (hdetached : doc.parent child = none) : (doc.link parent index child).IsLinked := by
  have hindex := h.index_le
  rw [release_of_detached hdetached] at hindex
  exact hdoc.link h.parent_lt h.child_lt h.admits.ne_root h.admits.ne_parent
    (mt hdoc.mem_ancestors_iff.mpr h.admits.not_above) hdetached hindex

/-- A node is found where it stands among the children of its parent. -/
theorem IsLinked.exists_place (h : doc.IsLinked) (hparent : doc.parent id = some parent) :
    ∃ before behind, doc.children parent = before ++ id :: behind ∧
      doc.indexOf? id = some before.length := by
  obtain ⟨before, behind, hsplit⟩ := List.append_of_mem (h.mem_children_iff.mpr hparent)
  have hout : id ∉ before := by
    have hnodup := h.nodup parent
    rw [hsplit, List.nodup_append] at hnodup
    exact fun hmem ↦ hnodup.2.2 id hmem id List.mem_cons_self rfl
  refine ⟨before, behind, hsplit, ?_⟩
  rw [indexOf?, hparent, Option.bind_some, hsplit, List.idxOf?_eq_some_iff]
  refine ⟨by simp, by simp, fun place hplace ↦ ?_⟩
  rw [List.getElem_append_left hplace]
  exact fun heq ↦ hout (heq ▸ List.getElem_mem hplace)

/-- A sibling keeps a place when another node is released. -/
theorem IsLinked.exists_place_release (h : doc.IsLinked) {sibling : NodeId}
    (hparent : doc.parent sibling = some parent) (hne : child ≠ sibling) :
    ∃ before behind, (doc.release parent child).children parent = before ++ sibling :: behind ∧
      (doc.release parent child).indexOf? sibling = some before.length := by
  refine (h.release parent child).exists_place ?_
  rw [(sameLinks_release doc parent child).parent, parent_unlink, if_neg hne.symm, hparent]

end Document

namespace Edit

variable {doc : Document} {parent child : NodeId}

/-! ## Edits that are refused -/

section Rules

variable {refused : Document → Prop} {answered : Unit → Document → Prop}

/-- What cannot stand below a parent is refused. -/
theorem yields_requireInsertable_admits (hrefused : refused doc)
    (h : doc.Admits parent child → answered () doc) :
    (requireInsertable parent child).Yields doc refused answered := by
  apply yields_bind
  apply yields_bind
  apply yields_get
  dsimp only
  split
  · next hcontainer =>
      apply yields_pure
      apply yields_bind
      apply yields_get
      split
      · exact yields_bind (yields_throw hrefused)
      · next hroot =>
          split
          · exact yields_throw hrefused
          · next hcycle =>
              rw [not_or] at hroot hcycle
              exact yields_pure (h ⟨hcontainer, hroot.1, hroot.2, hcycle.1, hcycle.2⟩)
  · exact yields_throw hrefused

/-- What can stand below a parent is not refused. -/
theorem yields_requireInsertable_of_admits (hadmits : doc.Admits parent child)
    (h : answered () doc) : (requireInsertable parent child).Yields doc refused answered := by
  apply yields_bind
  apply yields_bind
  apply yields_get
  dsimp only
  rw [if_pos hadmits.container]
  apply yields_pure
  apply yields_bind
  apply yields_get
  rw [if_neg (not_or.mpr ⟨hadmits.ne_root, hadmits.type_ne_root⟩),
    if_neg (not_or.mpr ⟨hadmits.ne_parent, hadmits.not_above⟩)]
  exact yields_pure h

/-- A node of the document is not refused. -/
theorem yields_require_of_lt {id : NodeId} (hid : id < doc.size) (h : answered () doc) :
    (require id).Yields doc refused answered := by
  apply yields_bind
  apply yields_get
  rw [if_pos (show doc.contains id = true from decide_eq_true hid)]
  exact yields_pure h

/-- A node is put at a place that it fits. -/
theorem yields_insert_of_fits {index : Nat} (hdoc : doc.IsLinked)
    (hfits : doc.Fits parent index child)
    (h : answered () ((doc.release parent child).link parent index child)) :
    (insert parent index child).Yields doc refused answered := by
  apply yields_bind
  apply yields_require_of_lt hfits.parent_lt
  apply yields_bind
  apply yields_require_of_lt hfits.child_lt
  apply yields_bind
  apply yields_requireInsertable_of_admits hfits.admits
  apply yields_bind
  apply yields_get
  dsimp only
  rw [← hdoc.length_children_release parent child, if_neg (Nat.not_lt.mpr hfits.index_le)]
  exact yields_set h

/-- A node is put at no other places. -/
theorem yields_insert_fits {index : Nat} (hdoc : doc.IsLinked) (hrefused : refused doc)
    (h : doc.Fits parent index child →
      answered () ((doc.release parent child).link parent index child)) :
    (insert parent index child).Yields doc refused answered := by
  apply yields_bind
  apply yields_require hrefused
  intro hparent
  apply yields_bind
  apply yields_require hrefused
  intro hchild
  apply yields_bind
  apply yields_requireInsertable_admits hrefused
  intro hadmits
  apply yields_bind
  apply yields_get
  dsimp only
  rw [← hdoc.length_children_release parent child]
  split
  · exact yields_bind (yields_throw hrefused)
  · next hindex => exact yields_set (h ⟨hadmits, hparent, hchild, Nat.le_of_not_lt hindex⟩)

/-- A node that is put beside another one fits there: once it has been released for its place,
nothing is refused any more. It is released twice, which does no more than releasing it once. -/
theorem yields_insertBeside_fits {skip : Nat} {sibling : NodeId} (hdoc : doc.IsLinked)
    (hskip : skip ≤ 1) (hrefused : refused doc) (hsame : child = sibling → answered () doc)
    (h : ∀ parent before behind, child ≠ sibling → doc.parent sibling = some parent →
      (doc.release parent child).children parent = before ++ sibling :: behind →
      doc.Fits parent (before.length + skip) child →
        answered () ((doc.release parent child).link parent (before.length + skip) child)) :
    (insertBeside skip sibling child).Yields doc refused answered := by
  apply yields_bind
  apply yields_require hrefused
  intro _
  apply yields_bind
  apply yields_require hrefused
  intro hchild
  apply yields_bind
  apply yields_get
  split
  · next parent hparent =>
      split
      · next heq => exact yields_pure (hsame heq)
      · next hne =>
          apply yields_bind
          apply yields_requireInsertable_admits hrefused
          intro hadmits
          obtain ⟨before, behind, hsplit, hplace⟩ := hdoc.exists_place_release hparent hne
          have hfits : doc.Fits parent (before.length + skip) child := by
            refine ⟨hadmits, (hdoc.lt_size hparent).1, hchild, ?_⟩
            rw [hsplit, List.length_append, List.length_cons]
            omega
          apply yields_bind
          apply yields_modify
          apply yields_bind
          apply yields_get
          rw [hplace]
          refine yields_insert_of_fits (hdoc.release parent child) (hfits.release hdoc) ?_
          rw [Document.release_of_detached (Document.parent_release_self doc parent child)]
          exact h parent before behind hne hparent hsplit hfits
  · exact yields_throw hrefused

/-- A node that replaces another one is put before it, and the other one is taken out. -/
theorem yields_replace_fits {old new : NodeId} (hdoc : doc.IsLinked) (hrefused : refused doc)
    (hsame : old = new → answered () doc)
    (h : ∀ parent before behind, new ≠ old → doc.parent old = some parent →
      (doc.release parent new).children parent = before ++ old :: behind →
      doc.Fits parent before.length new →
        answered () (((doc.release parent new).link parent before.length new).unlink old)) :
    (replace old new).Yields doc refused answered := by
  apply yields_bind
  apply yields_require hrefused
  intro _
  apply yields_bind
  apply yields_require hrefused
  intro _
  split
  · next heq => exact yields_pure (hsame heq)
  · next hne =>
      apply yields_bind
      apply yields_get
      dsimp only
      split
      · exact yields_bind (yields_throw hrefused)
      · apply yields_bind
        refine yields_insertBeside_fits hdoc (Nat.zero_le 1) hrefused
          (fun heq ↦ absurd heq.symm hne) ?_
        intro parent before behind hne hparent hsplit hfits
        exact yields_modify (h parent before behind hne hparent hsplit hfits)

end Rules

/-- `edit.IsAtomic` says that an edit of a linked document leaves it as it is when it is refused:
what held of the document still does. -/
def IsAtomic {α : Type} (edit : Edit α) : Prop :=
  ∀ {doc : Document} {refused : Document → Prop}, doc.IsLinked → refused doc →
    edit.Yields doc refused fun _ _ ↦ True

/-- An edit that checks its node only is atomic. -/
theorem isAtomic_modify (id : NodeId) (f : Document → Document) :
    IsAtomic (do require id; modify f) := by
  intro doc _ _ hrefused
  apply yields_bind
  apply yields_require hrefused
  intro _
  exact yields_modify trivial

theorem isAtomic_openBlock (id : NodeId) : IsAtomic (openBlock id) := by
  intro doc _ _ hrefused
  apply yields_bind
  apply yields_require hrefused
  intro _
  apply yields_bind
  apply yields_requireContainer hrefused
  exact yields_modify trivial

theorem isAtomic_insert (parent : NodeId) (index : Nat) (child : NodeId) :
    IsAtomic (insert parent index child) :=
  fun hdoc hrefused ↦ yields_insert_fits hdoc hrefused fun _ ↦ trivial

theorem isAtomic_append (parent child : NodeId) : IsAtomic (append parent child) := by
  intro doc _ hdoc hrefused
  apply yields_bind
  apply yields_get
  exact isAtomic_insert parent _ child hdoc hrefused

theorem isAtomic_moveTo (child parent : NodeId) (index : Nat) :
    IsAtomic (moveTo child parent index) := by
  intro doc _ hdoc hrefused
  apply yields_bind
  apply yields_require hrefused
  intro _
  exact isAtomic_insert parent index child hdoc hrefused

theorem isAtomic_insertBeside {skip : Nat} (hskip : skip ≤ 1) (sibling child : NodeId) :
    IsAtomic (insertBeside skip sibling child) :=
  fun hdoc hrefused ↦ yields_insertBeside_fits hdoc hskip hrefused (fun _ ↦ trivial)
    fun _ _ _ _ _ _ _ ↦ trivial

theorem isAtomic_replace (old new : NodeId) : IsAtomic (replace old new) :=
  fun hdoc hrefused ↦ yields_replace_fits hdoc hrefused (fun _ ↦ trivial) fun _ _ _ _ _ _ _ ↦
    trivial

theorem isAtomic_remove (id : NodeId) : IsAtomic (remove id) := by
  intro doc _ _ hrefused
  apply yields_bind
  apply yields_require hrefused
  intro _
  dsimp only
  split
  · exact yields_bind (yields_throw hrefused)
  · exact yields_modify trivial

theorem isAtomic_assign (id : NodeId) (setting : Setting) : IsAtomic (assign id setting) := by
  intro doc _ _ hrefused
  apply yields_bind
  apply yields_require hrefused
  intro _
  apply yields_bind
  apply yields_get
  dsimp only
  split
  · exact yields_modify trivial
  · exact yields_throw hrefused

/-- An edit without its answer leaves the same document. -/
theorem apply_discard {α : Type} (edit : Edit α) (doc : Document) :
    ((discard edit).apply doc).2 = (edit.apply doc).2 := by
  have h : (edit >>= fun _ ↦ pure ()).Yields doc (· = (edit.apply doc).2) fun _ after ↦
      after = (edit.apply doc).2 := by
    apply yields_bind
    unfold Yields
    rcases edit.apply doc with ⟨_ | _, after⟩
    · rfl
    · rfl
  exact h.after

theorem isAtomic_discard {α : Type} {edit : Edit α} (h : IsAtomic edit) :
    IsAtomic (discard edit) := by
  intro doc _ hdoc hrefused
  apply yields_bind
  apply (h hdoc hrefused).mono
  intro _ after _
  exact yields_pure trivial

theorem isAtomic_create (kind : Kind) : IsAtomic (create kind) := by
  intro doc _ _ _
  apply yields_bind
  apply yields_get
  apply yields_bind
  apply yields_set
  exact yields_pure trivial

theorem isAtomic_copy (id : NodeId) : IsAtomic (copy id) := by
  intro doc _ _ hrefused
  apply yields_bind
  apply yields_require hrefused
  intro _
  apply yields_bind
  apply yields_get
  apply yields_bind
  apply yields_set
  exact yields_pure trivial

theorem isAtomic_copyOrigin (id other : NodeId) : IsAtomic (copyOrigin id other) := by
  intro doc _ _ hrefused
  apply yields_bind
  apply yields_require hrefused
  intro _
  apply yields_bind
  apply yields_require hrefused
  intro _
  apply yields_bind
  apply yields_get
  exact yields_modify trivial

theorem isAtomic_recover (recovery : Recovery) : IsAtomic (recover recovery) := by
  intro doc _ _ hrefused
  apply yields_bind
  cases recovery.node with
  | none => exact yields_pure (yields_modify trivial)
  | some id => exact yields_require hrefused fun _ ↦ yields_modify trivial

end Edit

namespace Command

/-- `c.edit` is the edit that a command carries out, without its answer. -/
def edit : Command → Edit Unit
  | create kind => discard (Edit.create kind)
  | copy id => discard (Edit.copy id)
  | openBlock id => Edit.openBlock id
  | append parent child => Edit.append parent child
  | prepend parent child => Edit.prepend parent child
  | insert parent index child => Edit.insert parent index child
  | moveTo child parent index => Edit.moveTo child parent index
  | insertBefore sibling child => Edit.insertBefore sibling child
  | insertAfter sibling child => Edit.insertAfter sibling child
  | replace old new => Edit.replace old new
  | remove id => Edit.remove id
  | removeAll parent => Edit.removeAll parent
  | cleanRaws id keepBetween => Edit.cleanRaws id keepBetween
  | assign id setting => Edit.assign id setting
  | setKind id kind => Edit.setKind id kind
  | setRaws id f => Edit.setRaws id f
  | copyOrigin id other => Edit.copyOrigin id other
  | setMode mode => Edit.setMode mode
  | recover recovery => Edit.recover recovery

/-- The document behind a command is the one that its edit leaves. -/
theorem after_eq (doc : Document) (command : Command) :
    command.after doc = (command.edit.apply doc).2 := by
  cases command with
  | create kind => exact (Edit.apply_discard (Edit.create kind) doc).symm
  | copy id => exact (Edit.apply_discard (Edit.copy id) doc).symm
  | _ => rfl

theorem isAtomic_edit (command : Command) : command.edit.IsAtomic := by
  cases command with
  | create kind => exact Edit.isAtomic_discard (Edit.isAtomic_create kind)
  | copy id => exact Edit.isAtomic_discard (Edit.isAtomic_copy id)
  | openBlock id => exact Edit.isAtomic_openBlock id
  | append parent child => exact Edit.isAtomic_append parent child
  | prepend parent child => exact Edit.isAtomic_insert parent 0 child
  | insert parent index child => exact Edit.isAtomic_insert parent index child
  | moveTo child parent index => exact Edit.isAtomic_moveTo child parent index
  | insertBefore sibling child => exact Edit.isAtomic_insertBeside (Nat.zero_le 1) sibling child
  | insertAfter sibling child => exact Edit.isAtomic_insertBeside (Nat.le_refl 1) sibling child
  | replace old new => exact Edit.isAtomic_replace old new
  | remove id => exact Edit.isAtomic_remove id
  | removeAll parent => exact Edit.isAtomic_modify parent _
  | cleanRaws id keepBetween => exact Edit.isAtomic_modify id _
  | assign id setting => exact Edit.isAtomic_assign id setting
  | setKind id kind => exact Edit.isAtomic_modify id _
  | setRaws id f => exact Edit.isAtomic_modify id _
  | copyOrigin id other => exact Edit.isAtomic_copyOrigin id other
  | setMode mode => exact fun _ _ ↦ Edit.yields_modify trivial
  | recover recovery => exact Edit.isAtomic_recover recovery

end Command

/-- A command that is refused changes nothing of a document that any run of commands has made: all
nodes with their links, their layout and their places, the mode and the repairs are what they
were. -/
theorem unchanged_of_refused {start : Document}
    (hstart : start = .empty ∨ ∃ source mode, parse source mode = .ok start)
    (commands : List Command) (command : Command) {e : EditError}
    (h : (command.edit.apply (Command.run commands start)).1 = .error e) :
    command.after (Command.run commands start) = Command.run commands start := by
  have hlinked : start.IsLinked := by
    rcases hstart with rfl | ⟨source, mode, hparse⟩
    · exact isLinked_empty
    · exact isLinked_of_parse hparse
  have hdoc := Command.isLinked_run hlinked commands
  rw [Command.after_eq]
  generalize Command.run commands start = doc at *
  have hatomic : command.edit.Yields doc (fun after ↦ after = doc) fun _ _ ↦ True :=
    command.isAtomic_edit hdoc rfl
  unfold Edit.Yields at hatomic
  rcases hresult : command.edit.apply doc with ⟨_ | _, after⟩
  · rw [hresult] at hatomic
    exact hatomic
  · rw [hresult] at h
    cases h

/-- A rule that is to be put beside a declaration of its own stays where it is, with its
layout. -/
theorem unchanged_of_refused_cycle :
    ∃ start, parse ⟨"a\x7bb:c\x7d d\x7b\x7d".toList, none⟩ .strict = .ok start ∧
      ((Command.insertBefore 2 1).edit.apply (Command.run [.setKind 3 .root] start)).1 =
        .error (.wouldCycle 1 1) ∧
      (Command.insertBefore 2 1).after (Command.run [.setKind 3 .root] start) =
        Command.run [.setKind 3 .root] start :=
  ⟨_, rfl, rfl,
    unchanged_of_refused (.inr ⟨⟨"a\x7bb:c\x7d d\x7b\x7d".toList, none⟩, .strict, rfl⟩)
    [.setKind 3 .root] (.insertBefore 2 1) rfl⟩

end Stylesheet
