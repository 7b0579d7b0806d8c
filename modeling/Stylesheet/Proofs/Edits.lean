import Stylesheet.Proofs.Numbering

/-!
# Edits keep a document linked

`Edit.Yields` says what an edit does: what holds of its answer and of the document behind it, and
what holds of the document if the edit is refused. Each check of an edit has a rule for it, so
that what an edit has checked is known where the edit changes the links. A `Command` is an edit
with its arguments, and `isLinked_run` says that no run of commands breaks the links of a
document.
-/

namespace Stylesheet

namespace Edit

/-- `edit.Yields doc refused answered` says that the edit of `doc` ends with an answer and a
document that `answered` holds of, or is refused and leaves a document that `refused` holds of. -/
def Yields {α : Type} (edit : Edit α) (doc : Document) (refused : Document → Prop)
    (answered : α → Document → Prop) : Prop :=
  match edit.apply doc with
  | (.ok answer, after) => answered answer after
  | (.error _, after) => refused after

section Rules

variable {α β : Type} {doc : Document} {refused : Document → Prop}
  {answered : α → Document → Prop}

theorem Yields.mono {edit : Edit α} {weaker : α → Document → Prop}
    (h : edit.Yields doc refused answered)
    (himp : ∀ answer after, answered answer after → weaker answer after) :
    edit.Yields doc refused weaker := by
  unfold Yields at h ⊢
  split at h
  · exact himp _ _ h
  · exact h

/-- What holds of the answer and of a refusal holds of the document behind the edit. -/
theorem Yields.after {edit : Edit α} {P : Document → Prop}
    (h : edit.Yields doc P fun _ after ↦ P after) : P (edit.apply doc).2 := by
  unfold Yields at h
  rcases hresult : edit.apply doc with ⟨_ | _, after⟩ <;> rw [hresult] at h <;> exact h

/-- An edit that is not refused and has one outcome only ends with that one. -/
theorem Yields.apply_eq {edit : Edit α} {answer : α} {changed : Document}
    (h : edit.Yields doc (fun _ ↦ False) fun other after ↦ other = answer ∧ after = changed) :
    edit.apply doc = (.ok answer, changed) := by
  unfold Yields at h
  rcases hresult : edit.apply doc with ⟨_ | _, after⟩ <;> rw [hresult] at h
  · exact h.elim
  · rw [h.1, h.2]

theorem yields_bind {edit : Edit β} {next : β → Edit α}
    (h : edit.Yields doc refused fun answer after ↦
      (next answer).Yields after refused answered) :
    (edit >>= next).Yields doc refused answered := by
  have happly : (edit >>= next).apply doc =
      match edit.apply doc with
      | (.ok answer, after) => (next answer).apply after
      | (.error e, after) => (.error e, after) := by
    unfold apply
    show (edit.run >>= ExceptT.bindCont next).run doc = _
    rw [StateT.run_bind]
    show (match edit.run.run doc with
      | (result, after) => (ExceptT.bindCont next result).run after) = _
    rcases edit.run.run doc with ⟨_ | _, after⟩ <;> rfl
  unfold Yields at h ⊢
  rw [happly]
  rcases hresult : edit.apply doc with ⟨e | answer, after⟩ <;> rw [hresult] at h <;> exact h

theorem yields_pure {answer : α} (h : answered answer doc) :
    (pure answer : Edit α).Yields doc refused answered := h

theorem yields_throw {e : EditError} (h : refused doc) :
    (throw e : Edit α).Yields doc refused answered := h

theorem yields_get {answered : Document → Document → Prop} (h : answered doc doc) :
    (get : Edit Document).Yields doc refused answered := h

theorem yields_set {changed : Document} {answered : Unit → Document → Prop}
    (h : answered () changed) : (set changed : Edit Unit).Yields doc refused answered := h

theorem yields_modify {f : Document → Document} {answered : Unit → Document → Prop}
    (h : answered () (f doc)) : (modify f : Edit Unit).Yields doc refused answered := h

/-- A number that is no node is refused. -/
theorem yields_require {id : NodeId} {answered : Unit → Document → Prop} (hrefused : refused doc)
    (h : id < doc.size → answered () doc) : (require id).Yields doc refused answered := by
  apply yields_bind
  apply yields_get
  split
  · next hid => exact yields_pure (h (of_decide_eq_true hid))
  · exact yields_throw hrefused

theorem yields_requireContainer {id : NodeId} {answered : Unit → Document → Prop}
    (hrefused : refused doc) (h : answered () doc) :
    (requireContainer id).Yields doc refused answered := by
  apply yields_bind
  apply yields_get
  dsimp only
  split
  · exact yields_pure h
  · exact yields_throw hrefused

/-- A node that cannot stand below another one is refused. -/
theorem yields_requireInsertable {parent child : NodeId} {answered : Unit → Document → Prop}
    (hrefused : refused doc)
    (h : child ≠ Document.root → child ≠ parent → child ∉ doc.ancestors parent →
      answered () doc) : (requireInsertable parent child).Yields doc refused answered := by
  unfold requireInsertable
  apply yields_bind
  apply yields_requireContainer hrefused
  apply yields_bind
  apply yields_get
  dsimp only
  split
  · exact yields_bind (yields_throw hrefused)
  · next hroot =>
      split
      · exact yields_throw hrefused
      · next hcycle =>
          rw [not_or] at hroot hcycle
          exact yields_pure (h hroot.1 hcycle.1 hcycle.2)

end Rules

/-! ## What edits keep -/

section Links

variable {doc : Document}

/-- `edit.KeepsLinks` says that an edit of a linked document leaves a linked document, also if it
is refused. -/
def KeepsLinks {α : Type} (edit : Edit α) : Prop :=
  ∀ {doc : Document}, doc.IsLinked →
    edit.Yields doc Document.IsLinked fun _ after ↦ after.IsLinked

/-- An edit of one node that keeps its links keeps all links. -/
theorem keepsLinks_modify {id : NodeId} {f : Document → Document}
    (h : ∀ doc : Document, doc.SameLinks (f doc)) : KeepsLinks (do require id; modify f) := by
  intro doc hdoc
  apply yields_bind
  apply yields_require hdoc
  intro _
  exact yields_modify ((h doc).isLinked hdoc)

theorem keepsLinks_create (kind : Kind) : KeepsLinks (create kind) := by
  intro doc hdoc
  apply yields_bind
  apply yields_get
  apply yields_bind
  apply yields_set
  exact yields_pure (hdoc.add kind)

theorem keepsLinks_copy (id : NodeId) : KeepsLinks (copy id) := by
  intro doc hdoc
  apply yields_bind
  apply yields_require hdoc
  intro _
  apply yields_bind
  apply yields_get
  apply yields_bind
  apply yields_set
  exact yields_pure (hdoc.copy id)

theorem keepsLinks_openBlock (id : NodeId) : KeepsLinks (openBlock id) := by
  intro doc hdoc
  apply yields_bind
  apply yields_require hdoc
  intro _
  apply yields_bind
  apply yields_requireContainer hdoc
  exact yields_modify ((Document.sameLinks_openBlock doc id).isLinked hdoc)

/-- Putting a node into a place keeps the links: it is first taken out of its old place, and the
checks see to it that it does not come below itself. -/
theorem keepsLinks_insert (parent : NodeId) (index : Nat) (child : NodeId) :
    KeepsLinks (insert parent index child) := by
  intro doc hdoc
  apply yields_bind
  apply yields_require hdoc
  intro hparent
  apply yields_bind
  apply yields_require hdoc
  intro hchild
  apply yields_bind
  apply yields_requireInsertable hdoc
  intro hroot hne hancestor
  apply yields_bind
  apply yields_get
  dsimp only
  rw [← hdoc.length_children_release parent child]
  split
  · exact yields_bind (yields_throw hdoc)
  · next hindex =>
      apply yields_set
      refine (hdoc.release parent child).link (by simpa using hparent)
        (by simpa using hchild) hroot
        hne ?_ (Document.parent_release_self doc parent child) ?_
      · intro hcycle
        exact hancestor (hdoc.mem_ancestors_iff.mpr (Document.ancestor_of_release hcycle))
      · exact Nat.le_of_not_lt hindex

theorem keepsLinks_append (parent child : NodeId) : KeepsLinks (append parent child) := by
  intro doc hdoc
  apply yields_bind
  apply yields_get
  exact keepsLinks_insert parent _ child hdoc

theorem keepsLinks_moveTo (child parent : NodeId) (index : Nat) :
    KeepsLinks (moveTo child parent index) := by
  intro doc hdoc
  apply yields_bind
  apply yields_require hdoc
  intro _
  exact keepsLinks_insert parent index child hdoc

theorem keepsLinks_insertBeside (skip : Nat) (sibling child : NodeId) :
    KeepsLinks (insertBeside skip sibling child) := by
  intro doc hdoc
  apply yields_bind
  apply yields_require hdoc
  intro _
  apply yields_bind
  apply yields_require hdoc
  intro _
  apply yields_bind
  apply yields_get
  split
  · next parent hparent =>
      split
      · exact yields_pure hdoc
      · apply yields_bind
        apply yields_requireInsertable hdoc
        intro _ _ _
        apply yields_bind
        apply yields_modify
        apply yields_bind
        apply yields_get
        have hreleased := hdoc.release parent child
        split
        · exact keepsLinks_insert parent _ child hreleased
        · exact yields_throw hreleased
  · exact yields_throw hdoc

theorem keepsLinks_remove (id : NodeId) : KeepsLinks (remove id) := by
  intro doc hdoc
  apply yields_bind
  apply yields_require hdoc
  intro _
  dsimp only
  split
  · exact yields_bind (yields_throw hdoc)
  · exact yields_modify (hdoc.unlink id)

theorem keepsLinks_removeAll (parent : NodeId) : KeepsLinks (removeAll parent) := by
  intro doc hdoc
  apply yields_bind
  apply yields_require hdoc
  intro _
  exact yields_modify (hdoc.clear parent)

theorem keepsLinks_replace (old new : NodeId) : KeepsLinks (replace old new) := by
  intro doc hdoc
  apply yields_bind
  apply yields_require hdoc
  intro _
  apply yields_bind
  apply yields_require hdoc
  intro _
  split
  · exact yields_pure hdoc
  · apply yields_bind
    apply yields_get
    dsimp only
    split
    · exact yields_bind (yields_throw hdoc)
    · apply yields_bind
      apply (keepsLinks_insertBeside 0 old new hdoc).mono
      intro _ after hafter
      exact yields_modify (hafter.unlink old)

theorem keepsLinks_assign (id : NodeId) (setting : Setting) :
    KeepsLinks (assign id setting) := by
  intro doc hdoc
  apply yields_bind
  apply yields_require hdoc
  intro _
  apply yields_bind
  apply yields_get
  dsimp only
  split
  · next changed hchanged =>
      obtain ⟨kind, _, rfl⟩ := Option.map_eq_some_iff.mp hchanged
      exact yields_modify ((Document.sameLinks_modify doc id rfl rfl).isLinked hdoc)
  · exact yields_throw hdoc

theorem keepsLinks_setKind (id : NodeId) (kind : Kind) : KeepsLinks (setKind id kind) :=
  keepsLinks_modify (f := fun doc ↦ doc.modify id fun n ↦ { n with kind }) fun doc ↦
    Document.sameLinks_modify doc id rfl rfl

theorem keepsLinks_cleanRaws (id : NodeId) (keepBetween : Bool) :
    KeepsLinks (cleanRaws id keepBetween) :=
  keepsLinks_modify fun doc ↦ Document.sameLinks_cleanRaws doc id keepBetween

theorem keepsLinks_setRaws (id : NodeId) (f : Raws → Raws) : KeepsLinks (setRaws id f) :=
  keepsLinks_modify (f := fun doc ↦ doc.modify id (Node.mapRaws f)) fun doc ↦
    doc.sameLinks_mapRaws id f

theorem keepsLinks_copyOrigin (id other : NodeId) : KeepsLinks (copyOrigin id other) := by
  intro doc hdoc
  apply yields_bind
  apply yields_require hdoc
  intro _
  apply yields_bind
  apply yields_require hdoc
  intro _
  apply yields_bind
  apply yields_get
  exact yields_modify ((doc.sameLinks_modify id rfl rfl).isLinked hdoc)

theorem keepsLinks_setMode (mode : Mode) : KeepsLinks (setMode mode) := by
  intro doc hdoc
  have hsame : doc.SameLinks { doc with mode } := ⟨rfl, fun _ ↦ rfl, fun _ ↦ rfl⟩
  exact yields_modify (hsame.isLinked hdoc)

theorem keepsLinks_recover (recovery : Recovery) : KeepsLinks (recover recovery) := by
  intro doc hdoc
  have hrecover := (doc.sameLinks_recover recovery).isLinked hdoc
  apply yields_bind
  cases recovery.node with
  | none => exact yields_pure (yields_modify hrecover)
  | some id => exact yields_require hdoc fun _ ↦ yields_modify hrecover

end Links

end Edit

/-! ## Runs of commands -/

/-- An edit with its arguments. -/
inductive Command where
  | create (kind : Kind)
  | copy (id : NodeId)
  | openBlock (id : NodeId)
  | append (parent child : NodeId)
  | prepend (parent child : NodeId)
  | insert (parent : NodeId) (index : Nat) (child : NodeId)
  | moveTo (child parent : NodeId) (index : Nat)
  | insertBefore (sibling child : NodeId)
  | insertAfter (sibling child : NodeId)
  | replace (old new : NodeId)
  | remove (id : NodeId)
  | removeAll (parent : NodeId)
  | cleanRaws (id : NodeId) (keepBetween : Bool)
  | assign (id : NodeId) (setting : Setting)
  | setKind (id : NodeId) (kind : Kind)
  | setRaws (id : NodeId) (f : Raws → Raws)
  | copyOrigin (id other : NodeId)
  | setMode (mode : Mode)
  | recover (recovery : Recovery)

namespace Command

/-- `c.after doc` is the document behind a command, which may have been refused. -/
def after (doc : Document) : Command → Document
  | create kind => ((Edit.create kind).apply doc).2
  | copy id => ((Edit.copy id).apply doc).2
  | openBlock id => ((Edit.openBlock id).apply doc).2
  | append parent child => ((Edit.append parent child).apply doc).2
  | prepend parent child => ((Edit.prepend parent child).apply doc).2
  | insert parent index child => ((Edit.insert parent index child).apply doc).2
  | moveTo child parent index => ((Edit.moveTo child parent index).apply doc).2
  | insertBefore sibling child => ((Edit.insertBefore sibling child).apply doc).2
  | insertAfter sibling child => ((Edit.insertAfter sibling child).apply doc).2
  | replace old new => ((Edit.replace old new).apply doc).2
  | remove id => ((Edit.remove id).apply doc).2
  | removeAll parent => ((Edit.removeAll parent).apply doc).2
  | cleanRaws id keepBetween => ((Edit.cleanRaws id keepBetween).apply doc).2
  | assign id setting => ((Edit.assign id setting).apply doc).2
  | setKind id kind => ((Edit.setKind id kind).apply doc).2
  | setRaws id f => ((Edit.setRaws id f).apply doc).2
  | copyOrigin id other => ((Edit.copyOrigin id other).apply doc).2
  | setMode mode => ((Edit.setMode mode).apply doc).2
  | recover recovery => ((Edit.recover recovery).apply doc).2

/-- `run commands doc` is the document behind a run of commands. -/
def run (commands : List Command) (doc : Document) : Document :=
  commands.foldl after doc

variable {doc : Document}

/-- A command keeps a document linked, also if it is refused. -/
theorem isLinked_after (h : doc.IsLinked) (command : Command) : (command.after doc).IsLinked := by
  cases command with
  | create kind => exact (Edit.keepsLinks_create kind h).after
  | copy id => exact (Edit.keepsLinks_copy id h).after
  | openBlock id => exact (Edit.keepsLinks_openBlock id h).after
  | append parent child => exact (Edit.keepsLinks_append parent child h).after
  | prepend parent child => exact (Edit.keepsLinks_insert parent 0 child h).after
  | insert parent index child => exact (Edit.keepsLinks_insert parent index child h).after
  | moveTo child parent index => exact (Edit.keepsLinks_moveTo child parent index h).after
  | insertBefore sibling child => exact (Edit.keepsLinks_insertBeside 0 sibling child h).after
  | insertAfter sibling child => exact (Edit.keepsLinks_insertBeside 1 sibling child h).after
  | replace old new => exact (Edit.keepsLinks_replace old new h).after
  | remove id => exact (Edit.keepsLinks_remove id h).after
  | removeAll parent => exact (Edit.keepsLinks_removeAll parent h).after
  | cleanRaws id keepBetween => exact (Edit.keepsLinks_cleanRaws id keepBetween h).after
  | assign id setting => exact (Edit.keepsLinks_assign id setting h).after
  | setKind id kind => exact (Edit.keepsLinks_setKind id kind h).after
  | setRaws id f => exact (Edit.keepsLinks_setRaws id f h).after
  | copyOrigin id other => exact (Edit.keepsLinks_copyOrigin id other h).after
  | setMode mode => exact (Edit.keepsLinks_setMode mode h).after
  | recover recovery => exact (Edit.keepsLinks_recover recovery h).after

theorem isLinked_run (h : doc.IsLinked) (commands : List Command) :
    (run commands doc).IsLinked := by
  induction commands generalizing doc with
  | nil => exact h
  | cons command commands ih => exact ih (isLinked_after h command)

end Command

end Stylesheet
