import Stylesheet.Proofs.Refusal

/-!
# Where an insertion puts a node

`Document.Moves` says what a move does to the links: a parent gets a new list of children, the
node gets the parent, the list that the node leaves loses it and nothing else, and all other links
stay. `Command.Places` says which list that is, with places counted among the children of the
parent other than the node itself. `places_of_run` says that each insertion into a document that
any run of commands has made does just that.
-/

namespace Stylesheet

/-- An element put `n` places behind a first part is put `n` places into the second part. -/
theorem insertIdx_append {α : Type} (before behind : List α) (n : Nat) (x : α) :
    (before ++ behind).insertIdx (before.length + n) x = before ++ behind.insertIdx n x := by
  induction before with
  | nil => simp
  | cons first before ih => simpa [Nat.succ_add] using ih

namespace Document

variable {doc after : Document} {parent child old : NodeId} {before behind : List NodeId}

/-! ## Moves -/

/-- `doc.childrenBut child parent` lists the children of a node other than `child`. -/
def childrenBut (doc : Document) (child parent : NodeId) : List NodeId :=
  (doc.children parent).filter (· ≠ child)

/-- `doc.Moves after child target siblings removed` says that `child` has been moved below
`target`, whose children are now `siblings`, and that the nodes in `removed` have been
detached. -/
structure Moves (doc after : Document) (child target : NodeId) (siblings removed : List NodeId) :
    Prop where
  children : after.children target = siblings
  parent : after.parent child = some target
  former : ∀ {id}, doc.parent child = some id → id ≠ target →
    after.children id = doc.childrenBut child id
  gone : ∀ {id}, id ∈ removed → after.parent id = none
  otherParents : ∀ {id}, id ≠ child → id ∉ removed → after.parent id = doc.parent id
  otherChildren : ∀ {id}, id ≠ target → doc.parent child ≠ some id →
    after.children id = doc.children id

/-- Releasing a node takes it out of every list, and out of no list but that of its parent. -/
theorem IsLinked.children_release (h : doc.IsLinked) (parent child id : NodeId) :
    (doc.release parent child).children id = doc.childrenBut child id := by
  rw [(sameLinks_release doc parent child).children, h.children_unlink_eq]
  rfl

/-- Releasing a node and putting it into a place is a move. -/
theorem IsLinked.moves_link (h : doc.IsLinked) (hparent : parent < doc.size)
    (hchild : child < doc.size) (index : Nat) :
    doc.Moves ((doc.release parent child).link parent index child) child parent
      ((doc.childrenBut child parent).insertIdx index child) [] where
  children := by
    rw [children_link, if_pos ⟨rfl, by simpa using hparent⟩, h.children_release]
  parent := by rw [parent_link, if_pos ⟨rfl, by simpa using hchild⟩]
  former := by
    intro id _ hne
    rw [children_link, if_neg (fun hcond ↦ hne hcond.1), h.children_release]
  gone := nofun
  otherParents := by
    intro id hne _
    rw [parent_link, if_neg (fun hcond ↦ hne hcond.1),
      (sameLinks_release doc parent child).parent, parent_unlink, if_neg hne]
  otherChildren := by
    intro id hne hformer
    rw [children_link, if_neg (fun hcond ↦ hne hcond.1),
      (sameLinks_release doc parent child).children, children_unlink, if_neg hformer]

/-- Detaching the node behind the one that was moved leaves that one in its place. -/
theorem Moves.unlink (h : doc.Moves after child parent (before ++ child :: old :: behind) [])
    (hne : old ≠ child) (hold : doc.parent old = some parent)
    (hnodup : (before ++ old :: behind).Nodup) :
    doc.Moves (after.unlink old) child parent (before ++ child :: behind) [old] := by
  have hkept : after.parent old = some parent := (h.otherParents hne nofun).trans hold
  have hout : old ∉ before ++ behind := by
    have hfirst := (List.perm_middle.nodup_iff.mp hnodup)
    exact (List.nodup_cons.mp hfirst).1
  have hother : ∀ {id}, id ≠ parent → (after.unlink old).children id = after.children id := by
    intro id hid
    rw [children_unlink, hkept, if_neg (fun heq ↦ hid (Option.some.inj heq).symm)]
  constructor
  case children =>
    have hfilter (l : List NodeId) (hl : old ∉ l) : l.filter (· ≠ old) = l :=
      List.filter_eq_self.mpr fun id hid ↦ decide_eq_true fun heq ↦ hl (heq ▸ hid)
    rw [children_unlink, if_pos hkept, h.children, List.filter_append,
      hfilter before fun hmem ↦ hout (List.mem_append_left _ hmem),
      List.filter_cons_of_pos (by simpa using hne.symm), List.filter_cons_of_neg (by simp),
      hfilter behind fun hmem ↦ hout (List.mem_append_right _ hmem)]
  case parent => rw [parent_unlink, if_neg hne.symm, h.parent]
  case former => exact fun hformer hid ↦ (hother hid).trans (h.former hformer hid)
  case gone =>
    intro id hid
    rw [parent_unlink, if_pos (List.mem_singleton.mp hid)]
  case otherParents =>
    intro id hid hnot
    rw [parent_unlink, if_neg (mt List.mem_singleton.mpr hnot), h.otherParents hid nofun]
  case otherChildren => exact fun hid hformer ↦ (hother hid).trans (h.otherChildren hid hformer)

end Document

/-! ## Insertions -/

namespace Edit

variable {doc : Document} {parent child : NodeId} {refused : Document → Prop}
  {answered : Unit → Document → Prop}

/-- An insertion that is not refused moves the node to a place that there is. -/
theorem yields_insert {index : Nat} (hdoc : doc.IsLinked) (hrefused : refused doc)
    (h : ∀ after, index ≤ (doc.childrenBut child parent).length →
      doc.Moves after child parent ((doc.childrenBut child parent).insertIdx index child) [] →
        answered () after) : (insert parent index child).Yields doc refused answered := by
  refine yields_insert_fits hdoc hrefused fun hfits ↦
    h _ ?_ (hdoc.moves_link hfits.parent_lt hfits.child_lt index)
  rw [← hdoc.children_release parent child parent]
  exact hfits.index_le

/-- An insertion beside another node moves the node next to that one, wherever the node was. -/
theorem yields_insertBeside {skip : Nat} {sibling : NodeId} (hdoc : doc.IsLinked)
    (hskip : skip ≤ 1) (hrefused : refused doc) (hsame : child = sibling → answered () doc)
    (h : ∀ after parent before behind, child ≠ sibling → doc.parent sibling = some parent →
      doc.childrenBut child parent = before ++ sibling :: behind →
      doc.Moves after child parent (before ++ (sibling :: behind).insertIdx skip child) [] →
        answered () after) : (insertBeside skip sibling child).Yields doc refused answered := by
  refine yields_insertBeside_fits hdoc hskip hrefused hsame ?_
  intro parent before behind hne hparent hsplit hfits
  rw [hdoc.children_release] at hsplit
  apply h _ parent before behind hne hparent hsplit
  rw [← insertIdx_append, ← hsplit]
  exact hdoc.moves_link hfits.parent_lt hfits.child_lt _

end Edit

namespace Command

/-- `c.Places doc after` says what the links of a document are behind an insertion. The list that
the places are counted in is that of the children of the parent other than the node itself. -/
def Places (doc after : Document) : Command → Prop
  | insert parent index child | moveTo child parent index =>
      index ≤ (doc.childrenBut child parent).length ∧
        doc.Moves after child parent ((doc.childrenBut child parent).insertIdx index child) []
  | append parent child =>
      doc.Moves after child parent (doc.childrenBut child parent ++ [child]) []
  | prepend parent child =>
      doc.Moves after child parent (child :: doc.childrenBut child parent) []
  | insertBefore sibling child =>
      if child = sibling then after = doc
      else ∃ parent before behind, doc.parent sibling = some parent ∧
        doc.childrenBut child parent = before ++ sibling :: behind ∧
        doc.Moves after child parent (before ++ child :: sibling :: behind) []
  | insertAfter sibling child =>
      if child = sibling then after = doc
      else ∃ parent before behind, doc.parent sibling = some parent ∧
        doc.childrenBut child parent = before ++ sibling :: behind ∧
        doc.Moves after child parent (before ++ sibling :: child :: behind) []
  | replace old new =>
      if old = new then after = doc
      else ∃ parent before behind, doc.parent old = some parent ∧
        doc.childrenBut new parent = before ++ old :: behind ∧
        doc.Moves after new parent (before ++ new :: behind) [old]
  | _ => True

variable {doc : Document}

theorem yields_places (h : doc.IsLinked) (command : Command) :
    command.edit.Yields doc (fun _ ↦ True) fun _ after ↦ command.Places doc after := by
  cases command with
  | insert parent index child =>
      exact Edit.yields_insert h trivial fun _ hindex hmoves ↦ ⟨hindex, hmoves⟩
  | moveTo child parent index =>
      apply Edit.yields_bind
      apply Edit.yields_require trivial
      intro _
      exact Edit.yields_insert h trivial fun _ hindex hmoves ↦ ⟨hindex, hmoves⟩
  | append parent child =>
      apply Edit.yields_bind
      apply Edit.yields_get
      refine Edit.yields_insert h trivial fun _ _ hmoves ↦ ?_
      rw [← h.length_children_release parent child, h.children_release,
        List.insertIdx_length_self] at hmoves
      exact hmoves
  | prepend parent child =>
      refine Edit.yields_insert h trivial fun _ _ hmoves ↦ ?_
      rw [List.insertIdx_zero] at hmoves
      exact hmoves
  | insertBefore sibling child =>
      refine Edit.yields_insertBeside h (Nat.zero_le 1) trivial (fun heq ↦ ?_) ?_
      · exact (if_pos heq).mpr rfl
      · intro after parent before behind hne hparent hsplit hmoves
        exact (if_neg hne).mpr ⟨parent, before, behind, hparent, hsplit, hmoves⟩
  | insertAfter sibling child =>
      refine Edit.yields_insertBeside h (Nat.le_refl 1) trivial (fun heq ↦ ?_) ?_
      · exact (if_pos heq).mpr rfl
      · intro after parent before behind hne hparent hsplit hmoves
        exact (if_neg hne).mpr ⟨parent, before, behind, hparent, hsplit, hmoves⟩
  | replace old new =>
      refine Edit.yields_replace_fits h trivial (fun heq ↦ (if_pos heq).mpr rfl) ?_
      intro parent before behind hne hparent hsplit hfits
      rw [h.children_release] at hsplit
      have hmoves := h.moves_link hfits.parent_lt hfits.child_lt before.length
      rw [hsplit, show before.length = before.length + 0 from rfl, insertIdx_append,
        List.insertIdx_zero] at hmoves
      refine (if_neg hne.symm).mpr
        ⟨parent, before, behind, hparent, hsplit, hmoves.unlink hne.symm hparent ?_⟩
      rw [← hsplit]
      exact (h.nodup parent).filter _
  | _ => exact Edit.Yields.mono (isAtomic_edit _ h trivial) fun _ _ _ ↦ trivial

end Command

/-- In a document that any run of commands has made, an insertion that is not refused puts its
node at the place that the command names among the other children of the parent. The node gets the
parent, its former parent loses it and nothing else, and all other links stay, also if the node
moves within one list or out of the node that it replaces. -/
theorem places_of_run {start : Document}
    (hstart : start = .empty ∨ ∃ source mode, parse source mode = .ok start)
    (commands : List Command) (command : Command)
    (h : (command.edit.apply (Command.run commands start)).1 = .ok ()) :
    command.Places (Command.run commands start) (command.after (Command.run commands start)) := by
  have hyields :=
    Command.yields_places (Command.isLinked_run (isLinked_of_start hstart) commands) command
  rw [Command.after_eq]
  unfold Edit.Yields at hyields
  rcases hresult : command.edit.apply (Command.run commands start) with ⟨_ | _, after⟩
  · rw [hresult] at h
    cases h
  · rw [hresult] at hyields
    exact hyields

/-- A rule is replaced by a declaration out of its own block, between its two neighbours. -/
theorem places_of_replaced_parent :
    ∃ start, parse ⟨"a\x7b\x7d b\x7bc:d\x7d e\x7b\x7d".toList, none⟩ .strict = .ok start ∧
      ((Command.replace 2 3).edit.apply (Command.run [] start)).1 = .ok () ∧
      (Command.run [] start).children 0 = [1, 2, 4] ∧
      ((Command.replace 2 3).after (Command.run [] start)).children 0 = [1, 3, 4] ∧
      (Command.replace 2 3).Places (Command.run [] start)
        ((Command.replace 2 3).after (Command.run [] start)) :=
  ⟨_, rfl, rfl, rfl, rfl,
    places_of_run (.inr ⟨⟨"a\x7b\x7d b\x7bc:d\x7d e\x7b\x7d".toList, none⟩, .strict, rfl⟩)
      [] (.replace 2 3) rfl⟩

end Stylesheet
