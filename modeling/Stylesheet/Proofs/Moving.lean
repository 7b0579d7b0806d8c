import Stylesheet.Proofs.Insertion
import Stylesheet.Proofs.Walking

/-!
# The layout that a move drops

What a node has recorded about the text before it and before its end belongs to the place where it
stands, and is dropped when the node moves to another parent. At another depth all that is below
the node is indented in another way, so that the same is dropped there. `Document.Relays` says so,
and that nothing else of any layout is touched. An edit beside a sibling takes the node out of its
place twice, but only the first time is there a parent to be compared with the new one.
`layout_of_run` says that each insertion into a document that any run of commands has made drops
just that.
-/

namespace Stylesheet

namespace Document

variable {doc after : Document} {child target old id : NodeId}

/-! ## Depths -/

theorem IsLinked.depth_of_parent (h : doc.IsLinked) (hparent : doc.parent id = some target) :
    doc.depth id = doc.childDepth target := by
  rw [depth, h.ancestors_of_parent hparent, List.countP_cons, childDepth, depth]
  by_cases hroot : doc.type target = .root <;> simp [hroot]

/-- The depth of a node depends on its parent, its ancestors and their sorts. -/
theorem depth_congr {other : Document} (hsize : other.size = doc.size)
    (hkinds : doc.SameKinds other)
    (h : ∀ above, above = id ∨ doc.Ancestor above id → other.parent above = doc.parent above) :
    other.depth id = doc.depth id := by
  have htype (above : NodeId) : other.type above = doc.type above := by
    rw [type, type, Node.type, hkinds above, Node.type]
  simp only [depth, ancestors, hsize, climb_congr h, htype]

theorem SameKinds.trans {first second third : Document} (h : first.SameKinds second)
    (hlast : second.SameKinds third) : first.SameKinds third :=
  fun id ↦ (hlast id).trans (h id)

theorem sameKinds_link (doc : Document) (target : NodeId) (index : Nat) (child : NodeId) :
    doc.SameKinds (doc.link target index child) :=
  (sameKinds_modify doc target rfl).trans (sameKinds_modify _ child rfl)

/-! ## Layouts behind a step -/

theorem raws_unlink (doc : Document) (id other : NodeId) :
    ((doc.unlink id).node other).raws = (doc.node other).raws :=
  (doc.sameNodes_unlink id).raws other

theorem raws_link (doc : Document) (target : NodeId) (index : Nat) (child other : NodeId) :
    ((doc.link target index child).node other).raws = (doc.node other).raws :=
  (view_modify Node.raws _ _ other rfl).trans (view_modify Node.raws doc target other rfl)

theorem raws_forgetPlaces (doc : Document) (ids : List NodeId) (id : NodeId) :
    ((doc.forgetPlaces ids).node id).raws =
      if id ∈ ids then (doc.node id).raws.forgetPlace else (doc.node id).raws := by
  have hone (doc : Document) (first : NodeId) :
      ((doc.modify first (Node.mapRaws Raws.forgetPlace)).node id).raws =
        if id = first then (doc.node id).raws.forgetPlace else (doc.node id).raws := by
    by_cases hid : id = first
    · subst hid
      by_cases hlt : id < doc.size
      · simp [node_modify, hlt, Node.mapRaws]
      -- A number that is no node stands for one that has recorded nothing.
      · simp [node_modify, hlt, node_of_size_le (Nat.le_of_not_lt hlt), absent, Raws.forgetPlace]
    · simp [node_modify, hid]
  unfold forgetPlaces
  induction ids generalizing doc with
  | nil => rfl
  | cons first ids ih =>
      rw [List.foldl_cons, ih, hone]
      by_cases hid : id = first <;> by_cases hids : id ∈ ids <;> simp [hid, hids,
        Raws.forgetPlace]

/-! ## Moves -/

/-- `doc.Relays after child target` says what becomes of the layouts when `child` is moved below
`target`. -/
structure Relays (doc after : Document) (child target : NodeId) : Prop where
  parent : after.parent child = some target
  /-- A new node, or one that stays below its parent, changes no layout. -/
  kept : doc.parent child = none ∨ doc.parent child = some target →
    ∀ id, (after.node id).raws = (doc.node id).raws
  /-- A node from another parent loses the text before it and before its end. -/
  moved : ∀ {old}, doc.parent child = some old → old ≠ target →
    (after.node child).raws = { (doc.node child).raws with before := none, after := none }
  /-- The nodes below it lose theirs if and only if it comes to another depth. -/
  below : ∀ {old id}, doc.parent child = some old → old ≠ target → doc.Ancestor child id →
    (after.node id).raws =
      if after.depth child = doc.depth child then (doc.node id).raws
      else { (doc.node id).raws with before := none, after := none }
  /-- All other nodes keep their layout. -/
  others : ∀ id, id ≠ child → ¬doc.Ancestor child id → (after.node id).raws = (doc.node id).raws

theorem raws_release_of_kept (h : doc.parent child = none ∨ doc.parent child = some target)
    (id : NodeId) : ((doc.release target child).node id).raws = (doc.node id).raws := by
  rcases h with hnone | hsame
  · rw [release_of_detached hnone]
  · unfold release
    simp only [hsame, if_true, raws_unlink]

/-- A released node loses the layout that depends on its parent, and with it what is below it if
it is to come to another depth. -/
theorem IsLinked.raws_release (h : doc.IsLinked) (hparent : doc.parent child = some old)
    (hne : old ≠ target) (id : NodeId) :
    ((doc.release target child).node id).raws =
      if id ∈ (if doc.childDepth old = doc.childDepth target then [child]
        else child :: (doc.below child).toList)
      then (doc.node id).raws.forgetPlace else (doc.node id).raws := by
  unfold Document.release
  simp only [hparent, if_neg hne, raws_unlink, forgetLayout, h.walk_eq]
  split <;> exact raws_forgetPlaces doc _ id

/-- A node that is put at a place that it fits is linked to it. -/
theorem Fits.isLinked_release {index : Nat} (hfits : doc.Fits target index child)
    (h : doc.IsLinked) : ((doc.release target child).link target index child).IsLinked :=
  (hfits.release h).isLinked (h.release target child) (parent_release_self doc target child)

/-- A node that is moved comes to the depth of its new siblings. -/
theorem IsLinked.depth_link (h : doc.IsLinked) {index : Nat}
    (hfits : doc.Fits target index child) :
    ((doc.release target child).link target index child).depth child = doc.childDepth target := by
  have hmoves := h.moves_link hfits.parent_lt hfits.child_lt index
  have hkinds : doc.SameKinds ((doc.release target child).link target index child) :=
    (sameKinds_release doc target child).trans (sameKinds_link _ target index child)
  have hsize : ((doc.release target child).link target index child).size = doc.size := by
    simp [Document.link]
  rw [(hfits.isLinked_release h).depth_of_parent hmoves.parent, childDepth, childDepth, type,
    type, Node.type, hkinds target, Node.type, depth_congr hsize hkinds fun above habove ↦ ?_]
  -- The moved node is not among the ancestors of its new parent.
  refine hmoves.otherParents ?_ List.not_mem_nil
  rintro rfl
  rcases habove with heq | habove
  · exact hfits.admits.ne_parent heq
  · exact hfits.admits.not_above (h.mem_ancestors_iff.mpr habove)

theorem IsLinked.relays_link (h : doc.IsLinked) {index : Nat}
    (hfits : doc.Fits target index child) :
    doc.Relays ((doc.release target child).link target index child) child target where
  parent := (h.moves_link hfits.parent_lt hfits.child_lt index).parent
  kept := by
    intro hkept id
    rw [raws_link, raws_release_of_kept hkept]
  moved := by
    intro old hparent hne
    rw [raws_link, h.raws_release hparent hne, if_pos]
    · rfl
    · split <;> exact List.mem_cons_self
  below := by
    intro old id hparent hne hid
    have hself : id ≠ child := fun heq ↦ h.not_ancestor_self child (heq ▸ hid)
    rw [raws_link, h.raws_release hparent hne, h.depth_link hfits, h.depth_of_parent hparent]
    by_cases hdepth : doc.childDepth old = doc.childDepth target
    · rw [if_pos hdepth, if_pos hdepth.symm, if_neg (by simpa using hself)]
    · rw [if_neg hdepth, if_neg (Ne.symm hdepth),
        if_pos (List.mem_cons_of_mem _ (h.mem_below_iff.mpr hid))]
      rfl
  others := by
    intro id hself hid
    rw [raws_link]
    cases hparent : doc.parent child with
    | none => exact raws_release_of_kept (.inl hparent) id
    | some old =>
        by_cases hne : old = target
        · exact raws_release_of_kept (.inr (hne ▸ hparent)) id
        · rw [h.raws_release hparent hne, if_neg]
          split
          · simpa using hself
          · rw [List.mem_cons, h.mem_below_iff, not_or]
            exact ⟨hself, hid⟩

/-- Detaching a sibling of the moved node changes no layout, nor the depth of the node. -/
theorem Relays.unlink (h : doc.Relays after child target) (hafter : after.IsLinked)
    (hne : old ≠ child) (hold : after.parent old = some target) :
    doc.Relays (after.unlink old) child target := by
  have hdepth : (after.unlink old).depth child = after.depth child := by
    refine depth_congr (size_unlink after old) (sameKinds_unlink after old) fun above habove ↦ ?_
    rw [parent_unlink, if_neg]
    rintro rfl
    rcases habove with heq | habove
    · exact hne heq
    · exact hafter.not_ancestor_sibling hold h.parent habove
  constructor
  case parent => rw [parent_unlink, if_neg hne.symm, h.parent]
  all_goals simp only [raws_unlink, hdepth]
  case kept => exact h.kept
  case moved => exact h.moved
  case below => exact h.below
  case others => exact h.others

end Document

/-! ## Insertions -/

namespace Command

/-- `c.move? doc` is the node that an insertion puts into a place, with the parent that it
gets. -/
def move? (doc : Document) : Command → Option (NodeId × NodeId)
  | append parent child | prepend parent child | insert parent _ child | moveTo child parent _ =>
      some (child, parent)
  | insertBefore sibling child | insertAfter sibling child => (doc.parent sibling).map (child, ·)
  | replace old new => (doc.parent old).map (new, ·)
  | _ => none

variable {doc : Document}

/-- A node that stays where it is changes no layout. -/
theorem relays_self {child target : NodeId} (h : doc.parent child = some target) :
    doc.Relays doc child target :=
  have hsame {old : NodeId} (hold : doc.parent child = some old) : old = target :=
    Option.some.inj (hold.symm.trans h)
  ⟨h, fun _ _ ↦ rfl, fun hold hne ↦ absurd (hsame hold) hne,
    fun hold hne ↦ absurd (hsame hold) hne, fun _ _ _ ↦ rfl⟩

theorem yields_relays (h : doc.IsLinked) {command : Command} {child target : NodeId}
    (hmove : command.move? doc = some (child, target)) :
    command.edit.Yields doc (fun _ ↦ True) fun _ after ↦ doc.Relays after child target := by
  cases command with
  | insert parent index child' =>
      cases hmove
      exact Edit.yields_insert_fits h trivial fun hfits ↦ h.relays_link hfits
  | prepend parent child' =>
      cases hmove
      exact Edit.yields_insert_fits h trivial fun hfits ↦ h.relays_link hfits
  | append parent child' =>
      cases hmove
      apply Edit.yields_bind
      apply Edit.yields_get
      exact Edit.yields_insert_fits h trivial fun hfits ↦ h.relays_link hfits
  | moveTo child' parent index =>
      cases hmove
      apply Edit.yields_bind
      apply Edit.yields_require trivial
      intro _
      exact Edit.yields_insert_fits h trivial fun hfits ↦ h.relays_link hfits
  | insertBefore sibling child' | insertAfter sibling child' =>
      obtain ⟨parent, hparent, hpair⟩ := Option.map_eq_some_iff.mp hmove
      cases hpair
      refine Edit.yields_insertBeside_fits h (by decide) trivial
        (fun heq ↦ relays_self (heq ▸ hparent)) ?_
      intro other before behind _ hother _ hfits
      cases hparent.symm.trans hother
      exact h.relays_link hfits
  | replace old new =>
      obtain ⟨parent, hparent, hpair⟩ := Option.map_eq_some_iff.mp hmove
      cases hpair
      refine Edit.yields_replace_fits h trivial (fun heq ↦ relays_self (heq ▸ hparent)) ?_
      intro other before behind hne hother _ hfits
      cases hparent.symm.trans hother
      refine (h.relays_link hfits).unlink (hfits.isLinked_release h) hne.symm ?_
      rw [(h.moves_link hfits.parent_lt hfits.child_lt _).otherParents hne.symm nofun, hparent]
  | _ => cases hmove

end Command

/-- In a document that any run of commands has made, an insertion that is not refused drops the
layout that depends on the place of its node and nothing else: nothing at all if the node had no
parent or had this one, and otherwise the text before the node and before its end, and that of all
nodes below it if and only if the node comes to another depth. -/
theorem layout_of_run {start : Document}
    (hstart : start = .empty ∨ ∃ source mode, parse source mode = .ok start)
    (commands : List Command) (command : Command) {child target : NodeId}
    (hmove : command.move? (Command.run commands start) = some (child, target))
    (h : (command.edit.apply (Command.run commands start)).1 = .ok ()) :
    (Command.run commands start).Relays (command.after (Command.run commands start)) child
      target := by
  have hyields := Command.yields_relays
    (Command.isLinked_run (isLinked_of_start hstart) commands) hmove
  rw [Command.after_eq]
  unfold Edit.Yields at hyields
  rcases hresult : command.edit.apply (Command.run commands start) with ⟨_ | _, after⟩
  · rw [hresult] at h
    cases h
  · rw [hresult] at hyields
    exact hyields

/-- A rule that leaves the block of an at-rule comes to another depth, so that its declaration
loses the blank in front of it as well. -/
theorem layout_of_lifted_rule :
    ∃ start, parse ⟨"@a\x7b b\x7b c:d\x7d \x7d e\x7b\x7d".toList, none⟩ .strict = .ok start ∧
      ((Command.run [] start).node 3).raws.before = some [' '] ∧
      (((Command.insertBefore 4 2).after (Command.run [] start)).node 3).raws.before = none ∧
      (Command.run [] start).Relays ((Command.insertBefore 4 2).after (Command.run [] start))
      2 0 :=
  ⟨_, rfl, rfl, rfl,
    layout_of_run (.inr ⟨⟨"@a\x7b b\x7b c:d\x7d \x7d e\x7b\x7d".toList, none⟩, .strict, rfl⟩)
      [] (.insertBefore 4 2) rfl rfl⟩

end Stylesheet
