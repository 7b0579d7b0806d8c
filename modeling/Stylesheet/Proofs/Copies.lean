import Stylesheet.Document.Json
import Stylesheet.Proofs.Changes
import Stylesheet.Proofs.Walking

/-!
# Copies of a part of a document

`Document.copy` numbers a tree again behind the end of a document. The number that a node of the
tree gets is its place in a walk (`Document.copyOf`), so that the links of the copy are those of
the tree with other numbers. `Document.Copies` says so of every node, and that all nodes that were
there before stay as they are. `copy_of_run` says that a copy in a document that any run of
commands has made is never refused and is such a copy.
-/

namespace Stylesheet

namespace Forest

variable {α β : Type} {f : Forest α} {g k : α → β}

/-- Two functions do the same to a forest if and only if they do the same to each of its
values. -/
theorem map_eq_map_iff : f.map g = f.map k ↔ ∀ value ∈ f.toList, g value = k value := by
  induction f with
  | nil => simp [map, toList]
  | cons value below rest ihBelow ihRest =>
      simp [map, toList, ihBelow, ihRest, or_imp, forall_and]

@[simp] theorem numbers_map (k : α → β) (f : Forest α) (next : NodeId) :
    (f.map k).numbers next = f.numbers next := by
  induction f generalizing next with
  | nil => rfl
  | cons value below rest ihBelow ihRest => simp only [map, numbers, ihBelow, ihRest, size_map]

/-- Where no value stands twice, the number of a value is told by its place in the list. -/
theorem numbers_eq_map [DecidableEq α] (f : Forest α) (next : NodeId) (h : f.toList.Nodup) :
    f.numbers next = f.map fun value ↦ next + f.toList.idxOf value := by
  induction f generalizing next with
  | nil => rfl
  | cons value below rest ihBelow ihRest =>
      obtain ⟨hvalue, hnodup⟩ := List.nodup_cons.mp h
      obtain ⟨hbelow, hrest, hapart⟩ := List.nodup_append.mp hnodup
      rw [List.mem_append, not_or] at hvalue
      rw [numbers, ihBelow _ hbelow, ihRest _ hrest, map, toList, List.idxOf_cons_self,
        Nat.add_zero, cons.injEq]
      refine ⟨rfl, map_eq_map_iff.mpr fun other hother ↦ ?_,
        map_eq_map_iff.mpr fun other hother ↦ ?_⟩
      · have hne : value ≠ other := fun heq ↦ hvalue.1 (heq ▸ hother)
        rw [List.idxOf_cons, beq_false_of_ne hne, cond_false, List.idxOf_append, if_pos hother]
        show (_ : Nat) = _
        omega
      · have hne : value ≠ other := fun heq ↦ hvalue.2 (heq ▸ hother)
        have hnot : other ∉ below.toList := fun hmem ↦ hapart other hmem other hother rfl
        rw [List.idxOf_cons, beq_false_of_ne hne, cond_false, List.idxOf_append, if_neg hnot,
          length_toList]
        show (_ : Nat) = _
        omega

end Forest

/-- A node is what another one with other links is, if they are the same without links. -/
theorem Node.eq_of_unlinked {n m : Node} (h : n.unlinked = m.unlinked) :
    n = m.link n.parent n.childList := by
  obtain ⟨kind, raws, origin, parent, children⟩ := n
  obtain ⟨kind', raws', origin', parent', children'⟩ := m
  simp only [unlinked, link, mk.injEq, true_and] at h
  obtain ⟨rfl, rfl, rfl, hblock⟩ := h
  cases children <;> cases children' <;> simp_all [link, childList]

namespace Document

variable {doc after : Document} {id original : NodeId} {ids ids' : List NodeId}
  {f : Forest NodeId}

/-! ## Renamed links -/

/-- If the links of two documents unfold to forests that differ in their numbers only, then so do
the lists of children. -/
theorem Unfolds.children_map (k : NodeId → NodeId) (h : doc.Unfolds ids f)
    (hafter : after.Unfolds ids' (f.map k)) :
    ids' = ids.map k ∧ ∀ id ∈ f.toList, after.children (k id) = (doc.children id).map k := by
  induction h generalizing ids' with
  | nil =>
      cases hafter
      exact ⟨rfl, List.forall_mem_nil _⟩
  | cons id ids below rest _ _ ihBelow ihRest =>
      cases hafter with
      | cons _ _ _ _ hbelow hrest =>
          obtain ⟨hchildren, hbelow⟩ := ihBelow hbelow
          obtain ⟨hids, hrest⟩ := ihRest hrest
          rw [hids]
          exact ⟨rfl,
            List.forall_mem_cons.mpr ⟨hchildren, List.forall_mem_append.mpr ⟨hbelow, hrest⟩⟩⟩

/-- Nodes that differ in their links only are shown in the same way. -/
theorem forestJson_of_unlinked (hsource : after.source = doc.source) (full : Bool)
    {g : Forest NodeId}
    (h : (g.map after.node).map Node.unlinked = (f.map doc.node).map Node.unlinked) :
    after.forestJson full g = doc.forestJson full f := by
  induction f generalizing g with
  | nil =>
      cases g with
      | nil => rfl
      | cons => cases h
  | cons id below rest ihBelow ihRest =>
      cases g with
      | nil => cases h
      | cons id' below' rest' =>
          obtain ⟨hnode, hbelow, hrest⟩ := Forest.cons.inj h
          have hkind : (after.node id').kind = (doc.node id).kind := by
            simpa using congrArg Node.kind hnode
          have hraws : (after.node id').raws = (doc.node id).raws := by
            simpa using congrArg Node.raws hnode
          have hblock : (after.node id').hasBlock = (doc.node id).hasBlock := by
            simpa using congrArg Node.hasBlock hnode
          have horigin : (after.node id').origin = (doc.node id).origin := by
            simpa using congrArg Node.origin hnode
          simp only [forestJson, nodeJson, Node.type, hkind, hraws, hblock, horigin, hsource,
            ihBelow hbelow, ihRest hrest]

/-! ## Copies -/

/-- `doc.copyOf id original` is the number that `original` gets when `id` is copied with all that
is below it. -/
def copyOf (doc : Document) (id original : NodeId) : NodeId :=
  doc.size + (id :: doc.walk id).idxOf original

/-- `doc.Copies after id` says that `after` is `doc` with a detached copy of `id` and of all that
is below it behind its nodes. -/
structure Copies (doc after : Document) (id : NodeId) : Prop where
  size : after.size = doc.size + (id :: doc.walk id).length
  kept : ∀ other, other < doc.size → after.node other = doc.node other
  document : after.source = doc.source ∧ after.mode = doc.mode ∧ after.recoveries = doc.recoveries
  detached : after.parent doc.size = none
  /-- A walk of the copy meets the new numbers in order. -/
  walk : doc.size :: after.walk doc.size = List.range' doc.size (id :: doc.walk id).length
  /-- The copy of a node has all that the node has, but for its links, which are between
  copies. -/
  node : ∀ original ∈ id :: doc.walk id, after.node (doc.copyOf id original) =
    (doc.node original).link
      (if original = id then none else (doc.parent original).map (doc.copyOf id))
      ((doc.children original).map (doc.copyOf id))
  /-- No link leads from a new node to an old one. -/
  apart : ∀ new, doc.size ≤ new → (∀ above ∈ after.parent new, doc.size ≤ above) ∧
    ∀ child ∈ after.children new, doc.size ≤ child
  toJson : after.toJson doc.size = doc.toJson id

theorem copyOf_self (doc : Document) (id : NodeId) : doc.copyOf id id = doc.size := by
  rw [copyOf, List.idxOf_cons_self, Nat.add_zero]

theorem le_copyOf (doc : Document) (id original : NodeId) : doc.size ≤ doc.copyOf id original :=
  Nat.le_add_right _ _

theorem parent_copy_size (doc : Document) (id : NodeId) :
    (doc.copy id).parent doc.size = none := by
  have hle : ¬doc.nodes.size < doc.nodes.size := Nat.lt_irrefl _
  simp only [Document.parent, node, copy, Array.getElem?_append, size, if_neg hle, Nat.sub_self,
    List.getElem?_toArray, treeAt, Forest.number, List.getElem?_cons_zero,
    Option.getD_some, Node.link]

namespace IsLinked

variable (h : doc.IsLinked)
include h

theorem numbers_tree (id : NodeId) :
    (Forest.cons id (doc.below id) .nil).numbers doc.size =
      (Forest.cons id (doc.below id) .nil).map (doc.copyOf id) := by
  rw [Forest.numbers_eq_map, h.toList_tree]
  · rfl
  · rw [h.toList_tree, h.walk_eq]
    exact h.nodup_tree id

/-- A copy unfolds to the tree with the new numbers, and its nodes are those of the tree but for
their links. -/
theorem unfolds_copy (id : NodeId) :
    (doc.copy id).Unfolds [doc.size] ((Forest.cons id (doc.below id) .nil).map (doc.copyOf id)) ∧
      (((Forest.cons id (doc.below id) .nil).map (doc.copyOf id)).map (doc.copy id).node).map
          Node.unlinked =
        ((Forest.cons id (doc.below id) .nil).map doc.node).map Node.unlinked := by
  obtain ⟨hunfolds, hnodes⟩ :=
    unfolds_number doc.source doc.mode doc.recoveries doc.nodes.toList [] none
    (doc.treeAt id) (isBlocked_treeAt doc id)
  have hnumbers : (doc.treeAt id).numbers doc.nodes.toList.length =
      (Forest.cons id (doc.below id) .nil).map (doc.copyOf id) := by
    rw [← h.numbers_tree, ← Forest.numbers_map doc.node]
    rfl
  have hdoc : Document.mk (doc.nodes.toList ++
      ((doc.treeAt id).number none doc.nodes.toList.length).1 ++ []).toArray doc.source doc.mode
        doc.recoveries = doc.copy id := by
    simp [Document.copy, Document.size]
  rw [hdoc, hnumbers] at hunfolds hnodes
  exact ⟨hunfolds, hnodes⟩

/-- What is copied is what the original is, but for its links. -/
theorem unlinked_copyOf (id : NodeId) (horiginal : original ∈ id :: doc.walk id) :
    ((doc.copy id).node (doc.copyOf id original)).unlinked = (doc.node original).unlinked := by
  have hnodes := (h.unfolds_copy id).2
  rw [Forest.map_map, Forest.map_map, Forest.map_map, Forest.map_eq_map_iff,
    h.toList_tree] at hnodes
  exact hnodes original horiginal

theorem children_copyOf (id : NodeId) (horiginal : original ∈ id :: doc.walk id) :
    (doc.copy id).children (doc.copyOf id original) =
      (doc.children original).map (doc.copyOf id) := by
  obtain ⟨-, hchildren⟩ := Unfolds.children_map (doc.copyOf id)
    (.cons id [] _ _ (h.unfolds_below id) .nil) (h.unfolds_copy id).1
  rw [h.toList_tree] at hchildren
  exact hchildren original horiginal

/-- The copy of a node stands below the copy of its parent, and the copied tree below no node. -/
theorem parent_copyOf (id : NodeId) (horiginal : original ∈ id :: doc.walk id) :
    (doc.copy id).parent (doc.copyOf id original) =
      if original = id then none else (doc.parent original).map (doc.copyOf id) := by
  split
  · next heq => rw [heq, copyOf_self, parent_copy_size]
  · next hne =>
      have hbelow := h.mem_walk_iff.mp (List.mem_of_ne_of_mem hne horiginal)
      obtain ⟨parent, hparent, habove⟩ := hbelow.exists_parent
      -- The parent is copied as well, and the copy has the copies of all its children.
      have hmem : parent ∈ id :: doc.walk id :=
        List.mem_cons.mpr (habove.imp Eq.symm h.mem_walk_iff.mpr)
      rw [hparent, Option.map_some, ← (h.copy id).mem_children_iff, h.children_copyOf id hmem]
      exact List.mem_map_of_mem (h.mem_children_iff.mpr hparent)

theorem exists_parent_of_copyOf (horiginal : original ∈ id :: doc.walk id) {above : NodeId}
    (habove : (doc.copy id).parent (doc.copyOf id original) = some above) :
    ∃ parent, doc.parent original = some parent ∧ doc.copyOf id parent = above := by
  rw [h.parent_copyOf id horiginal] at habove
  split at habove
  · cases habove
  · exact Option.map_eq_some_iff.mp habove

theorem size_copy_eq (id : NodeId) : (doc.copy id).size =
    doc.size + (id :: doc.walk id).length := by
  rw [size_copy, h.walk_eq, List.length_cons, Forest.length_toList, Nat.add_assoc]

/-- The copied nodes get the new numbers, in the order of a walk. -/
theorem map_copyOf (id : NodeId) :
    (id :: doc.walk id).map (doc.copyOf id) =
      List.range' doc.size (id :: doc.walk id).length := by
  have hlist := congrArg Forest.toList (h.numbers_tree id)
  rw [Forest.toList_numbers, Forest.toList_map, h.toList_tree] at hlist
  rw [← hlist, ← h.toList_tree, Forest.length_toList]

theorem exists_copyOf_eq (id : NodeId) {new : NodeId} (hnew : doc.size ≤ new)
    (hlt : new < (doc.copy id).size) : ∃ original ∈ id :: doc.walk id, doc.copyOf id original =
      new := by
  rw [h.size_copy_eq] at hlt
  rw [← List.mem_map, h.map_copyOf, List.mem_range'_1]
  exact ⟨hnew, hlt⟩

/-- The forest below a copy is the copy of the forest. -/
theorem below_copy (id : NodeId) :
    (doc.copy id).below doc.size = (doc.below id).map (doc.copyOf id) := by
  have hcopied := (h.copy id).unfolds_below doc.size
  have htree := (h.unfolds_copy id).1.unique (.cons doc.size [] _ _ hcopied .nil)
  exact (Forest.cons.inj htree).2.1.symm

theorem copies_copy (id : NodeId) : doc.Copies (doc.copy id) id where
  size := h.size_copy_eq id
  kept := fun other hother ↦ node_copy_of_lt hother
  document := ⟨rfl, rfl, rfl⟩
  detached := doc.parent_copy_size id
  walk := by
    rw [← h.map_copyOf, (h.copy id).walk_eq, h.below_copy, Forest.toList_map, ← h.walk_eq,
      List.map_cons, copyOf_self]
  node := by
    intro original horiginal
    rw [← h.parent_copyOf id horiginal, ← h.children_copyOf id horiginal]
    exact Node.eq_of_unlinked (h.unlinked_copyOf id horiginal)
  apart := by
    intro new hnew
    rcases Nat.lt_or_ge new (doc.copy id).size with hlt | hge
    · obtain ⟨original, horiginal, rfl⟩ := h.exists_copyOf_eq id hnew hlt
      refine ⟨fun above habove ↦ ?_, fun child hchild ↦ ?_⟩
      · obtain ⟨parent, -, rfl⟩ := h.exists_parent_of_copyOf horiginal habove
        exact doc.le_copyOf id parent
      · rw [h.children_copyOf id horiginal] at hchild
        obtain ⟨old, -, rfl⟩ := List.mem_map.mp hchild
        exact doc.le_copyOf id old
    · rw [parent_of_size_le hge, children_of_size_le hge]
      exact ⟨fun above habove ↦ absurd habove (Option.not_mem_none above), List.forall_mem_nil _⟩
  toJson := by
    have hnodes := (h.unfolds_copy id).2
    rw [Forest.map, ← h.below_copy, copyOf_self] at hnodes
    have hsource : (doc.copy id).source = doc.source := rfl
    exact (List.cons.inj (forestJson_of_unlinked hsource true hnodes)).1

end IsLinked

end Document

/-! ## Documents that were read and edited -/

theorem Edit.apply_copy {doc : Document} {id : NodeId} (hid : id < doc.size) :
    (Edit.copy id).apply doc = (.ok doc.size, doc.copy id) := by
  have h : (Edit.copy id).Yields doc (fun _ ↦ False) fun answer after ↦
      answer = doc.size ∧ after = doc.copy id := by
    apply yields_bind
    apply yields_require_of_lt hid
    apply yields_bind
    apply yields_get
    apply yields_bind
    apply yields_set
    exact yields_pure ⟨rfl, rfl⟩
  exact h.apply_eq

/-- In a document that any run of commands has made, a copy of a node is never refused. It has all
that the node and the nodes below it have, behind the nodes that were there before, and no link
between the two. -/
theorem copy_of_run {start : Document}
    (hstart : start = .empty ∨ ∃ source mode, parse source mode = .ok start)
    (commands : List Command) {id : NodeId} (hid : id < (Command.run commands start).size) :
    let doc := Command.run commands start
    ∃ after, (Edit.copy id).apply doc = (.ok doc.size, after) ∧ doc.Copies after id :=
  ⟨_, Edit.apply_copy hid,
    (Command.isLinked_run (isLinked_of_start hstart) commands).copies_copy id⟩

/-- A rule whose block has been rearranged is copied in the order that it has now. -/
theorem copy_of_rearranged :
    ∃ start, parse ⟨"a\x7bb:c;d\x7be:f\x7d\x7d".toList, none⟩ .strict = .ok start ∧
      (Command.run [.prepend 1 3] start).walk 1 = [3, 4, 2] ∧
      ∃ after, (Edit.copy 1).apply (Command.run [.prepend 1 3] start) = (.ok 5, after) ∧
        (Command.run [.prepend 1 3] start).Copies after 1 :=
  ⟨_, rfl, by decide,
    copy_of_run (.inr ⟨⟨"a\x7bb:c;d\x7be:f\x7d\x7d".toList, none⟩, .strict, rfl⟩)
    [.prepend 1 3] (by decide)⟩

end Stylesheet
