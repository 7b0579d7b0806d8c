import Stylesheet.Document.Edit
import Stylesheet.Proofs.Forest

/-!
# Links between the nodes of a document

A link is recorded twice, as the parent of the child and among the children of the parent.
`Document.IsLinked` says that the two records agree and that every chain of parents ends. The
steps of an edit (`unlink`, `link`, `clear` and those that only change the layout) keep it, each
by a lemma on what it does to the parents and one on what it does to the children. Those that
change links only leave the nodes as they are otherwise (`Document.SameNodes`).
-/

namespace Stylesheet

namespace Document

/-- `doc.Ancestor above id` says that `above` is reached from a node by going from parent to
parent. -/
inductive Ancestor (doc : Document) : NodeId → NodeId → Prop where
  | parent {above id} (h : doc.parent id = some above) : Ancestor doc above id
  | up {above parent id} (h : doc.parent id = some parent) (habove : Ancestor doc above parent) :
      Ancestor doc above id

/-- The two records of each link of a document agree, and every chain of parents ends. -/
structure IsLinked (doc : Document) : Prop where
  mem_children_iff : ∀ {parent child},
    child ∈ doc.children parent ↔ doc.parent child = some parent
  nodup : ∀ id, (doc.children id).Nodup
  root : doc.parent root = none
  grounded : ∀ id, Acc (fun parent child ↦ doc.parent child = some parent) id

variable {doc : Document} {parent child id : NodeId}

/-! ## What the invariant says -/

theorem parent_of_size_le (h : doc.size ≤ id) : doc.parent id = none := by
  rw [Document.parent, node_of_size_le h]
  rfl

theorem children_of_size_le (h : doc.size ≤ id) : doc.children id = [] := by
  rw [children, node_of_size_le h]
  rfl

/-- Only nodes with a block have children. -/
theorem children_eq_nil_or_hasBlock (doc : Document) (id : NodeId) :
    doc.children id = [] ∨ (doc.node id).hasBlock = true := by
  cases hblock : (doc.node id).hasBlock with
  | true => exact .inr rfl
  | false =>
      rw [Node.hasBlock, Option.isSome_eq_false_iff, Option.isNone_iff_eq_none] at hblock
      rw [children, Node.childList, hblock]
      exact .inl rfl

theorem lt_size_of_parent (h : doc.parent child = some parent) : child < doc.size := by
  apply Nat.lt_of_not_le
  intro hle
  rw [parent_of_size_le hle] at h
  cases h

/-- A node with an ancestor is a node of the document. -/
theorem Ancestor.lt_size {above : NodeId} (h : doc.Ancestor above id) : id < doc.size := by
  cases h with
  | parent hparent => exact lt_size_of_parent hparent
  | up hparent _ => exact lt_size_of_parent hparent

namespace IsLinked

/-- Both ends of a link are nodes of the document. -/
theorem lt_size (h : doc.IsLinked) (hparent : doc.parent child = some parent) :
    parent < doc.size ∧ child < doc.size := by
  refine ⟨Nat.lt_of_not_le fun hle ↦ ?_, lt_size_of_parent hparent⟩
  have hmem := h.mem_children_iff.mpr hparent
  rw [children_of_size_le hle] at hmem
  cases hmem

/-- No node is its own ancestor. -/
theorem not_ancestor_self (h : doc.IsLinked) (id : NodeId) : ¬doc.Ancestor id id := by
  -- Both ends of the chain go up by one step, and `id` is as far from the end as its parent.
  have hacc := h.grounded id
  induction hacc with
  | intro id _ ih =>
      intro hself
      have hturn : ∀ {above id}, doc.Ancestor above id →
          ∀ {parent}, doc.parent above = some parent → doc.Ancestor parent id := by
        intro above id habove
        induction habove with
        | parent hparent => exact fun hup ↦ .up hparent (.parent hup)
        | up hparent _ ih => exact fun hup ↦ .up hparent (ih hup)
      cases hself with
      | parent hparent => exact ih id hparent (.parent hparent)
      | up hparent habove => exact ih _ hparent (hturn habove hparent)

/-- Every chain of parents ends at a node without a parent. -/
theorem exists_top (h : doc.IsLinked) (id : NodeId) :
    ∃ top, (top = id ∨ doc.Ancestor top id) ∧ doc.parent top = none := by
  induction h.grounded id with
  | intro id _ ih =>
      cases hparent : doc.parent id with
      | none => exact ⟨id, .inl rfl, hparent⟩
      | some parent =>
          obtain ⟨top, htop, hend⟩ := ih parent hparent
          refine ⟨top, .inr ?_, hend⟩
          rcases htop with rfl | htop
          · exact .parent hparent
          · exact .up hparent htop

end IsLinked

/-! ## The ancestors that are looked up -/

theorem ancestor_of_mem_climb {steps : Nat} {above : NodeId} (h : above ∈ doc.climb steps id) :
    doc.Ancestor above id := by
  induction steps generalizing id with
  | zero => cases h
  | succ steps ih =>
      simp only [climb] at h
      split at h
      · next parent hparent =>
          rcases List.mem_cons.mp h with rfl | h
          · exact .parent hparent
          · exact .up hparent (ih h)
      · cases h

/-- The ancestors that are looked up are different nodes of the document. -/
theorem IsLinked.nodup_climb (h : doc.IsLinked) (steps : Nat) (id : NodeId) :
    (doc.climb steps id).Nodup := by
  induction steps generalizing id with
  | zero => exact List.nodup_nil
  | succ steps ih =>
      simp only [climb]
      split
      · next parent hparent =>
          exact List.nodup_cons.mpr
            ⟨fun hmem ↦ h.not_ancestor_self parent (ancestor_of_mem_climb hmem), ih parent⟩
      · exact List.nodup_nil

theorem IsLinked.lt_size_of_ancestor (h : doc.IsLinked) {above : NodeId}
    (habove : doc.Ancestor above id) : above < doc.size := by
  induction habove with
  | parent hparent => exact (h.lt_size hparent).1
  | up _ _ ih => exact ih

/-- An ancestor is found, or as many other nodes as there are steps. -/
theorem mem_climb_of_ancestor {above : NodeId} (h : doc.Ancestor above id) (steps : Nat) :
    above ∈ doc.climb steps id ∨ (doc.climb steps id).length = steps := by
  induction h generalizing steps with
  | parent hparent =>
      cases steps with
      | zero => exact .inr rfl
      | succ steps => simp [climb, hparent]
  | up hparent _ ih =>
      cases steps with
      | zero => exact .inr rfl
      | succ steps =>
          simp only [climb, hparent, List.mem_cons, List.length_cons]
          rcases ih steps with h | h
          · exact .inl (.inr h)
          · exact .inr (by rw [h])

/-- A node of the document has fewer ancestors than there are nodes. -/
theorem IsLinked.length_climb_lt (h : doc.IsLinked) (steps : Nat) (hid : id < doc.size) :
    (doc.climb steps id).length < doc.size := by
  have hnodup : (id :: doc.climb steps id).Nodup :=
    List.nodup_cons.mpr ⟨fun hmem ↦ h.not_ancestor_self id (ancestor_of_mem_climb hmem),
      h.nodup_climb _ _⟩
  have hsubset : (id :: doc.climb steps id) ⊆ List.range doc.size := by
    intro other hother
    rw [List.mem_range]
    rcases List.mem_cons.mp hother with rfl | hother
    · exact hid
    · exact h.lt_size_of_ancestor (ancestor_of_mem_climb hother)
  have hle := hnodup.length_le_of_subset hsubset
  rwa [List.length_cons, List.length_range] at hle

/-- The bounded look-up finds all ancestors. -/
theorem IsLinked.mem_ancestors_iff (h : doc.IsLinked) {above : NodeId} :
    above ∈ doc.ancestors id ↔ doc.Ancestor above id := by
  refine ⟨ancestor_of_mem_climb, fun habove ↦ ?_⟩
  exact (mem_climb_of_ancestor habove doc.size).resolve_right
    (Nat.ne_of_lt (h.length_climb_lt doc.size habove.lt_size))

theorem isAttached_root (doc : Document) : doc.isAttached Document.root = true := by
  simp [isAttached]

/-- A node is attached if it is the root or below it. -/
theorem IsLinked.isAttached_iff (h : doc.IsLinked) :
    doc.isAttached id = true ↔ id = Document.root ∨ doc.Ancestor Document.root id := by
  rw [isAttached, Bool.or_eq_true, beq_iff_eq, List.contains_iff_mem, h.mem_ancestors_iff]

/-- The parent of an attached node is attached. -/
theorem IsLinked.isAttached_parent (h : doc.IsLinked) (hid : doc.isAttached id = true)
    (hparent : doc.parent id = some parent) : doc.isAttached parent = true := by
  rcases h.isAttached_iff.mp hid with rfl | habove
  · rw [h.root] at hparent
    cases hparent
  · refine h.isAttached_iff.mpr ?_
    cases habove with
    | parent hup => exact .inl (Option.some.inj (hparent.symm.trans hup))
    | up hup habove =>
        cases hparent.symm.trans hup
        exact .inr habove

/-- The children of an attached node are attached. -/
theorem IsLinked.isAttached_child (h : doc.IsLinked) (hid : doc.isAttached id = true)
    (hchild : child ∈ doc.children id) : doc.isAttached child = true := by
  have hparent := h.mem_children_iff.mp hchild
  refine h.isAttached_iff.mpr (.inr ?_)
  rcases h.isAttached_iff.mp hid with rfl | habove
  · exact .parent hparent
  · exact .up hparent habove

/-- Further steps find no more ancestors when there were steps to spare. -/
theorem climb_succ {steps : Nat} (h : (doc.climb steps id).length < steps) :
    doc.climb (steps + 1) id = doc.climb steps id := by
  induction steps generalizing id with
  | zero => cases h
  | succ steps ih =>
      cases hparent : doc.parent id with
      | none => simp only [climb, hparent]
      | some parent =>
          simp only [climb, hparent, List.length_cons, Nat.add_lt_add_iff_right] at h ih ⊢
          rw [ih h]

theorem IsLinked.ancestors_of_parent (h : doc.IsLinked) (hparent : doc.parent id = some parent) :
    doc.ancestors id = parent :: doc.ancestors parent := by
  have hid := lt_size_of_parent hparent
  obtain ⟨steps, hsize⟩ := Nat.exists_eq_add_one_of_ne_zero (Nat.ne_zero_of_lt hid)
  have hfirst : doc.climb (steps + 1) id = parent :: doc.climb steps parent := by
    rw [climb, hparent]
  -- The node itself takes one of the steps, and its parent does not need that one.
  have hspare := h.length_climb_lt (steps + 1) hid
  rw [hfirst, List.length_cons, hsize, Nat.add_lt_add_iff_right] at hspare
  rw [ancestors, ancestors, hsize, hfirst, climb_succ hspare]

theorem IsLinked.ancestors_root (h : doc.IsLinked) : doc.ancestors Document.root = [] := by
  rw [ancestors]
  cases doc.size with
  | zero => rfl
  | succ steps => rw [climb, h.root]

theorem IsLinked.top_root (h : doc.IsLinked) : doc.top Document.root = Document.root := by
  rw [top, h.ancestors_root]
  rfl

/-- A node is in the same tree as those above it. -/
theorem IsLinked.top_of_ancestor (h : doc.IsLinked) {above : NodeId}
    (habove : doc.Ancestor above id) : doc.top id = doc.top above := by
  have hstep {id parent : NodeId} (hparent : doc.parent id = some parent) :
      doc.top id = doc.top parent := by
    rw [top, h.ancestors_of_parent hparent, List.getLast?_cons]
    rfl
  induction habove with
  | parent hparent => exact hstep hparent
  | up hparent _ ih => exact (hstep hparent).trans ih

theorem IsLinked.hasBlock_of_ancestor (h : doc.IsLinked) {above : NodeId}
    (habove : doc.Ancestor above id) : (doc.node above).hasBlock = true := by
  induction habove with
  | parent hparent =>
      have hmem := h.mem_children_iff.mpr hparent
      exact (doc.children_eq_nil_or_hasBlock _).resolve_left (List.ne_nil_of_mem hmem)
  | up _ _ ih => exact ih

/-- The ancestors of a node depend on its parent and on theirs only. -/
theorem climb_congr {other : Document}
    (h : ∀ above, above = id ∨ doc.Ancestor above id → other.parent above = doc.parent above)
    (steps : Nat) : other.climb steps id = doc.climb steps id := by
  induction steps generalizing id with
  | zero => rfl
  | succ steps ih =>
      rw [climb, climb, h id (.inl rfl)]
      split
      · next parent hparent =>
          rw [ih fun above habove ↦ h above (.inr ?_)]
          rcases habove with rfl | habove
          · exact .parent hparent
          · exact .up hparent habove
      · rfl

/-! ## Changes that leave the links alone -/

/-- `doc.SameLinks other` says that the documents differ in what their nodes are at most, and not
in how these are linked. -/
structure SameLinks (doc other : Document) : Prop where
  size : other.size = doc.size
  parent : ∀ id, other.parent id = doc.parent id
  children : ∀ id, other.children id = doc.children id

namespace SameLinks

variable {other last : Document}

theorem refl (doc : Document) : doc.SameLinks doc := ⟨rfl, fun _ ↦ rfl, fun _ ↦ rfl⟩

theorem trans (h : doc.SameLinks other) (hlast : other.SameLinks last) : doc.SameLinks last :=
  ⟨hlast.size.trans h.size, fun id ↦ (hlast.parent id).trans (h.parent id),
    fun id ↦ (hlast.children id).trans (h.children id)⟩

theorem isLinked (h : doc.SameLinks other) (hdoc : doc.IsLinked) : other.IsLinked where
  mem_children_iff := by
    intro parent child
    rw [h.children, h.parent]
    exact hdoc.mem_children_iff
  nodup id := by
    rw [h.children]
    exact hdoc.nodup id
  root := (h.parent root).trans hdoc.root
  grounded id := by
    simp only [h.parent]
    exact hdoc.grounded id

end SameLinks

theorem parent_modify (doc : Document) (id other : NodeId) (f : Node → Node) :
    (doc.modify id f).parent other =
      if other = id ∧ id < doc.size then (f (doc.node id)).parent else doc.parent other := by
  rw [Document.parent, node_modify]
  split <;> rfl

theorem children_modify (doc : Document) (id other : NodeId) (f : Node → Node) :
    (doc.modify id f).children other =
      if other = id ∧ id < doc.size then (f (doc.node id)).childList else doc.children other := by
  rw [children, node_modify]
  split <;> rfl

/-- What a change of one node keeps of it, it keeps of all nodes. -/
theorem view_modify {α : Type} (view : Node → α) (doc : Document) (id other : NodeId)
    {f : Node → Node} (h : view (f (doc.node id)) = view (doc.node id)) :
    view ((doc.modify id f).node other) = view (doc.node other) := by
  rw [node_modify]
  split
  · next hother => rw [h, hother.1]
  · rfl

theorem parent_modify_of_eq (doc : Document) (id other : NodeId) {f : Node → Node}
    (h : (f (doc.node id)).parent = (doc.node id).parent) :
    (doc.modify id f).parent other = doc.parent other :=
  view_modify Node.parent doc id other h

theorem children_modify_of_eq (doc : Document) (id other : NodeId) {f : Node → Node}
    (h : (f (doc.node id)).childList = (doc.node id).childList) :
    (doc.modify id f).children other = doc.children other :=
  view_modify Node.childList doc id other h

/-- A change of one node that keeps its links keeps all links. -/
theorem sameLinks_modify (doc : Document) (id : NodeId) {f : Node → Node}
    (hparent : (f (doc.node id)).parent = (doc.node id).parent)
    (hchildren : (f (doc.node id)).childList = (doc.node id).childList) :
    doc.SameLinks (doc.modify id f) :=
  ⟨size_modify doc id f, fun other ↦ parent_modify_of_eq doc id other hparent,
    fun other ↦ children_modify_of_eq doc id other hchildren⟩

/-- A change of the layout keeps the links. -/
theorem sameLinks_mapRaws (doc : Document) (id : NodeId) (f : Raws → Raws) :
    doc.SameLinks (doc.modify id (Node.mapRaws f)) :=
  sameLinks_modify doc id rfl rfl

theorem sameLinks_foldl_mapRaws (doc : Document) (f : Raws → Raws) (ids : List NodeId) :
    doc.SameLinks (ids.foldl (fun doc id ↦ doc.modify id (Node.mapRaws f)) doc) := by
  induction ids generalizing doc with
  | nil => exact .refl doc
  | cons id ids ih => exact (sameLinks_mapRaws doc id f).trans (ih _)

theorem sameLinks_openBlock (doc : Document) (id : NodeId) :
    doc.SameLinks (doc.modify id Node.openBlock) :=
  sameLinks_modify doc id rfl rfl

theorem sameLinks_forgetLayout (doc : Document) (child old new : NodeId) :
    doc.SameLinks (doc.forgetLayout child old new) := by
  unfold forgetLayout
  split <;> exact sameLinks_foldl_mapRaws doc _ _

theorem sameLinks_cleanRaws (doc : Document) (id : NodeId) (keepBetween : Bool) :
    doc.SameLinks (doc.cleanRaws id keepBetween) :=
  sameLinks_foldl_mapRaws doc _ _

theorem sameLinks_recover (doc : Document) (recovery : Recovery) :
    doc.SameLinks (doc.recover recovery) := by
  have hrecord : doc.SameLinks { doc with recoveries := doc.recoveries ++ [recovery] } :=
    ⟨rfl, fun _ ↦ rfl, fun _ ↦ rfl⟩
  unfold recover
  split
  · exact hrecord.trans (sameLinks_mapRaws _ _ _)
  · exact hrecord

/-! ## Changes of links only -/

/-- `doc.SameNodes other` says that documents differ in the links of their nodes only. -/
def SameNodes (doc other : Document) : Prop :=
  ∀ id, (other.node id).unlinked = (doc.node id).unlinked

namespace SameNodes

variable {other last : Document}

theorem trans (h : doc.SameNodes other) (hlast : other.SameNodes last) : doc.SameNodes last :=
  fun id ↦ (hlast id).trans (h id)

theorem kind (h : doc.SameNodes other) (id : NodeId) :
    (other.node id).kind = (doc.node id).kind := by
  simpa using congrArg Node.kind (h id)

theorem raws (h : doc.SameNodes other) (id : NodeId) :
    (other.node id).raws = (doc.node id).raws := by
  simpa using congrArg Node.raws (h id)

end SameNodes

theorem sameNodes_modify (doc : Document) (id : NodeId) {f : Node → Node}
    (h : (f (doc.node id)).unlinked = (doc.node id).unlinked) : doc.SameNodes (doc.modify id f) :=
  fun other ↦ view_modify Node.unlinked doc id other h

/-! ## Taking a node out of its place -/

theorem sameNodes_unlink (doc : Document) (id : NodeId) : doc.SameNodes (doc.unlink id) := by
  unfold unlink
  split
  · exact fun _ ↦ rfl
  · refine (sameNodes_modify doc id rfl).trans (sameNodes_modify _ _ ?_)
    simp [Node.unlinked, Node.link, Function.comp_def]

theorem parent_unlink (doc : Document) (id other : NodeId) :
    (doc.unlink id).parent other = if other = id then none else doc.parent other := by
  unfold unlink
  split
  · next hnone =>
      split
      · next h => rw [h, hnone]
      · rfl
  · next hparent =>
      rw [parent_modify_of_eq, parent_modify]
      · simp [lt_size_of_parent hparent]
      · rfl

theorem children_unlink (doc : Document) (id other : NodeId) :
    (doc.unlink id).children other =
      if doc.parent id = some other then (doc.children other).filter (· ≠ id)
      else doc.children other := by
  unfold unlink
  split
  · next hnone => simp [hnone]
  · next parent hparent =>
      have hkept : (doc.modify id fun n ↦ { n with parent := none }).children other =
          doc.children other := children_modify_of_eq _ _ _ rfl
      have hfilter (n : Node) : Node.childList
          { n with children := n.children.map (·.filter (· ≠ id)) } =
            n.childList.filter (· ≠ id) := by
        cases h : n.children <;> simp [Node.childList, h]
      rw [children_modify, size_modify, hfilter, hkept, hparent]
      simp only [Option.some.injEq]
      by_cases h : parent = other
      · subst h
        by_cases hlt : parent < doc.size
        · rw [if_pos ⟨rfl, hlt⟩, if_pos rfl]
          exact congrArg (List.filter _) hkept
        · rw [if_neg (fun hcond ↦ hlt hcond.2), if_pos rfl,
            children_of_size_le (Nat.le_of_not_lt hlt)]
          rfl
      · rw [if_neg (fun hcond ↦ h hcond.1.symm), if_neg h]

@[simp] theorem size_unlink (doc : Document) (id : NodeId) : (doc.unlink id).size = doc.size := by
  unfold unlink
  split <;> simp

/-- A document with fewer links has no new chains of parents. -/
theorem grounded_of_parent {other : Document}
    (h : ∀ {parent child}, other.parent child = some parent → doc.parent child = some parent)
    (hacc : Acc (fun parent child ↦ doc.parent child = some parent) id) :
    Acc (fun parent child ↦ other.parent child = some parent) id := by
  induction hacc with
  | intro id _ ih => exact .intro id fun parent hparent ↦ ih parent (h hparent)

/-- A node that is taken out of its place is taken out of every list of children. -/
theorem IsLinked.children_unlink_eq (h : doc.IsLinked) (id other : NodeId) :
    (doc.unlink id).children other = (doc.children other).filter (· ≠ id) := by
  rw [children_unlink]
  split
  · rfl
  · next hparent =>
      refine (List.filter_eq_self.mpr fun child hchild ↦ decide_eq_true ?_).symm
      rintro rfl
      exact hparent (h.mem_children_iff.mp hchild)

theorem IsLinked.unlink (h : doc.IsLinked) (id : NodeId) : (doc.unlink id).IsLinked where
  mem_children_iff := by
    intro parent child
    rw [h.children_unlink_eq, parent_unlink, List.mem_filter, h.mem_children_iff]
    by_cases hchild : child = id <;> simp [hchild]
  nodup other := by
    rw [h.children_unlink_eq]
    exact (h.nodup other).filter _
  root := by
    rw [parent_unlink, h.root, ite_self]
  grounded other := by
    refine grounded_of_parent (fun {parent child} hparent ↦ ?_) (h.grounded other)
    rw [parent_unlink] at hparent
    split at hparent
    · cases hparent
    · exact hparent

/-! ## Putting a node into a place -/

theorem parent_link (doc : Document) (parent : NodeId) (index : Nat) (child other : NodeId) :
    (doc.link parent index child).parent other =
      if other = child ∧ child < doc.size then some parent else doc.parent other := by
  unfold link
  rw [parent_modify, size_modify, parent_modify_of_eq]
  rfl

theorem children_link (doc : Document) (parent : NodeId) (index : Nat) (child other : NodeId) :
    (doc.link parent index child).children other =
      if other = parent ∧ parent < doc.size then (doc.children parent).insertIdx index child
      else doc.children other := by
  unfold link
  rw [children_modify_of_eq, children_modify]
  · rfl
  · rfl

/-- A node without a parent can be put below another one that is not below itself. -/
theorem IsLinked.link (h : doc.IsLinked) {index : Nat} (hparent : parent < doc.size)
    (hchild : child < doc.size) (hroot : child ≠ Document.root) (hne : child ≠ parent)
    (hcycle : ¬doc.Ancestor child parent) (hdetached : doc.parent child = none)
    (hindex : index ≤ (doc.children parent).length) : (doc.link parent index child).IsLinked where
  mem_children_iff := by
    intro above below
    rw [children_link, parent_link]
    have hperm := List.perm_insertIdx child _ hindex
    by_cases hbelow : below = child
    · subst hbelow
      simp only [hchild, and_true, if_true, Option.some.injEq]
      split
      · next habove => simp [hperm.mem_iff, habove.1]
      · next habove =>
          rw [h.mem_children_iff, hdetached]
          exact ⟨nofun, fun heq ↦ absurd ⟨heq.symm, hparent⟩ habove⟩
    · simp only [hbelow, false_and, if_false]
      split
      · next habove => rw [hperm.mem_iff, List.mem_cons, habove.1, h.mem_children_iff,
          or_iff_right hbelow]
      · exact h.mem_children_iff
  nodup other := by
    rw [children_link]
    split
    · rw [(List.perm_insertIdx child _ hindex).nodup_iff, List.nodup_cons, h.mem_children_iff,
        hdetached]
      exact ⟨nofun, h.nodup parent⟩
    · exact h.nodup other
  root := by
    rw [parent_link, if_neg (fun hcond ↦ hroot hcond.1.symm), h.root]
  grounded other := by
    have hchanged : ∀ {id above}, (doc.link parent index child).parent id = some above →
        id = child ∧ above = parent ∨ doc.parent id = some above := by
      intro id above hid
      rw [parent_link] at hid
      split at hid
      · next hcond => exact .inl ⟨hcond.1, (Option.some.inj hid).symm⟩
      · exact .inr hid
    -- The chain from `parent` upwards does not meet `child`, so that it is the old one.
    have hupwards : ∀ id, id ≠ child → ¬doc.Ancestor child id →
        Acc (fun above below ↦ (doc.link parent index child).parent below = some above) id := by
      intro id hid habove
      induction h.grounded id with
      | intro id _ ih =>
          refine .intro id fun above hnew ↦ ?_
          rcases hchanged hnew with ⟨heq, _⟩ | hold
          · exact absurd heq hid
          · refine ih above hold ?_ fun hup ↦ habove (.up hold hup)
            rintro rfl
            exact habove (.parent hold)
    induction h.grounded other with
    | intro id _ ih =>
        refine .intro id fun above hnew ↦ ?_
        rcases hchanged hnew with ⟨_, rfl⟩ | hold
        · exact hupwards above hne.symm hcycle
        · exact ih above hold

/-! ## Releasing, clearing and adding nodes -/

@[simp] theorem size_release (doc : Document) (parent child : NodeId) :
    (doc.release parent child).size = doc.size := by
  unfold release
  split
  · rfl
  · rw [size_unlink]
    split
    · rfl
    · exact (sameLinks_forgetLayout doc _ _ _).size

/-- A node is released by taking it out of its place. The layout that it loses is no link. -/
theorem sameLinks_release (doc : Document) (parent child : NodeId) :
    (doc.unlink child).SameLinks (doc.release parent child) := by
  unfold release
  split
  · next hnone =>
      unfold unlink
      rw [hnone]
      exact .refl doc
  · next old hparent =>
      have hsame :
          doc.SameLinks (if old = parent then doc else doc.forgetLayout child old parent) := by
        split
        · exact .refl doc
        · exact sameLinks_forgetLayout doc _ _ _
      generalize (if old = parent then doc else doc.forgetLayout child old parent) =
        forgotten at hsame
      refine ⟨by simp [hsame.size], fun id ↦ ?_, fun id ↦ ?_⟩
      · rw [parent_unlink, parent_unlink, hsame.parent]
      · rw [children_unlink, children_unlink, hsame.parent, hsame.children]

theorem IsLinked.release (h : doc.IsLinked) (parent child : NodeId) :
    (doc.release parent child).IsLinked :=
  (sameLinks_release doc parent child).isLinked (h.unlink child)

theorem parent_release_self (doc : Document) (parent child : NodeId) :
    (doc.release parent child).parent child = none := by
  rw [(sameLinks_release doc parent child).parent, parent_unlink, if_pos rfl]

/-- Releasing a node makes no new ancestors. -/
theorem ancestor_of_release {above : NodeId} (h : (doc.release parent child).Ancestor above id) :
    doc.Ancestor above id := by
  have hparent : ∀ {above id}, (doc.release parent child).parent id = some above →
      doc.parent id = some above := by
    intro above id hid
    rw [(sameLinks_release doc parent child).parent, parent_unlink] at hid
    split at hid
    · cases hid
    · exact hid
  induction h with
  | parent h => exact .parent (hparent h)
  | up h _ ih => exact .up (hparent h) ih

/-- A node that is released leaves one place less among the children of its parent. -/
theorem IsLinked.length_children_release (h : doc.IsLinked) (parent child : NodeId) :
    ((doc.release parent child).children parent).length =
      (doc.children parent).length - if doc.parent child = some parent then 1 else 0 := by
  rw [(sameLinks_release doc parent child).children, children_unlink]
  split
  · next hparent =>
      have hmem := h.mem_children_iff.mpr hparent
      have herase : (doc.children parent).filter (· ≠ child) =
          (doc.children parent).erase child := by
        rw [(h.nodup parent).erase_eq_filter]
        apply List.filter_congr
        intro other _
        by_cases hother : other = child <;> simp [hother]
      rw [herase, List.length_erase_of_mem hmem]
  · rfl

/-- `doc.orphan ids` has no parents for these nodes. -/
def orphan (doc : Document) (ids : List NodeId) : Document :=
  ids.foldl (fun doc child ↦ doc.modify child fun n ↦ { n with parent := none }) doc

theorem parent_orphan (doc : Document) (ids : List NodeId) (other : NodeId) :
    (doc.orphan ids).parent other = if other ∈ ids then none else doc.parent other := by
  induction ids generalizing doc with
  | nil => simp [orphan]
  | cons child ids ih =>
      show (orphan (doc.modify child _) ids).parent other = _
      rw [ih, parent_modify]
      by_cases hids : other ∈ ids
      · simp [hids]
      · by_cases hchild : other = child
        · subst hchild
          by_cases hlt : other < doc.size
          · simp [hlt]
          · simp [hlt, parent_of_size_le (Nat.le_of_not_lt hlt)]
        · simp [hids, hchild]

theorem children_orphan (doc : Document) (ids : List NodeId) (other : NodeId) :
    (doc.orphan ids).children other = doc.children other := by
  induction ids generalizing doc with
  | nil => rfl
  | cons child ids ih =>
      show (orphan (doc.modify child _) ids).children other = _
      rw [ih, children_modify_of_eq]
      rfl

theorem parent_clear (doc : Document) (id other : NodeId) :
    (doc.clear id).parent other = if other ∈ doc.children id then none else doc.parent other := by
  unfold clear
  rw [parent_modify_of_eq]
  · exact parent_orphan doc _ other
  · rfl

theorem children_clear (doc : Document) (id other : NodeId) :
    (doc.clear id).children other = if other = id then [] else doc.children other := by
  have hempty (n : Node) :
      Node.childList { n with children := n.children.map fun _ ↦ [] } = [] := by
    cases n.children <;> simp [Node.childList]
  show ((doc.orphan (doc.children id)).modify id _).children other = _
  rw [children_modify, hempty, children_orphan]
  by_cases h : other = id
  · subst h
    by_cases hlt : other < (doc.orphan (doc.children other)).size
    · simp [hlt]
    · rw [← children_orphan doc (doc.children other), children_of_size_le (Nat.le_of_not_lt hlt)]
      simp
  · simp [h]

theorem IsLinked.clear (h : doc.IsLinked) (id : NodeId) : (doc.clear id).IsLinked where
  mem_children_iff := by
    intro above below
    rw [children_clear, parent_clear]
    by_cases habove : above = id
    · subst habove
      simp only [if_true, List.not_mem_nil, false_iff]
      split
      · exact nofun
      · next hmem => exact mt h.mem_children_iff.mpr hmem
    · rw [if_neg habove, h.mem_children_iff]
      split
      · next hmem =>
          rw [h.mem_children_iff.mp hmem]
          exact ⟨fun heq ↦ absurd (Option.some.inj heq).symm habove, nofun⟩
      · rfl
  nodup other := by
    rw [children_clear]
    split
    · exact List.nodup_nil
    · exact h.nodup other
  root := by rw [parent_clear, h.root, ite_self]
  grounded other := by
    refine grounded_of_parent (fun {parent child} hparent ↦ ?_) (h.grounded other)
    rw [parent_clear] at hparent
    split at hparent
    · cases hparent
    · exact hparent

end Document

end Stylesheet
