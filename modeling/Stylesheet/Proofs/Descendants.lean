import Stylesheet.Proofs.Links

/-!
# The forest below a node

`Document.below` follows the links of a document down to a bounded depth. In a linked document it
finds all nodes below a node (`mem_below_iff`), and it lists none of them twice (`nodup_below`):
the ancestors of a node form a single chain, so that it is below one child of a node only.
-/

namespace Stylesheet

namespace Document

variable {doc : Document} {above id : NodeId}

/-! ## Chains of ancestors -/

theorem Ancestor.trans {first second third : NodeId} (h : doc.Ancestor first second)
    (hup : doc.Ancestor second third) : doc.Ancestor first third := by
  induction hup with
  | parent hparent => exact .up hparent h
  | up hparent _ ih => exact .up hparent ih

/-- What is above a node is its parent or above its parent. -/
theorem Ancestor.of_parent {parent : NodeId} (h : doc.Ancestor above id)
    (hparent : doc.parent id = some parent) : above = parent ∨ doc.Ancestor above parent := by
  cases h with
  | parent hup =>
      rw [hparent] at hup
      exact .inl (Option.some.inj hup).symm
  | up hup habove =>
      rw [hparent] at hup
      cases hup
      exact .inr habove

theorem Ancestor.exists_parent (h : doc.Ancestor above id) :
    ∃ parent, doc.parent id = some parent ∧ (above = parent ∨ doc.Ancestor above parent) := by
  cases h with
  | parent hparent => exact ⟨above, hparent, .inl rfl⟩
  | up hparent habove => exact ⟨_, hparent, .inr habove⟩

namespace IsLinked

variable (h : doc.IsLinked)
include h

/-- Of two children of a node, none is above the other one. -/
theorem not_ancestor_sibling {parent first second : NodeId}
    (hfirst : doc.parent first = some parent) (hsecond : doc.parent second = some parent) :
    ¬doc.Ancestor first second := by
  intro habove
  have hparent : doc.Ancestor first parent → False := fun hup ↦
    h.not_ancestor_self parent (Ancestor.trans (.parent hfirst) hup)
  rcases habove.of_parent hsecond with heq | hup
  · rw [heq] at hfirst
    exact h.not_ancestor_self parent (.parent hfirst)
  · exact hparent hup

/-- A node is, or is below, one child of a node only. -/
theorem eq_of_siblings {parent first second : NodeId} (hfirst : doc.parent first = some parent)
    (hsecond : doc.parent second = some parent) (hid : id = first ∨ doc.Ancestor first id)
    (hid' : id = second ∨ doc.Ancestor second id) : first = second := by
  rcases hid with rfl | hbelow
  · rcases hid' with rfl | hbelow'
    · rfl
    · exact absurd hbelow' (h.not_ancestor_sibling hsecond hfirst)
  · -- The two chains share each step up from `id` until one of them ends.
    induction hbelow with
    | parent hup =>
        rcases hid' with rfl | hbelow'
        · exact absurd (.parent hup) (h.not_ancestor_sibling hfirst hsecond)
        · rcases hbelow'.of_parent hup with heq | hbelow'
          · exact heq.symm
          · exact absurd hbelow' (h.not_ancestor_sibling hsecond hfirst)
    | up hup habove ih =>
        rcases hid' with rfl | hbelow'
        · exact absurd (.up hup habove) (h.not_ancestor_sibling hfirst hsecond)
        · refine ih ?_
          rcases hbelow'.of_parent hup with heq | hbelow'
          · exact .inl heq.symm
          · exact .inr hbelow'

end IsLinked

/-! ## Growing -/

theorem mem_grow_succ {depth : Nat} {ids : List NodeId} :
    id ∈ (doc.grow (depth + 1) ids).toList ↔
      ∃ top ∈ ids, id = top ∨ id ∈ (doc.grow depth (doc.children top)).toList := by
  induction ids with
  | nil => simp [grow, Forest.toList]
  | cons top ids ih =>
      rw [grow] at ih ⊢
      simp only [List.foldr_cons, Forest.toList, List.mem_cons, List.mem_append, ih,
        or_and_right, exists_or, exists_eq_left, or_assoc]

/-- A child of what is found is found one level deeper. -/
theorem mem_grow_of_mem_children {depth : Nat} {ids : List NodeId} {parent : NodeId}
    (hparent : parent ∈ (doc.grow depth ids).toList) (hid : id ∈ doc.children parent) :
    id ∈ (doc.grow (depth + 1) ids).toList := by
  induction depth generalizing ids with
  | zero => cases hparent
  | succ depth ih =>
      obtain ⟨top, htop, hfound⟩ := mem_grow_succ.mp hparent
      refine mem_grow_succ.mpr ⟨top, htop, .inr ?_⟩
      rcases hfound with rfl | hbelow
      · exact mem_grow_succ.mpr ⟨id, hid, .inl rfl⟩
      · exact ih hbelow

/-- What is found is below one of the nodes at the tops, or one of them. -/
theorem IsLinked.ancestor_of_mem_grow (h : doc.IsLinked) {depth : Nat} {ids : List NodeId}
    (hid : id ∈ (doc.grow depth ids).toList) : ∃ top ∈ ids, id = top ∨ doc.Ancestor top id := by
  induction depth generalizing ids with
  | zero => cases hid
  | succ depth ih =>
      obtain ⟨top, htop, hfound⟩ := mem_grow_succ.mp hid
      refine ⟨top, htop, hfound.imp_right fun hbelow ↦ ?_⟩
      obtain ⟨child, hchild, hdown⟩ := ih hbelow
      have hparent : doc.Ancestor top child := .parent (h.mem_children_iff.mp hchild)
      rcases hdown with rfl | hdown
      · exact hparent
      · exact hparent.trans hdown

/-- As many steps lead down to a node as lead up from it. -/
theorem IsLinked.mem_grow_of_mem_climb (h : doc.IsLinked) {steps : Nat}
    (habove : above ∈ doc.climb steps id) :
    id ∈ (doc.grow steps (doc.children above)).toList := by
  induction steps generalizing id with
  | zero => cases habove
  | succ steps ih =>
      simp only [climb] at habove
      split at habove
      · next parent hparent =>
          have hchild := h.mem_children_iff.mpr hparent
          rcases List.mem_cons.mp habove with rfl | habove
          · exact mem_grow_succ.mpr ⟨id, hchild, .inl rfl⟩
          · exact mem_grow_of_mem_children (ih habove) hchild
      · cases habove

/-- The bounded look-up finds all nodes below a node. -/
theorem IsLinked.mem_below_iff (h : doc.IsLinked) :
    id ∈ (doc.below above).toList ↔ doc.Ancestor above id := by
  constructor
  · intro hid
    obtain ⟨child, hchild, hdown⟩ := h.ancestor_of_mem_grow hid
    have hparent : doc.Ancestor above child := .parent (h.mem_children_iff.mp hchild)
    rcases hdown with rfl | hdown
    · exact hparent
    · exact hparent.trans hdown
  · intro habove
    exact h.mem_grow_of_mem_climb (h.mem_ancestors_iff.mpr habove)

/-- Children of one node are found with what is below them, and nothing is found twice. -/
theorem IsLinked.nodup_grow (h : doc.IsLinked) (depth : Nat) {parent : NodeId} {ids : List NodeId}
    (hids : ids.Nodup) (hparent : ∀ top ∈ ids, doc.parent top = some parent) :
    (doc.grow depth ids).toList.Nodup := by
  induction depth generalizing parent ids with
  | zero => exact List.nodup_nil
  | succ depth ih =>
      induction ids with
      | nil => exact List.nodup_nil
      | cons top ids ihIds =>
          obtain ⟨hnot, hrest⟩ := List.nodup_cons.mp hids
          obtain ⟨htop, htops⟩ := List.forall_mem_cons.mp hparent
          have hbelow := ih (h.nodup top) fun child hchild ↦ h.mem_children_iff.mp hchild
          have hdown {id : NodeId} (hid : id ∈ (doc.grow depth (doc.children top)).toList) :
              doc.Ancestor top id := by
            obtain ⟨child, hchild, hdown⟩ := h.ancestor_of_mem_grow hid
            have hup : doc.Ancestor top child := .parent (h.mem_children_iff.mp hchild)
            rcases hdown with rfl | hdown
            · exact hup
            · exact hup.trans hdown
          -- What is found below another child is not the first one, nor is it below that.
          have hapart {id : NodeId} (hid : id = top ∨ doc.Ancestor top id) :
              id ∉ (doc.grow (depth + 1) ids).toList := by
            intro hother
            obtain ⟨other, hmem, hfound⟩ := h.ancestor_of_mem_grow hother
            have heq := h.eq_of_siblings htop (htops other hmem) hid hfound
            rw [← heq] at hmem
            exact hnot hmem
          have ihIds := ihIds hrest htops
          rw [grow] at ihIds hapart ⊢
          show (top :: ((doc.grow depth (doc.children top)).toList ++ _)).Nodup
          refine List.nodup_cons.mpr ⟨fun hmem ↦ ?_, List.nodup_append.mpr ⟨hbelow, ihIds, ?_⟩⟩
          · rcases List.mem_append.mp hmem with hself | hself
            · exact h.not_ancestor_self top (hdown hself)
            · exact hapart (.inl rfl) hself
          · exact fun id hid other hother heq ↦ hapart (.inr (hdown hid)) (heq ▸ hother)

/-- No node is found twice below another one. -/
theorem IsLinked.nodup_below (h : doc.IsLinked) (above : NodeId) :
    (doc.below above).toList.Nodup :=
  h.nodup_grow doc.size (h.nodup above) fun _ hchild ↦ h.mem_children_iff.mp hchild

end Document

end Stylesheet
