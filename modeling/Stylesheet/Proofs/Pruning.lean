import Stylesheet.Proofs.Blocks
import Stylesheet.Proofs.Readable

/-!
# What is left when nodes are removed

`Forest.Prunes` says that a forest is what is left of another one when some of its trees are taken
out. A run of removals prunes the forest below the root and changes nothing else in the nodes than
their links (`Document.Records.removeAll`), and what is left is recorded and read again as before
(`Forest.Prunes.each_isRecorded`, `Forest.Prunes.isReadable`).
-/

namespace Stylesheet

namespace Forest

variable {α β : Type}

/-- `g.Prunes f` says that `g` is what is left of `f` when some trees are taken out, each with all
that is below its top. -/
inductive Prunes : Forest α → Forest α → Prop where
  | nil : Prunes nil nil
  | keep (value : α) {below rest below' rest' : Forest α} (hbelow : Prunes below' below)
      (hrest : Prunes rest' rest) : Prunes (cons value below' rest') (cons value below rest)
  | drop (value : α) (below : Forest α) {rest rest' : Forest α} (hrest : Prunes rest' rest) :
      Prunes rest' (cons value below rest)

namespace Prunes

variable {f g h : Forest α}

theorem refl (f : Forest α) : Prunes f f := by
  induction f with
  | nil => exact .nil
  | cons value below rest ihBelow ihRest => exact .keep value ihBelow ihRest

theorem trans (hgf : Prunes g f) (hhg : Prunes h g) : Prunes h f := by
  induction hgf generalizing h with
  | nil => exact hhg
  | keep value _ _ ihBelow ihRest =>
      cases hhg with
      | keep _ hbelow hrest => exact .keep value (ihBelow hbelow) (ihRest hrest)
      | drop _ _ hrest => exact .drop value _ (ihRest hrest)
  | drop value below _ ih => exact .drop value below (ih hhg)

theorem map (k : α → β) (hgf : Prunes g f) : Prunes (g.map k) (f.map k) := by
  induction hgf with
  | nil => exact .nil
  | keep value _ _ ihBelow ihRest => exact .keep (k value) ihBelow ihRest
  | drop value below _ ih => exact .drop (k value) (below.map k) ih

theorem eq_nil (hgf : Prunes g Forest.nil) : g = Forest.nil := by
  cases hgf
  rfl

theorem size_le (hgf : Prunes g f) : g.size ≤ f.size := by
  induction hgf with
  | nil => exact Nat.le_refl 0
  | keep value _ _ ihBelow ihRest =>
      simp only [size]
      omega
  | drop value below _ ih =>
      simp only [size]
      omega

end Prunes

/-- `f.without id` is a forest without the trees that have `id` at their tops. -/
def without [DecidableEq α] (id : α) : Forest α → Forest α
  | nil => nil
  | cons value below rest =>
      if value = id then rest.without id else cons value (below.without id) (rest.without id)

theorem prunes_without [DecidableEq α] (id : α) (f : Forest α) : (f.without id).Prunes f := by
  induction f with
  | nil => exact .nil
  | cons value below rest ihBelow ihRest =>
      unfold without
      split
      · exact .drop value below ihRest
      · exact .keep value ihBelow ihRest

section Nodes

variable {f g : Forest Node}

/-- What is left has recorded how it is written. -/
theorem Prunes.each_isRecorded (hgf : Prunes g f) (h : f.Each Node.IsRecorded) :
    g.Each Node.IsRecorded := by
  induction hgf with
  | nil => trivial
  | keep n hbelow _ ihBelow ihRest =>
      obtain ⟨hn, hunder, hrest⟩ := h
      have hne {below below' : Forest Node} (hprunes : Prunes below' below)
          (hne : below' ≠ .nil) :
          below ≠ .nil := by
        rintro rfl
        exact hne hprunes.eq_nil
      exact ⟨⟨hn.before, hn.between, hn.edges, hn.afterName, hn.after,
        fun h ↦ hn.semicolon (hne hbelow h), fun h ↦ hn.block (hne hbelow h), hn.plain, hn.rule,
        hn.leaf⟩, ihBelow hunder, ihRest hrest⟩
  | drop n below _ ih => exact ih h.2.2

theorem Prunes.endsBefore (hgf : Prunes g f) (h : g.endsBefore = true) : f.endsBefore = true := by
  induction hgf with
  | nil => exact h
  | keep n _ _ _ ih =>
      simp only [Forest.endsBefore, tops, List.any_cons, Bool.or_eq_true] at h ih ⊢
      exact h.imp_right ih
  | drop n below _ ih =>
      simp only [Forest.endsBefore, tops, List.any_cons, Bool.or_eq_true] at h ih ⊢
      exact .inr (ih h)

/-- What is left is read again: a leaf that lacks its semicolon already did before. -/
theorem Prunes.isReadable (hgf : Prunes g f) {semicolon : Bool} (h : f.IsReadable semicolon) :
    g.IsReadable semicolon := by
  induction hgf generalizing semicolon with
  | nil => trivial
  | keep n _ hrest ihBelow ihRest =>
      obtain ⟨hn, hbelow, hbehind⟩ := h
      refine ⟨hn.weaken fun hends ↦ ?_, ihBelow hbelow, ihRest hbehind⟩
      rw [Bool.or_eq_true] at hends ⊢
      exact hends.imp_left hrest.endsBefore
  | drop n below _ ih => exact ih h.2.2

/-- The links between nodes are not part of how they are read again. -/
theorem isReadable_map_unlinked {semicolon : Bool} :
    (f.map Node.unlinked).IsReadable semicolon ↔ f.IsReadable semicolon := by
  have hnode (n : Node) (ended : Bool) : n.unlinked.IsReadable ended ↔ n.IsReadable ended := by
    have hcore : n.unlinked.core = n.core := by
      rw [Node.core, Node.core, Node.hasBlock_unlinked, Node.kind_unlinked]
    have hblock := n.hasBlock_unlinked
    constructor
    · intro h
      exact ⟨fun hn ↦ hcore ▸ h.opening (hblock.trans hn), fun hn ↦ h.trailer (hblock.trans hn),
        hcore ▸ h.comment, fun hn ↦ hcore ▸ h.leaf (hblock.trans hn),
        fun hn ↦ hcore ▸ h.last (hblock.trans hn)⟩
    · intro h
      exact ⟨fun hn ↦ hcore ▸ h.opening (hblock.symm.trans hn),
        fun hn ↦ h.trailer (hblock.symm.trans hn), hcore ▸ h.comment,
        fun hn ↦ hcore ▸ h.leaf (hblock.symm.trans hn),
        fun hn ↦ hcore ▸ h.last (hblock.symm.trans hn)⟩
  induction f generalizing semicolon with
  | nil => exact Iff.rfl
  | cons n below rest ihBelow ihRest =>
      refine and_congr ?_ (and_congr ihBelow ihRest)
      rw [endsBefore_map_unlinked]
      exact hnode n _

end Nodes

end Forest

/-! ## Taking a node out of its place -/

namespace Document

variable {doc : Document} {f : Forest NodeId}

/-- Taking a node out of its place takes its tree out of what the links unfold to. -/
theorem Unfolds.unlink (hlinked : doc.IsLinked) (id : NodeId) {ids : List NodeId}
    (h : doc.Unfolds ids f) : (doc.unlink id).Unfolds (ids.filter (· ≠ id)) (f.without id) := by
  induction h with
  | nil => exact .nil
  | cons first ids below rest _ _ ihBelow ihRest =>
      rw [Forest.without]
      split
      · next hfirst =>
          rw [List.filter_cons_of_neg (by simpa using hfirst)]
          exact ihRest
      · next hfirst =>
          rw [List.filter_cons_of_pos (by simpa using hfirst)]
          rw [← hlinked.children_unlink_eq] at ihBelow
          exact .cons _ _ _ _ ihBelow ihRest

theorem SameNodes.map_unlinked {other : Document} (h : doc.SameNodes other) (f : Forest NodeId) :
    (f.map other.node).map Node.unlinked = (f.map doc.node).map Node.unlinked := by
  rw [Forest.map_map, Forest.map_map]
  exact congrArg (f.map ·) (funext h)

/-- A document from which a tree is taken out records the trees that are left. -/
theorem Records.unlink (h : doc.Records f) (hlinked : doc.IsLinked) (id : NodeId) :
    (doc.unlink id).Records (f.without id) := by
  have hsame := doc.sameNodes_unlink id
  have hprunes := Forest.prunes_without id f
  refine ⟨?_, ?_, ?_, ?_, fun hne ↦ ?_⟩
  · rw [hlinked.children_unlink_eq]
    exact h.unfolds.unlink hlinked id
  · rw [size_unlink]
    exact Nat.le_trans hprunes.size_le h.size
  · rw [← h.kind]
    exact hsame.kind root
  · rw [← Forest.each_isRecorded_map_unlinked, hsame.map_unlinked,
      Forest.each_isRecorded_map_unlinked]
    exact (hprunes.map doc.node).each_isRecorded h.nodes
  · rw [hsame.raws]
    refine h.semicolon ?_
    rintro rfl
    exact hne rfl

/-! ## Runs of removals -/

theorem after_remove (doc : Document) (id : NodeId) :
    (Command.remove id).after doc = doc ∨ (Command.remove id).after doc = doc.unlink id := by
  have h : (Edit.remove id).Yields doc (· = doc) fun _ after ↦ after = doc.unlink id := by
    apply Edit.yields_bind
    refine Edit.yields_require ?_ fun _ ↦ ?_
    · rfl
    dsimp only
    split
    · exact Edit.yields_bind (Edit.yields_throw (by rfl))
    · exact Edit.yields_modify rfl
  unfold Edit.Yields at h
  show ((Edit.remove id).apply doc).2 = doc ∨ ((Edit.remove id).apply doc).2 = doc.unlink id
  rcases hresult : (Edit.remove id).apply doc with ⟨_ | _, after⟩ <;> rw [hresult] at h
  · exact .inl h
  · exact .inr h

/-- `doc.removing ids` is a document behind the removals of some nodes. -/
def removing (doc : Document) (ids : List NodeId) : Document :=
  Command.run (ids.map .remove) doc

/-- Behind a run of removals a document records what is left of its trees. -/
theorem Records.removing (h : doc.Records f) (hlinked : doc.IsLinked) (ids : List NodeId) :
    ∃ g, (doc.removing ids).Records g ∧ g.Prunes f ∧ doc.SameNodes (doc.removing ids) := by
  induction ids generalizing doc f with
  | nil => exact ⟨f, h, .refl f, fun _ ↦ rfl⟩
  | cons id ids ih =>
      have hafter := Command.isLinked_after hlinked (.remove id)
      show ∃ g, (((Command.remove id).after doc).removing ids).Records g ∧ g.Prunes f ∧
        doc.SameNodes (((Command.remove id).after doc).removing ids)
      rcases doc.after_remove id with hdoc | hdoc <;> rw [hdoc] at hafter ⊢
      · exact ih h hlinked
      · obtain ⟨g, hg, hprunes, hsame⟩ := ih (h.unlink hlinked id) hafter
        exact ⟨g, hg, (Forest.prunes_without id f).trans hprunes,
          (doc.sameNodes_unlink id).trans hsame⟩

end Document

end Stylesheet
