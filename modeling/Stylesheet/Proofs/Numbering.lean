import Stylesheet.Proofs.Forest
import Stylesheet.Proofs.Links

/-!
# Links in a numbered forest

`Forest.number` lays out the nodes of a forest with consecutive numbers. `Document.LaidOut` says
of a range of numbers that the nodes there are linked as such a layout links them: parents have
smaller numbers than their children, and no link but those of the top nodes leaves the range. A
document stays linked when a layout is put behind its nodes (`IsLinked.append_number`), which is
how documents are made from a forest and how a part of a document is copied.
-/

namespace Stylesheet

namespace Document

/-- `doc.LaidOut parent tops start stop` says that the nodes from `start` up to `stop` are trees
whose top nodes are `tops`, in this order, and have the parent `parent`. -/
structure LaidOut (doc : Document) (parent : Option NodeId) (tops : List NodeId)
    (start stop : Nat) : Prop where
  le : start ≤ stop
  tops_range : ∀ t : Nat, t ∈ tops → start ≤ t ∧ t < stop
  tops_nodup : tops.Nodup
  tops_parent : ∀ t ∈ tops, doc.parent t = parent
  down : ∀ id child : Nat, start ≤ id → id < stop → child ∈ doc.children id →
    id < child ∧ child < stop ∧ doc.parent child = some id
  up : ∀ id : Nat, start ≤ id → id < stop → id ∈ tops ∨ ∃ above : Nat,
    start ≤ above ∧ above < id ∧ doc.parent id = some above ∧ id ∈ doc.children above
  nodup : ∀ id : Nat, start ≤ id → id < stop → (doc.children id).Nodup

variable {doc : Document} {parent : Option NodeId}

theorem LaidOut.nil (start : Nat) : doc.LaidOut parent [] start start where
  le := Nat.le_refl _
  tops_range := nofun
  tops_nodup := List.nodup_nil
  tops_parent := nofun
  down := by omega
  up := by omega
  nodup := by omega

/-- A node before the trees of its children, and before the trees behind it, is laid out with
them. -/
theorem LaidOut.cons {children tops : List NodeId} {start middle stop : Nat}
    (hparent : doc.parent start = parent) (hchildren : doc.children start = children)
    (hbelow : doc.LaidOut (some start) children (start + 1) middle)
    (hrest : doc.LaidOut parent tops middle stop) :
    doc.LaidOut parent (start :: tops) start stop := by
  have hle := hbelow.le
  have hle' := hrest.le
  refine ⟨by omega, ?_, ?_, ?_, ?_, ?_, ?_⟩
  · intro t ht
    rcases List.mem_cons.mp ht with rfl | ht
    · omega
    · have := hrest.tops_range t ht
      omega
  · refine List.nodup_cons.mpr ⟨fun hmem ↦ ?_, hrest.tops_nodup⟩
    have := hrest.tops_range start hmem
    omega
  · intro t ht
    rcases List.mem_cons.mp ht with rfl | ht
    · exact hparent
    · exact hrest.tops_parent t ht
  · intro id child hstart hstop hchild
    rcases Nat.lt_trichotomy id start with h | rfl | h
    · omega
    · rw [hchildren] at hchild
      have := hbelow.tops_range child hchild
      exact ⟨by omega, by omega, hbelow.tops_parent child hchild⟩
    · by_cases hmiddle : id < middle
      · obtain ⟨hlt, hmid, hup⟩ := hbelow.down id child h hmiddle hchild
        exact ⟨hlt, by omega, hup⟩
      · exact hrest.down id child (by omega) hstop hchild
  · intro id hstart hstop
    rcases Nat.lt_trichotomy id start with h | rfl | h
    · omega
    · exact .inl (by simp)
    · by_cases hmiddle : id < middle
      · rcases hbelow.up id h hmiddle with hmem | ⟨above, hge, hlt, hup⟩
        · exact .inr ⟨start, Nat.le_refl _, h, hbelow.tops_parent id hmem, hchildren ▸ hmem⟩
        · exact .inr ⟨above, by omega, hlt, hup⟩
      · rcases hrest.up id (by omega) hstop with hmem | ⟨above, hge, hlt, hup⟩
        · exact .inl (List.mem_cons_of_mem _ hmem)
        · exact .inr ⟨above, by omega, hlt, hup⟩
  · intro id hstart hstop
    rcases Nat.lt_trichotomy id start with h | rfl | h
    · omega
    · rw [hchildren]
      exact hbelow.tops_nodup
    · by_cases hmiddle : id < middle
      · exact hbelow.nodup id h hmiddle
      · exact hrest.nodup id (by omega) hstop

/-- A document that has a numbered forest among its nodes has it laid out there. -/
theorem laidOut_number (source : Source) (mode : Mode) (recoveries : List Recovery)
    (before behind : List Node) (parent : Option NodeId) (f : Forest Node) (hf : f.IsBlocked) :
    let nodes := before ++ (f.number parent before.length).1 ++ behind
    let doc : Document := ⟨nodes.toArray, source, mode, recoveries⟩
    doc.LaidOut parent (f.number parent before.length).2 before.length
      (before.length + f.size) := by
  induction f generalizing before behind parent with
  | nil => exact .nil _
  | cons n below rest ihBelow ihRest =>
      obtain ⟨hblock, hbelow, hrest⟩ := hf
      simp only [Forest.number]
      generalize hlinked : n.link parent (below.number (some before.length)
        (before.length + 1)).2 = linked
      -- The two smaller forests stand behind the node, each after what goes before it.
      have hB := ihBelow (before ++ [linked])
        ((rest.number parent (before.length + 1 + below.size)).1 ++ behind)
        (some before.length) hbelow
      have hR := ihRest (before ++ linked ::
        (below.number (some before.length) (before.length + 1)).1) behind parent hrest
      simp only [List.length_append, List.length_cons, List.length_nil, Forest.length_number,
        List.append_assoc, List.cons_append, List.nil_append, Nat.zero_add,
        Nat.add_right_comm before.length below.size, ← Nat.add_assoc] at hB hR ⊢
      generalize hdoc : Document.mk _ source mode recoveries = doc at hB hR ⊢
      have hnode : doc.node before.length = linked := by
        rw [← hdoc]
        exact node_of_getElem? (by simp)
      have hchildren : doc.children before.length =
          (below.number (some before.length) (before.length + 1)).2 := by
        rw [children, hnode, ← hlinked]
        apply Node.childList_link
        exact hblock.imp_left fun h ↦ by rw [h, Forest.tops_number_of_nil]
      have hparent : doc.parent before.length = parent := by
        rw [Document.parent, hnode, ← hlinked]
        rfl
      have hstop : before.length + (Forest.cons n below rest).size =
          before.length + 1 + below.size + rest.size := by
        rw [Forest.size]
        omega
      rw [hstop]
      exact .cons hparent hchildren hB hR

/-! ## Documents with a layout at their end -/

/-- A chain of parents from a node of a linked document ends in every document that keeps the
parents of its nodes. -/
theorem IsLinked.acc_parent {other : Document} (h : doc.IsLinked)
    (hparent : ∀ id : Nat, id < doc.size → other.parent id = doc.parent id) {id : Nat}
    (hid : id < doc.size) : Acc (fun parent child ↦ other.parent child = some parent) id := by
  induction h.grounded id with
  | intro id _ ih =>
      refine .intro id fun above hup ↦ ?_
      rw [hparent id hid] at hup
      exact ih above hup (h.lt_size hup).1

/-- The parent of a node of trees without a parent is one of their nodes, and it has a smaller
number. -/
theorem LaidOut.lt_of_parent {tops : List NodeId} {start : Nat}
    (h : doc.LaidOut none tops start doc.size) {id above : Nat} (hid : start ≤ id)
    (hup : doc.parent id = some above) :
    start ≤ above ∧ above < id ∧ id ∈ doc.children above := by
  rcases h.up id hid (lt_size_of_parent hup) with hmem | ⟨parent, hge, hless, hparent, hmem⟩
  · rw [h.tops_parent id hmem] at hup
    cases hup
  · rw [hparent] at hup
    cases hup
    exact ⟨hge, hless, hmem⟩

/-- A linked document stays linked when trees are laid out behind its nodes. -/
theorem IsLinked.of_laidOut {other : Document} (h : doc.IsLinked)
    (hold : ∀ id : Nat, id < doc.size → other.node id = doc.node id) (tops : List NodeId)
    (hlaid : other.LaidOut none tops doc.size other.size) : other.IsLinked := by
  have hparent : ∀ id : Nat, id < doc.size → other.parent id = doc.parent id := fun id hid ↦ by
    rw [Document.parent, Document.parent, hold id hid]
  have hchildren : ∀ id : Nat, id < doc.size → other.children id = doc.children id :=
    fun id hid ↦ by
    rw [children, children, hold id hid]
  refine ⟨?_, ?_, ?_, ?_⟩
  · intro above child
    constructor
    · intro hmem
      rcases Nat.lt_or_ge above doc.size with habove | habove
      · rw [hchildren above habove, h.mem_children_iff] at hmem
        rw [hparent child (h.lt_size hmem).2, hmem]
      · rcases Nat.lt_or_ge above other.size with hlt | hge
        · exact (hlaid.down above child habove hlt hmem).2.2
        · rw [children_of_size_le hge] at hmem
          cases hmem
    · intro hup
      rcases Nat.lt_or_ge child doc.size with hchild | hchild
      · rw [hparent child hchild] at hup
        rw [hchildren above (h.lt_size hup).1]
        exact h.mem_children_iff.mpr hup
      · exact (hlaid.lt_of_parent hchild hup).2.2
  · intro id
    rcases Nat.lt_or_ge id doc.size with hid | hid
    · rw [hchildren id hid]
      exact h.nodup id
    · rcases Nat.lt_or_ge id other.size with hlt | hge
      · exact hlaid.nodup id hid hlt
      · rw [children_of_size_le hge]
        exact List.nodup_nil
  · cases hroot : other.parent Document.root with
    | none => rfl
    | some above =>
        rcases Nat.lt_or_ge Document.root doc.size with hid | hid
        · rw [hparent Document.root hid, h.root] at hroot
          cases hroot
        · exact absurd (hlaid.lt_of_parent hid hroot).2.1 (Nat.not_lt_zero _)
  · -- From new nodes a chain goes down in number, and from old nodes it is the old one.
    intro id
    induction id using Nat.strongRecOn with
    | ind id ih =>
        rcases Nat.lt_or_ge id doc.size with hid | hid
        · exact h.acc_parent hparent hid
        · exact .intro id fun above hup ↦ ih above (hlaid.lt_of_parent hid hup).2.1

/-- A linked document stays linked when a forest is numbered behind its nodes. -/
theorem IsLinked.append_number (h : doc.IsLinked) {f : Forest Node} (hf : f.IsBlocked) :
    { doc with nodes := doc.nodes ++ (f.number none doc.size).1.toArray }.IsLinked := by
  obtain ⟨⟨nodes⟩, source, mode, recoveries⟩ := doc
  have hlaid := laidOut_number source mode recoveries nodes [] none f hf
  simp only [List.append_nil] at hlaid
  have hnodes : Array.mk nodes ++ (f.number none nodes.length).1.toArray =
      (nodes ++ (f.number none nodes.length).1).toArray := List.append_toArray ..
  refine h.of_laidOut (fun id hid ↦ ?_) (f.number none nodes.length).2 ?_
  · have hid : id < nodes.length := hid
    simp [node, List.getElem?_append, hid]
  · show LaidOut ⟨Array.mk nodes ++ (f.number none nodes.length).1.toArray, source,
      mode, recoveries⟩
      none _ nodes.length (size ⟨_, source, mode, recoveries⟩)
    rw [hnodes]
    simpa [size] using hlaid

/-- A document that has no nodes has no links. -/
theorem isLinked_of_size_eq_zero (h : doc.size = 0) : doc.IsLinked where
  mem_children_iff := by
    intro above child
    rw [children_of_size_le (by omega), parent_of_size_le (by omega)]
    exact ⟨nofun, nofun⟩
  nodup id := by
    rw [children_of_size_le (by omega)]
    exact List.nodup_nil
  root := parent_of_size_le (by omega)
  grounded id := .intro id fun above hup ↦ by
    rw [parent_of_size_le (by omega)] at hup
    cases hup

/-- A document that is made from a forest is linked. -/
theorem isLinked_ofForest (source : Source) (mode : Mode) {tree : Forest Node}
    (h : tree.IsBlocked) : (ofForest source mode tree).IsLinked := by
  have hempty : (Document.mk #[] source mode []).IsLinked := isLinked_of_size_eq_zero rfl
  have happend := hempty.append_number h
  simpa [ofForest, size] using happend

/-! ## Copies -/

/-- What is found below a node is below nodes that have a block. -/
theorem isBlocked_grow (doc : Document) (depth : Nat) (ids : List NodeId) :
    ((doc.grow depth ids).map doc.node).IsBlocked := by
  induction depth generalizing ids with
  | zero => trivial
  | succ depth ih =>
      induction ids with
      | nil => trivial
      | cons id ids ihIds =>
          refine ⟨(doc.children_eq_nil_or_hasBlock id).imp_left fun hchildren ↦ ?_, ih _, ihIds⟩
          rw [hchildren]
          cases depth <;> rfl

theorem isBlocked_treeAt (doc : Document) (id : NodeId) : (doc.treeAt id).IsBlocked := by
  have h := isBlocked_grow doc (doc.size + 1) [id]
  exact h

theorem IsLinked.copy (h : doc.IsLinked) (id : NodeId) : (doc.copy id).IsLinked :=
  h.append_number (isBlocked_treeAt doc id)

/-- A new node without links leaves a document linked. -/
theorem IsLinked.add (h : doc.IsLinked) (kind : Kind) :
    (doc.add (Node.ofKind kind)).IsLinked := by
  have hnode : (doc.add (Node.ofKind kind)).node doc.size = Node.ofKind kind := by
    rw [node_add, if_pos rfl]
  have hparent : (doc.add (Node.ofKind kind)).parent doc.size = none := by
    rw [Document.parent, hnode]
    rfl
  have hchildren : (doc.add (Node.ofKind kind)).children doc.size = [] := by
    rw [children, hnode, Node.ofKind, Node.childList]
    split <;> rfl
  refine h.of_laidOut (fun id hid ↦ ?_) [doc.size] ?_
  · rw [node_add, if_neg (Nat.ne_of_lt hid)]
  · rw [size_add]
    exact .cons hparent hchildren (.nil _) (.nil _)

end Document

end Stylesheet
