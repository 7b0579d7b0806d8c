import Stylesheet.Document.Numbering

/-!
# Forests in a document

`Forest.append` puts forests one behind the other, and `Forest.Each` says something of every tree
in a forest. `Document.Unfolds ids f` says that `f` is the forest that the links of a document
unfold to below the nodes `ids`. `below_eq_of_unfolds` says that the bounded look-up `below` finds
that forest, and `unfolds_ofForest` says that a document made from a tree unfolds to the tree
again, numbered from zero.
-/

namespace Stylesheet

namespace Forest

variable {α β : Type}

/-- `f.append g` has the trees of `g` behind those of `f`. -/
def append : Forest α → Forest α → Forest α
  | nil, g => g
  | cons value below rest, g => cons value below (rest.append g)

instance : Append (Forest α) := ⟨append⟩

@[simp] theorem nil_append (g : Forest α) : nil ++ g = g := rfl

@[simp] theorem cons_append (value : α) (below rest g : Forest α) :
    cons value below rest ++ g = cons value below (rest ++ g) := rfl

@[simp] theorem append_nil (f : Forest α) : f ++ nil = f := by
  induction f with
  | nil => rfl
  | cons value below rest _ ih => rw [cons_append, ih]

theorem append_assoc (f g h : Forest α) : f ++ g ++ h = f ++ (g ++ h) := by
  induction f with
  | nil => rfl
  | cons value below rest _ ih => rw [cons_append, cons_append, cons_append, ih]

theorem append_left_cancel {f g h : Forest α} (hfg : f ++ g = f ++ h) : g = h := by
  induction f with
  | nil => exact hfg
  | cons value below rest _ ih =>
      rw [cons_append, cons_append, cons.injEq] at hfg
      exact ih hfg.2.2

theorem tops_append (f g : Forest α) : (f ++ g).tops = f.tops ++ g.tops := by
  induction f with
  | nil => rfl
  | cons value below rest _ ih => rw [cons_append, tops, tops, ih, List.cons_append]

theorem mem_toList_of_mem_tops {f : Forest α} {value : α} (h : value ∈ f.tops) :
    value ∈ f.toList := by
  induction f with
  | nil => cases h
  | cons top below rest _ ihRest =>
      rcases List.mem_cons.mp h with rfl | h
      · exact List.mem_cons_self
      · exact List.mem_cons_of_mem _ (List.mem_append_right _ (ihRest h))

theorem map_append (k : α → β) (f g : Forest α) : (f ++ g).map k = f.map k ++ g.map k := by
  induction f with
  | nil => rfl
  | cons value below rest _ ih => rw [cons_append, map, map, ih, cons_append]

theorem tops_map (k : α → β) (f : Forest α) : (f.map k).tops = f.tops.map k := by
  induction f with
  | nil => rfl
  | cons value below rest _ ih => rw [map, tops, tops, ih, List.map_cons]

theorem map_map {γ : Type} (k : β → γ) (g : α → β) (f : Forest α) :
    (f.map g).map k = f.map (k ∘ g) := by
  induction f with
  | nil => rfl
  | cons value below rest ihBelow ihRest => rw [map, map, map, ihBelow, ihRest, Function.comp]

theorem map_eq_nil_iff {k : α → β} {f : Forest α} : f.map k = nil ↔ f = nil := by
  cases f <;> simp [map]

theorem map_ne_nil_of_mem {k : α → β} {f : Forest α} {value : α} (h : value ∈ f.toList) :
    f.map k ≠ nil := by
  intro hnil
  rw [map_eq_nil_iff.mp hnil] at h
  cases h

@[simp] theorem ofRev_nil : ofRev ([] : List (α × Forest α)) = nil := rfl

theorem ofRev_cons (tree : α × Forest α) (trees : List (α × Forest α)) :
    ofRev (tree :: trees) = ofRev trees ++ cons tree.1 tree.2 nil := by
  have hfold (rest : Forest α) : trees.foldl (fun rest tree ↦ cons tree.1 tree.2 rest) rest =
      ofRev trees ++ rest := by
    induction trees generalizing rest with
    | nil => rfl
    | cons t trees ih =>
        have hcons : ofRev (t :: trees) = ofRev trees ++ cons t.1 t.2 nil := ih _
        rw [List.foldl_cons, ih, hcons, append_assoc]
        rfl
  exact hfold _

theorem ofRev_eq_nil_iff {trees : List (α × Forest α)} : ofRev trees = nil ↔ trees = [] := by
  cases trees with
  | nil => simp
  | cons tree trees =>
      rw [ofRev_cons]
      cases ofRev trees <;> simp

/-! ## Properties of every tree -/

/-- `f.Each P` says that `P` holds of every node of the forest with the forest beneath it. -/
def Each (P : α → Forest α → Prop) : Forest α → Prop
  | nil => True
  | cons value below rest => P value below ∧ below.Each P ∧ rest.Each P

variable {P Q : α → Forest α → Prop}

theorem Each.imp (h : ∀ value below, P value below → Q value below) {f : Forest α}
    (hf : f.Each P) : f.Each Q := by
  induction f with
  | nil => trivial
  | cons value below rest ihBelow ihRest =>
      exact ⟨h _ _ hf.1, ihBelow hf.2.1, ihRest hf.2.2⟩

theorem each_append {f g : Forest α} : (f ++ g).Each P ↔ f.Each P ∧ g.Each P := by
  induction f with
  | nil => simp [Each]
  | cons value below rest _ ih => simp [Each, ih, and_assoc]

theorem each_ofRev_cons {tree : α × Forest α} {trees : List (α × Forest α)} :
    (ofRev (tree :: trees)).Each P ↔ (ofRev trees).Each P ∧ P tree.1 tree.2 ∧ tree.2.Each P := by
  rw [ofRev_cons, each_append]
  simp [Each]

theorem each_map {k : β → α} {f : Forest β} :
    (f.map k).Each P ↔ f.Each fun value below ↦ P (k value) (below.map k) := by
  induction f with
  | nil => simp [map, Each]
  | cons value below rest ihBelow ihRest => simp [map, Each, ihBelow, ihRest]

theorem Each.forall_mem {P : β → Prop} {k : α → β} {f : Forest α}
    (h : (f.map k).Each fun n _ ↦ P n) : ∀ value ∈ f.toList, P (k value) := by
  induction f with
  | nil => exact List.forall_mem_nil _
  | cons value below rest ihBelow ihRest =>
      obtain ⟨hvalue, hbelow, hrest⟩ := h
      exact List.forall_mem_cons.mpr
        ⟨hvalue, List.forall_mem_append.mpr ⟨ihBelow hbelow, ihRest hrest⟩⟩

/-! ## Height -/

/-- `f.height` is the number of nodes on the longest way down. -/
def height : Forest α → Nat
  | nil => 0
  | cons _ below rest => max (below.height + 1) rest.height

theorem height_le_size (f : Forest α) : f.height ≤ f.size := by
  induction f with
  | nil => exact Nat.le_refl 0
  | cons value below rest ihBelow ihRest =>
      simp only [height, size]
      omega

/-! ## Numbers -/

/-- `f.numbers next` has the numbers that the nodes of `f` get when they are laid out from `next`
on. -/
def numbers (next : NodeId) : Forest α → Forest NodeId
  | nil => nil
  | cons _ below rest =>
      cons next (below.numbers (next + 1)) (rest.numbers (next + 1 + below.size))

@[simp] theorem size_numbers (next : NodeId) (f : Forest α) :
    (f.numbers next).size = f.size := by
  induction f generalizing next with
  | nil => rfl
  | cons value below rest ihBelow ihRest => simp [numbers, size, ihBelow, ihRest]

/-- The numbers are consecutive in document order. -/
theorem toList_numbers (next : NodeId) (f : Forest α) :
    (f.numbers next).toList = List.range' next f.size := by
  induction f generalizing next with
  | nil => rfl
  | cons value below rest ihBelow ihRest =>
      rw [numbers, toList, ihBelow, ihRest, size, List.range'_append_1, List.range'_succ]

/-- `f.IsBlocked` says that every node with nodes below it has a block to hold them. -/
def IsBlocked (f : Forest Node) : Prop :=
  f.Each fun node below ↦ below = nil ∨ node.hasBlock = true

end Forest

/-- `n.unlinked` is the node without its links; only that it has a block is kept of them. -/
def Node.unlinked (n : Node) : Node := n.link none []

@[simp] theorem Node.unlinked_link (n : Node) (parent : Option NodeId) (children : List NodeId) :
    (n.link parent children).unlinked = n.unlinked := by
  simp [Node.unlinked, Node.link, Function.comp_def]

/-- A node that is linked to children has them, if it has a block to hold them. -/
theorem Node.childList_link {n : Node} {children : List NodeId} (parent : Option NodeId)
    (h : children = [] ∨ n.hasBlock = true) : (n.link parent children).childList = children := by
  rcases h with rfl | h
  · cases hchildren : n.children <;> simp [Node.link, Node.childList, hchildren]
  · obtain ⟨old, hold⟩ := Option.isSome_iff_exists.mp h
    simp [Node.link, Node.childList, hold]

@[simp] theorem Node.kind_unlinked (n : Node) : n.unlinked.kind = n.kind := rfl

@[simp] theorem Node.type_unlinked (n : Node) : n.unlinked.type = n.type := rfl

@[simp] theorem Node.raws_unlinked (n : Node) : n.unlinked.raws = n.raws := rfl

@[simp] theorem Node.origin_unlinked (n : Node) : n.unlinked.origin = n.origin := rfl

@[simp] theorem Node.hasBlock_unlinked (n : Node) : n.unlinked.hasBlock = n.hasBlock := by
  simp [Node.unlinked, Node.link, Node.hasBlock]

namespace Document

/-- `doc.Unfolds ids f` says that `f` has the nodes `ids` at its tops and, below each node, what
its children unfold to. -/
inductive Unfolds (doc : Document) : List NodeId → Forest NodeId → Prop where
  | nil : Unfolds doc [] .nil
  | cons (id ids below rest) :
      Unfolds doc (doc.children id) below →
      Unfolds doc ids rest →
      Unfolds doc (id :: ids) (.cons id below rest)

variable {doc : Document}

/-- The bounded look-up finds what the links unfold to, if the bound is not below its height. -/
theorem grow_eq_of_unfolds {ids : List NodeId} {f : Forest NodeId} (h : doc.Unfolds ids f)
    {depth : Nat} (hdepth : f.height ≤ depth) : doc.grow depth ids = f := by
  induction h generalizing depth with
  | nil => cases depth <;> rfl
  | cons id ids below rest _ _ ihBelow ihRest =>
      simp only [Forest.height, Nat.max_le] at hdepth
      obtain ⟨depth, rfl⟩ : ∃ d, depth = d + 1 := ⟨depth - 1, by omega⟩
      have hrest := ihRest hdepth.2
      rw [grow] at hrest ⊢
      rw [List.foldr_cons, hrest, ihBelow (by omega)]

theorem below_eq_of_unfolds {id : NodeId} {f : Forest NodeId}
    (h : doc.Unfolds (doc.children id) f) (hsize : f.size ≤ doc.size) : doc.below id = f :=
  grow_eq_of_unfolds h (Nat.le_trans f.height_le_size hsize)

/-! ## Documents made from a tree -/

theorem node_of_getElem? {nodes : List Node} {source : Source} {mode : Mode}
    {recoveries : List Recovery} {id : NodeId} {n : Node} (h : nodes[id]? = some n) :
    (Document.mk nodes.toArray source mode recoveries).node id = n := by
  simp [node, h]

/-- A document that has a laid-out forest among its nodes unfolds to the numbers of the forest,
and its nodes there are those of the forest but for their links. -/
theorem unfolds_number (source : Source) (mode : Mode) (recoveries : List Recovery)
    (before behind : List Node) (parent : Option NodeId) (f : Forest Node) (hf : f.IsBlocked) :
    let nodes := before ++ (f.number parent before.length).1 ++ behind
    let doc : Document := ⟨nodes.toArray, source, mode, recoveries⟩
    doc.Unfolds (f.number parent before.length).2 (f.numbers before.length) ∧
      ((f.numbers before.length).map doc.node).map Node.unlinked = f.map Node.unlinked := by
  induction f generalizing before behind parent with
  | nil => exact ⟨.nil, rfl⟩
  | cons n below rest ihBelow ihRest =>
      obtain ⟨hblock, hbelow, hrest⟩ := hf
      simp only [Forest.number]
      generalize hlinked : n.link parent (below.number (some before.length)
        (before.length + 1)).2 = linked
      -- The two smaller forests stand behind the node, each after what goes before it.
      have hB := ihBelow (before ++ [linked])
        ((rest.number parent (before.length + 1 + below.size)).1 ++ behind)
        (some before.length) hbelow
      have hR := ihRest (before ++ linked ::
        (below.number (some before.length) (before.length + 1)).1) behind parent hrest
      simp only [List.length_append, List.length_cons, List.length_nil, Forest.length_number,
        List.append_assoc, List.cons_append, List.nil_append, Nat.zero_add,
        Nat.add_right_comm before.length below.size, ← Nat.add_assoc] at hB hR ⊢
      generalize hdoc : Document.mk _ source mode recoveries = doc at hB hR ⊢
      have hnode : doc.node before.length = linked := by
        rw [← hdoc]
        exact node_of_getElem? (by simp)
      have hchildren : doc.children before.length =
          (below.number (some before.length) (before.length + 1)).2 := by
        rw [children, hnode, ← hlinked]
        apply Node.childList_link
        exact hblock.imp_left fun h ↦ by rw [h, Forest.tops_number_of_nil]
      refine ⟨.cons _ _ _ _ (hchildren ▸ hB.1) hR.1, ?_⟩
      simp only [Forest.numbers, Forest.map, hB.2, hR.2, hnode, ← hlinked, Node.unlinked_link]

/-- A document made from a tree unfolds to the numbers from one on below its root, and its nodes
are those of the tree but for their links. -/
theorem unfolds_ofForest (source : Source) (mode : Mode) {top : Node} {below : Forest Node}
    (hblock : below = .nil ∨ top.hasBlock = true) (hbelow : below.IsBlocked) :
    let doc := ofForest source mode (.cons top below .nil)
    doc.Unfolds (doc.children root) (below.numbers 1) ∧
      (doc.node root).unlinked = top.unlinked ∧
      ((below.numbers 1).map doc.node).map Node.unlinked = below.map Node.unlinked := by
  have h := unfolds_number source mode [] [] [] none
    (.cons top below .nil) ⟨hblock, hbelow, trivial⟩
  obtain ⟨hunfolds, hnodes⟩ := h
  simp only [List.length_nil, Forest.numbers, Forest.map, Forest.cons.injEq, List.nil_append,
    List.append_nil, Forest.tops_number_cons, Forest.tops_number_of_nil] at hunfolds hnodes
  cases hunfolds with
  | cons _ _ _ _ hchildren _ => exact ⟨hchildren, hnodes.1, hnodes.2.1⟩

end Document

end Stylesheet
