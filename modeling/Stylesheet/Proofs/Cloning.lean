import Stylesheet.Proofs.Arena
import Stylesheet.Proofs.Copies

/-!
# Copying node by node

`Document.copy` reads a tree as a forest and numbers it behind the end of a document. A copy can
also be made in the array of nodes alone: `Document.clone?` puts a copy without links behind the
nodes, clones the children of the node one after the other, lets each clone have the new node for
its parent as soon as it is there, and gives the new node its children last.

Along the way the document is `doc.extend added`, the old nodes with some new ones behind them.
`foldlM_cloneChild?` says what the children of a node add, by induction on the forest that their
links unfold to, and `clone?_of_run` that the two ways to copy lead to the same document.
-/

namespace Stylesheet

namespace Document

/-- `cloneChild? clone new made child` clones a child below the new node. `made` is the document
so far with the numbers of the children that are there already. -/
def cloneChild? (clone : Document → NodeId → Option (Document × NodeId)) (new : NodeId)
    (made : Document × List NodeId) (child : NodeId) : Option (Document × List NodeId) := do
  let (doc, copied) ← clone made.1 child
  let doc ← doc.modify? copied fun n ↦ { n with parent := some new }
  return (doc, made.2 ++ [copied])

/-- `clone? steps doc id` adds a detached copy of a node and of all that is below it, and computes
its number. It goes at most `steps` levels down, and is `none` if there are more of them or if a
number is no node of the document. -/
def clone? : Nat → Document → NodeId → Option (Document × NodeId)
  | 0, _, _ => none
  | steps + 1, doc, id => do
      let node ← doc.node? id
      let new := doc.size
      let doc := doc.add { node with parent := none, children := none }
      match node.children with
      | none => return (doc, new)
      | some children =>
          let (doc, copied) ← children.foldlM (cloneChild? (clone? steps) new) (doc, [])
          let doc ← doc.modify? new fun n ↦ { n with children := some copied }
          return (doc, new)

/-- `doc.extend added` has these nodes behind its own. -/
def extend (doc : Document) (added : List Node) : Document :=
  { doc with nodes := doc.nodes ++ added.toArray }

/-- `doc.renumber parent next f` lays the nodes of a forest out again, with numbers from `next`
on. It computes the nodes and the numbers of those at the top. -/
def renumber (doc : Document) (parent : Option NodeId) (next : NodeId) (f : Forest NodeId) :
    List Node × List NodeId :=
  (f.map doc.node).number parent next

variable {doc : Document} {id next : NodeId} {below : Forest NodeId}

/-! ## Nodes behind those of a document -/

@[simp] theorem size_extend (doc : Document) (added : List Node) :
    (doc.extend added).size = doc.size + added.length := by
  simp [extend, size]

@[simp] theorem extend_nil (doc : Document) : doc.extend [] = doc := by
  simp [extend]

theorem add_extend (doc : Document) (added : List Node) (node : Node) :
    (doc.extend added).add node = doc.extend (added ++ [node]) := by
  simp [extend, add]

/-- The old nodes stay in their places. -/
theorem node?_extend (hid : id < doc.size) (added : List Node) :
    (doc.extend added).node? id = some (doc.node id) := by
  rw [← node?_of_lt hid, node?, node?, extend, Array.getElem?_append_left hid]

/-- A new node is changed where it stands. -/
theorem modify?_extend (doc : Document) (before behind : List Node) (node : Node)
    (f : Node → Node) :
    (doc.extend (before ++ node :: behind)).modify? (doc.size + before.length) f =
      some (doc.extend (before ++ f node :: behind)) := by
  have hlist (before : List Node) :
      (before ++ node :: behind).modify before.length f = before ++ f node :: behind := by
    simp [List.modify_eq_take_cons_drop]
  have hnodes : (doc.nodes ++ (before ++ node :: behind).toArray).modify
      (doc.size + before.length) f = doc.nodes ++ (before ++ f node :: behind).toArray := by
    have h := hlist (doc.nodes.toList ++ before)
    rw [List.length_append, Array.length_toList, List.append_assoc, List.append_assoc] at h
    refine Array.toList_inj.mp ?_
    rw [Array.toList_modify, Array.toList_append, Array.toList_append]
    exact h
  rw [modify?_of_lt (by simp), modify]
  exact congrArg (fun nodes ↦ some (Document.mk nodes doc.source doc.mode doc.recoveries)) hnodes

/-! ## Trees laid out again -/

theorem renumber_cons (parent : Option NodeId) (rest : Forest NodeId) :
    doc.renumber parent next (.cons id below rest) =
      let (belowNodes, children) := doc.renumber (some next) (next + 1) below
      let (restNodes, tops) := doc.renumber parent (next + 1 + below.size) rest
      ((doc.node id).link parent children :: (belowNodes ++ restNodes), next :: tops) := by
  simp [renumber, Forest.map, Forest.number]

theorem length_renumber (parent : Option NodeId) (f : Forest NodeId) :
    (doc.renumber parent next f).1.length = f.size := by
  simp [renumber]

/-- A node without a block has nothing below it. -/
theorem Unfolds.eq_nil_of_children_eq_none (h : doc.Unfolds (doc.children id) below)
    (hnone : (doc.node id).children = none) : below = .nil := by
  have hchildren : doc.children id = [] := by simp [Document.children, Node.childList, hnone]
  rw [hchildren] at h
  cases h
  rfl

/-! ## Clones -/

section Tree

variable {steps : Nat} (hid : id < doc.size)
  (hleaf : (doc.node id).children = none → below = .nil)
  (hbelow : ∀ before new, (doc.children id).foldlM (cloneChild? (clone? steps) new)
      (doc.extend before, []) =
    let (nodes, tops) := doc.renumber (some new) (doc.size + before.length) below
    some (doc.extend (before ++ nodes), tops))

include hid hleaf hbelow

/-- A clone of a node is put behind the nodes without links. Its children are put behind it, and
it is linked to them. -/
theorem clone?_extend (before : List Node) :
    clone? (steps + 1) (doc.extend before) id =
      some (doc.extend (before ++ (doc.renumber none (doc.size + before.length)
        (.cons id below .nil)).1), doc.size + before.length) := by
  rw [clone?, node?_extend hid, Option.bind_eq_bind, Option.bind_some, add_extend, size_extend,
    renumber_cons]
  dsimp only
  cases hchildren : (doc.node id).children with
  | none =>
      rw [hleaf hchildren]
      simp [renumber, Forest.map, Forest.number, Node.link, hchildren]
  | some children =>
      have hlist : doc.children id = children := by
        simp [Document.children, Node.childList, hchildren]
      rw [hlist] at hbelow
      simp only [hbelow, Option.bind_eq_bind, Option.bind_some]
      rw [List.append_assoc, List.singleton_append, modify?_extend]
      simp [renumber, Forest.map, Forest.number, Node.link, hchildren, Nat.add_assoc]

/-- The clone of a child is given its parent. -/
theorem cloneChild?_extend (before : List Node) (new : NodeId) (copied : List NodeId) :
    cloneChild? (clone? (steps + 1)) new (doc.extend before, copied) id =
      some (doc.extend (before ++ (doc.renumber (some new) (doc.size + before.length)
        (.cons id below .nil)).1), copied ++ [doc.size + before.length]) := by
  rw [cloneChild?, clone?_extend hid hleaf hbelow, renumber_cons, renumber_cons]
  simp only [Option.bind_eq_bind, Option.bind_some]
  rw [modify?_extend]
  rfl

end Tree

/-- The clones of the children of a node stand one behind the other, and have it for their
parent. -/
theorem foldlM_cloneChild? {ids : List NodeId} {f : Forest NodeId} (h : doc.Unfolds ids f)
    (hids : ∀ id ∈ f.toList, id < doc.size) {steps : Nat} (hsteps : f.size ≤ steps)
    (before : List Node) (new : NodeId) (copied : List NodeId) :
    ids.foldlM (cloneChild? (clone? steps) new) (doc.extend before, copied) =
      let (nodes, tops) := doc.renumber (some new) (doc.size + before.length) f
      some (doc.extend (before ++ nodes), copied ++ tops) := by
  induction h generalizing steps before new copied with
  | nil => simp [renumber, Forest.map, Forest.number]
  | cons id ids below rest hunfolds _ ihBelow ihRest =>
      rw [Forest.toList, List.forall_mem_cons, List.forall_mem_append] at hids
      obtain ⟨hid, hbelow, hrest⟩ := hids
      rw [Forest.size] at hsteps
      obtain ⟨steps, rfl⟩ := Nat.exists_eq_succ_of_ne_zero (show steps ≠ 0 by omega)
      have hleaf := hunfolds.eq_nil_of_children_eq_none
      have hclones (before : List Node) (new : NodeId) :=
        ihBelow hbelow (show below.size ≤ steps by omega) before new []
      have hnext : doc.size + (before.length + (Forest.cons id below .nil).size) =
          doc.size + before.length + 1 + below.size := by
        rw [Forest.size, Forest.size]
        omega
      rw [List.foldlM_cons, cloneChild?_extend hid hleaf hclones, Option.bind_eq_bind,
        Option.bind_some, ihRest hrest (by omega), List.length_append, length_renumber, hnext]
      simp [renumber, Forest.map, Forest.number]

/-- Node by node the same copy is made as by numbering the tree. -/
theorem IsLinked.clone?_eq_copy (h : doc.IsLinked) (hid : id < doc.size) {steps : Nat}
    (hsteps : doc.size ≤ steps) : clone? steps doc id = some (doc.copy id, doc.size) := by
  have hsize := h.size_below_lt hid
  have hunfolds := h.unfolds_below id
  obtain ⟨steps, rfl⟩ := Nat.exists_eq_succ_of_ne_zero (show steps ≠ 0 by omega)
  have hids : ∀ other ∈ (doc.below id).toList, other < doc.size := fun other hother ↦
    (h.mem_below_iff.mp hother).lt_size
  have hclones (before : List Node) (new : NodeId) := foldlM_cloneChild? hunfolds hids
    (show (doc.below id).size ≤ steps by omega) before new []
  have hclone := clone?_extend hid hunfolds.eq_nil_of_children_eq_none hclones []
  rwa [extend_nil] at hclone

end Document

/-- In a document that any run of commands has made, every node can be copied node by node, and
the copy is the one that an edit adds. -/
theorem clone?_of_run {start : Document}
    (hstart : start = .empty ∨ ∃ source mode, parse source mode = .ok start)
    (commands : List Command) {id : NodeId} (hid : id < (Command.run commands start).size) :
    let doc := Command.run commands start
    ∃ new after, Document.clone? doc.size doc id = some (after, new) ∧
      (Edit.copy id).apply doc = (.ok new, after) :=
  ⟨_, _, (Command.isLinked_run (isLinked_of_start hstart) commands).clone?_eq_copy hid
    (Nat.le_refl _), Edit.apply_copy hid⟩

end Stylesheet
