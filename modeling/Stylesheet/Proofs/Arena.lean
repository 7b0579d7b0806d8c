import Stylesheet.Proofs.Blocks
import Stylesheet.Proofs.Repairs
import Stylesheet.Text.Bytes

/-!
# The array of nodes of a document that is being read

Assembly holds the open containers of a document and, in each of them, the finished trees. A
reader that builds the document in place holds an array of nodes and numbers of nodes instead.
`Assembly.arena` is this array at every moment of assembly, and the `_arena` lemmas say what each
step of assembly does in it: a look-up or a change at one number, or one node more.

`Document.append?` puts a node behind the children of another one, as an edit does. It is `none`
if a number is no node of the document, if a difference is below zero, or if the edit is refused.
-/

namespace Stylesheet

namespace Document

/-! ## Look-ups and changes that can fail -/

/-- `doc.node? id` is the node of a number, or `none` if the document has no such node. -/
def node? (doc : Document) (id : NodeId) : Option Node :=
  doc.nodes[id]?

/-- `doc.modify? id f` changes the node of a number. -/
def modify? (doc : Document) (id : NodeId) (f : Node → Node) : Option Document :=
  (doc.node? id).map fun _ ↦ doc.modify id f

/-- `doc.recover? recovery` records a repair, also with the node that it names. -/
def recover? (doc : Document) (recovery : Recovery) : Option Document :=
  match recovery.node with
  | some id => (doc.node? id).map fun _ ↦ doc.recover recovery
  | none => some (doc.recover recovery)

/-- `doc.climb? steps id` are the ancestors of a node, the nearest first. -/
def climb? (doc : Document) : Nat → NodeId → Option (List NodeId)
  | 0, _ => none
  | steps + 1, id => do
      match (← doc.node? id).parent with
      | some parent => return parent :: (← doc.climb? steps parent)
      | none => return []

/-- `doc.insert? parent index child` puts a node without a parent at a place among the children of
`parent`. -/
def insert? (doc : Document) (parent : NodeId) (index : Nat) (child : NodeId) :
    Option Document := do
  let above ← doc.node? parent
  let node ← doc.node? child
  let ancestors ← doc.climb? (doc.size + 1) parent
  guard (above.kind.canContain = true ∧ child ≠ root ∧ node.type ≠ .root)
  guard (child ≠ parent ∧ child ∉ ancestors ∧ node.parent = none)
  let length ← difference? above.childList.length (if node.parent = some parent then 1 else 0)
  guard (index ≤ length)
  return doc.link parent index child

/-- `doc.append? parent child` puts a node without a parent behind the children of `parent`. -/
def append? (doc : Document) (parent child : NodeId) : Option Document := do
  let above ← doc.node? parent
  let node ← doc.node? child
  let length ← difference? above.childList.length (if node.parent = some parent then 1 else 0)
  doc.insert? parent length child

/-- `doc.push parent node` has one more node, the last child of `parent`. -/
def push (doc : Document) (parent : NodeId) (node : Node) : Document :=
  ((doc.add node).modify parent
    fun n ↦ { n with children := some (n.childList ++ [doc.size]) }).modify
    doc.size fun n ↦ { n with parent := some parent }

/-- `doc.Climbs id ancestors` says that the chain of parents of a node is `ancestors` and that
they are nodes of the document. -/
inductive Climbs (doc : Document) : NodeId → List NodeId → Prop where
  | top {id} (hid : id < doc.size) (h : doc.parent id = none) : Climbs doc id []
  | up {id parent ancestors} (hid : id < doc.size) (h : doc.parent id = some parent)
      (habove : Climbs doc parent ancestors) : Climbs doc id (parent :: ancestors)

variable {doc : Document} {id : NodeId}

theorem node?_of_lt (h : id < doc.size) : doc.node? id = some (doc.node id) := by
  have hget : doc.nodes[id]? = some doc.nodes[id] := Array.getElem?_eq_getElem h
  rw [node?, node, hget]
  rfl

theorem modify?_of_lt (h : id < doc.size) (f : Node → Node) :
    doc.modify? id f = some (doc.modify id f) := by
  rw [modify?, node?_of_lt h]
  rfl

theorem recover?_of_lt {recovery : Recovery} (h : ∀ id ∈ recovery.node, id < doc.size) :
    doc.recover? recovery = some (doc.recover recovery) := by
  unfold recover?
  split
  · next id hid => rw [node?_of_lt (h id hid), Option.map_some]
  · rfl

theorem Climbs.lt_size {ancestors : List NodeId} (h : doc.Climbs id ancestors) :
    ∀ above ∈ id :: ancestors, above < doc.size := by
  induction h with
  | top hid _ => exact List.forall_mem_singleton.mpr hid
  | up hid _ _ ih => exact List.forall_mem_cons.mpr ⟨hid, ih⟩

theorem Climbs.climb?_eq {ancestors : List NodeId} (h : doc.Climbs id ancestors) {steps : Nat}
    (hsteps : ancestors.length < steps) : doc.climb? steps id = some ancestors := by
  induction h generalizing steps with
  | top hid hparent =>
      obtain ⟨steps, rfl⟩ := Nat.exists_eq_succ_of_ne_zero (Nat.ne_zero_of_lt hsteps)
      rw [climb?, node?_of_lt hid]
      simp [show (doc.node _).parent = none from hparent]
  | up hid hparent _ ih =>
      obtain ⟨steps, rfl⟩ := Nat.exists_eq_succ_of_ne_zero (Nat.ne_zero_of_lt hsteps)
      rw [climb?, node?_of_lt hid]
      simp [show (doc.node _).parent = some _ from hparent, ih (Nat.lt_of_succ_lt_succ hsteps)]

/-- Documents in which the same nodes have the same parents have the same chains. -/
theorem Climbs.of_parent {other : Document} {ancestors : List NodeId}
    (h : doc.Climbs id ancestors) (hsize : doc.size ≤ other.size)
    (hparent : ∀ id < doc.size, other.parent id = doc.parent id) : other.Climbs id ancestors := by
  induction h with
  | top hid h => exact .top (Nat.lt_of_lt_of_le hid hsize) ((hparent _ hid).trans h)
  | up hid h _ ih => exact .up (Nat.lt_of_lt_of_le hid hsize) ((hparent _ hid).trans h) ih

/-- A change of one node depends on what it makes of that node. -/
theorem modify_congr {f g : Node → Node} (h : ∀ n, doc.node? id = some n → f n = g n) :
    doc.modify id f = doc.modify id g := by
  have hnodes : doc.nodes.modify id f = doc.nodes.modify id g := by
    refine Array.ext_getElem? fun i ↦ ?_
    rw [Array.getElem?_modify, Array.getElem?_modify]
    split
    · next heq =>
        subst heq
        exact Option.map_congr h
    · rfl
  rw [modify, modify, hnodes]

/-- Changes of two nodes, or changes of one that do not depend on each other, can be made in
either order. -/
theorem modify_comm (doc : Document) (i j : NodeId) {f g : Node → Node}
    (h : i = j → ∀ n, f (g n) = g (f n)) :
    (doc.modify j g).modify i f = (doc.modify i f).modify j g := by
  have hnodes : (doc.nodes.modify j g).modify i f = (doc.nodes.modify i f).modify j g := by
    refine Array.ext_getElem? fun k ↦ ?_
    simp only [Array.getElem?_modify]
    by_cases hi : i = k <;> by_cases hj : j = k <;> simp only [hi, hj, if_true, if_false]
    have hfg : f ∘ g = g ∘ f := funext (h (hi.trans hj.symm))
    rw [Option.map_map, Option.map_map, hfg]
  rw [modify, modify, modify, modify]
  exact congrArg (Document.mk · doc.source doc.mode doc.recoveries) hnodes

theorem modify_add {id : NodeId} (h : id < doc.size) (f : Node → Node) (node : Node) :
    (doc.add node).modify id f = (doc.modify id f).add node := by
  have hnodes : (doc.nodes.push node).modify id f = (doc.nodes.modify id f).push node := by
    refine Array.ext_getElem? fun k ↦ ?_
    simp only [Array.getElem?_modify, Array.getElem?_push, Array.size_modify]
    by_cases hk : k = doc.nodes.size
    · rw [if_neg (fun heq ↦ Nat.ne_of_lt h (heq.trans hk)), if_pos hk, if_pos hk]
    · rw [if_neg hk, if_neg hk]
  rw [modify, add, add, modify]
  exact congrArg (Document.mk · doc.source doc.mode doc.recoveries) hnodes

theorem modify_add_size (doc : Document) (f : Node → Node) (node : Node) :
    (doc.add node).modify doc.size f = doc.add (f node) := by
  have hnodes : (doc.nodes.push node).modify doc.size f = doc.nodes.push (f node) := by
    refine Array.ext_getElem? fun k ↦ ?_
    simp only [Array.getElem?_modify, Array.getElem?_push]
    by_cases hk : k = doc.nodes.size
    · rw [if_pos (show doc.size = k from hk.symm), if_pos hk, if_pos hk]
      rfl
    · rw [if_neg (show ¬doc.size = k from fun heq ↦ hk heq.symm), if_neg hk, if_neg hk]
  rw [modify, add, add]
  exact congrArg (Document.mk · doc.source doc.mode doc.recoveries) hnodes

/-- A change of a new node that leaves its parent alone can be made before it is added. -/
theorem modify_push {parent : NodeId} (h : parent < doc.size) (node : Node) {f : Node → Node}
    (hf : ∀ n : Node, f { n with parent := some parent } = { f n with parent := some parent }) :
    (doc.push parent node).modify doc.size f = doc.push parent (f node) := by
  rw [push, modify_comm _ _ _ fun _ ↦ hf, modify_comm _ _ _ fun heq ↦ absurd heq (Nat.ne_of_gt h),
    modify_add_size]
  rfl

/-- A new node can be put behind the children of a node that can have some. -/
theorem append?_add {parent : NodeId} {ancestors : List NodeId} {node : Node}
    (hcontain : (doc.node parent).kind.canContain = true) (hclimbs : doc.Climbs parent ancestors)
    (hlength : ancestors.length ≤ doc.size) (htype : node.type ≠ .root)
    (hparent : node.parent = none) :
    (doc.add node).append? parent doc.size = some (doc.push parent node) := by
  have hlt := hclimbs.lt_size
  have hlt' : parent < doc.size := hlt parent List.mem_cons_self
  have hold {id : NodeId} (h : id < doc.size) : (doc.add node).node id = doc.node id := by
    rw [node_add, if_neg (Nat.ne_of_lt h)]
  have hnew : (doc.add node).node doc.size = node := by rw [node_add, if_pos rfl]
  have hclimbs' : (doc.add node).Climbs parent ancestors :=
    hclimbs.of_parent (by rw [size_add]; exact Nat.le_succ _) fun id hid ↦ by
      rw [Document.parent, hold hid]
      rfl
  have hsteps : ancestors.length < (doc.add node).size + 1 := by
    rw [size_add]
    omega
  have hclimb := hclimbs'.climb?_eq hsteps
  have habove : (doc.add node).node? parent = some (doc.node parent) := by
    rw [node?_of_lt (size_add doc node ▸ Nat.lt_succ_of_lt hlt'), hold hlt']
  have hchild : (doc.add node).node? doc.size = some node := by
    rw [node?_of_lt (size_add doc node ▸ Nat.lt_succ_self doc.size), hnew]
  have hdifference : difference? (doc.node parent).childList.length 0 =
      some (doc.node parent).childList.length := difference?_of_le (Nat.zero_le _)
  have hcycle : doc.size ≠ parent ∧ doc.size ∉ ancestors ∧ node.parent = none :=
    ⟨Nat.ne_of_gt hlt', fun h ↦ Nat.lt_irrefl _ (hlt _ (List.mem_cons_of_mem _ h)), hparent⟩
  have hroot : (doc.node parent).kind.canContain = true ∧ doc.size ≠ root ∧ node.type ≠ .root :=
    ⟨hcontain, Nat.ne_zero_of_lt hlt', htype⟩
  have hlink : (doc.add node).link parent (doc.node parent).childList.length doc.size =
      doc.push parent node := by
    rw [link, push]
    congr 1
    refine modify_congr fun n hn ↦ ?_
    rw [Option.some.inj (hn.symm.trans habove), List.insertIdx_length_self]
  have hne : ¬node.parent = some parent := by
    rw [hparent]
    exact (Option.some_ne_none parent).symm
  have hguard {p : Prop} [Decidable p] (h : p) : (guard p : Option Unit) = some () := if_pos h
  rw [append?, habove, hchild]
  dsimp only [Option.bind_eq_bind, Option.bind_some]
  rw [if_neg hne, hdifference, Option.bind_some, insert?, habove, hchild, hclimb]
  dsimp only [Option.bind_eq_bind, Option.bind_some]
  rw [hguard hroot, Option.bind_some, hguard hcycle, Option.bind_some, if_neg hne, hdifference,
    Option.bind_some, hguard (Nat.le_refl _), hlink]
  rfl

end Document

/-! ## Changes behind a repair -/

/-- `n.harm damage` is the node with one more damage. -/
def Node.harm (damage : Damage) (n : Node) : Node :=
  n.mapRaws fun raws ↦ { raws with damage := raws.damage ++ [damage] }

/-- `IsLocal f` says that a change of nodes concerns neither their links nor their damage. -/
structure Node.IsLocal (f : Node → Node) : Prop where
  link : ∀ n parent children, f (n.link parent children) = (f n).link parent children
  harm : ∀ damage n, f (n.harm damage) = (f n).harm damage
  hasBlock : ∀ n, (f n).hasBlock = n.hasBlock
  kind : ∀ n, (f n).kind = n.kind

/-- A change of the layout that keeps the damage apart is local. -/
theorem Node.isLocal_mapRaws {f : Raws → Raws}
    (hf : ∀ raws damage, f { raws with damage := raws.damage ++ damage } =
      { f raws with damage := (f raws).damage ++ damage }) : Node.IsLocal (Node.mapRaws f) where
  link _ _ _ := rfl
  harm damage n := congrArg (fun raws ↦ { n with raws }) (hf n.raws [damage])
  hasBlock _ := rfl
  kind _ := rfl

theorem Node.isLocal_stopAt (stop : Position) : Node.IsLocal (Node.stopAt stop) :=
  ⟨fun _ _ _ ↦ rfl, fun _ _ ↦ rfl, fun _ ↦ rfl, fun _ ↦ rfl⟩

namespace Document

variable {doc : Document} {id : NodeId}

theorem recover_modify (doc : Document) (recovery : Recovery) (id : NodeId) {f : Node → Node}
    (hf : ∀ damage n, f (n.harm damage) = (f n).harm damage) :
    (doc.recover recovery).modify id f = (doc.modify id f).recover recovery := by
  unfold recover
  cases recovery.node with
  | none => rfl
  | some other => exact modify_comm _ id other fun _ ↦ hf recovery.damage

theorem recover_add (recovery : Recovery) (h : ∀ id ∈ recovery.node, id < doc.size)
    (node : Node) : (doc.recover recovery).add node = (doc.add node).recover recovery := by
  unfold recover
  cases hnode : recovery.node with
  | none => rfl
  | some other =>
      let noted : Document := { doc with recoveries := doc.recoveries ++ [recovery] }
      have hlt : other < noted.size := h other hnode
      exact (modify_add hlt (Node.harm recovery.damage) node).symm

theorem foldl_recover_modify (doc : Document) (recoveries : List Recovery) (id : NodeId)
    {f : Node → Node} (hf : ∀ damage n, f (n.harm damage) = (f n).harm damage) :
    (recoveries.foldl recover doc).modify id f = recoveries.foldl recover (doc.modify id f) := by
  induction recoveries generalizing doc with
  | nil => rfl
  | cons recovery recoveries ih =>
      rw [List.foldl_cons, ih, recover_modify doc recovery id hf]; rfl

theorem size_foldl_recover (doc : Document) (recoveries : List Recovery) :
    (recoveries.foldl recover doc).size = doc.size :=
  (Assembly.sameLinks_foldl_recover doc recoveries).size

/-- A new node is put behind the others whether or not these are damaged. -/
theorem foldl_recover_push {recoveries : List Recovery}
    (h : ∀ r ∈ recoveries, ∀ id ∈ r.node, id < doc.size) (parent : NodeId) (node : Node) :
    (recoveries.foldl recover doc).push parent node =
      recoveries.foldl recover (doc.push parent node) := by
  have hadd : (recoveries.foldl recover doc).add node =
      recoveries.foldl recover (doc.add node) := by
    induction recoveries generalizing doc with
    | nil => rfl
    | cons r recoveries ih =>
        obtain ⟨hr, hrest⟩ := List.forall_mem_cons.mp h
        rw [List.foldl_cons, ih fun r hmem ↦ (doc.sameLinks_recover _).size ▸ hrest r hmem,
          recover_add r hr]
        rfl
  rw [push, push, hadd, size_foldl_recover, foldl_recover_modify _ _ _ fun _ _ ↦ rfl,
    foldl_recover_modify _ _ _ fun _ _ ↦ rfl]

end Document

/-! ## Numbers of open containers -/

namespace Forest

/-- Forests one behind the other are laid out one behind the other. -/
theorem number_append (parent : Option NodeId) (next : NodeId) (f g : Forest Node) :
    number parent next (f ++ g) =
      ((number parent next f).1 ++ (number parent (next + f.size) g).1,
        (number parent next f).2 ++ (number parent (next + f.size) g).2) := by
  induction f generalizing next with
  | nil => rfl
  | cons node below rest _ ih =>
      have hnext (n : Nat) : n + 1 + below.size + rest.size =
          n + (cons node below rest).size := by
        rw [size]
        omega
      rw [cons_append, number, number, ih]
      simp only [hnext, List.cons_append, List.append_assoc]

/-- The last of several trees is laid out behind the others. -/
theorem number_ofRev_cons (parent : Option NodeId) (next : NodeId) (tree : Node × Forest Node)
    (trees : List (Node × Forest Node)) :
    let last := next + (ofRev trees).size
    let (below, children) := number (some last) (last + 1) tree.2
    number parent next (ofRev (tree :: trees)) =
      ((number parent next (ofRev trees)).1 ++ tree.1.link parent children :: below,
        (number parent next (ofRev trees)).2 ++ [last]) := by
  intro last
  rw [ofRev_cons, number_append]
  simp only [number, List.append_nil]
  rfl

end Forest

namespace Frame

/-- `f.below` are the nodes of the finished trees of a container, and their top nodes. -/
def below (f : Frame) : List Node × List NodeId :=
  (Forest.ofRev f.earlier).number (some f.id) (f.id + 1)

/-- `f.next` is the number behind those of a container and of the finished trees in it. -/
def next (f : Frame) : NodeId :=
  f.id + f.below.1.length + 1

/-- `layout inner frames` are the nodes of open containers, given from the innermost one on, and
of the trees that are finished in them, in document order. `inner` are further children of the
innermost one. -/
def layout (inner : List NodeId) : List Frame → List Node
  | [] => []
  | f :: outer =>
      layout [f.id] outer ++
        f.node.link (outer.head?.map (·.id)) (f.below.2 ++ inner) :: f.below.1

/-- `IsNumbered frames` says that open containers have the numbers that they get in document
order. -/
def IsNumbered : List Frame → Prop
  | [] => True
  | f :: outer => f.id = (layout [] outer).length ∧ IsNumbered outer

/-- Further children of the innermost container take no place of their own. -/
theorem length_layout (inner other : List NodeId) (frames : List Frame) :
    (layout inner frames).length = (layout other frames).length := by
  cases frames with
  | nil => rfl
  | cons f outer =>
      rw [layout, layout, List.length_append, List.length_append, List.length_cons,
        List.length_cons]

theorem length_le_length_layout (inner : List NodeId) (frames : List Frame) :
    frames.length ≤ (layout inner frames).length := by
  induction frames generalizing inner with
  | nil => exact Nat.le_refl 0
  | cons f outer ih =>
      have h := ih [f.id]
      rw [layout, List.length_append, List.length_cons, List.length_cons]
      omega

end Frame

/-! ## Changes at a place in the array -/

namespace Document

variable {before behind : List Node} {n : Node} {source : Source} {mode : Mode}
  {recoveries : List Recovery}

theorem modify_mk (f : Node → Node) :
    (Document.mk (before ++ n :: behind).toArray source mode recoveries).modify before.length f =
      Document.mk (before ++ f n :: behind).toArray source mode recoveries := by
  rw [modify, List.modify_toArray]
  simp [List.modify_eq_take_drop]

/-- A child that is put behind the others gets the next number. -/
theorem push_mk (node : Node) :
    (Document.mk (before ++ n :: behind).toArray source mode recoveries).push before.length node =
      Document.mk
      (before ++
        { n with children := some (n.childList ++ [before.length + 1 + behind.length]) } ::
        (behind ++ [{ node with parent := some before.length }])).toArray source mode
          recoveries := by
  have hsize : (Document.mk (before ++ n :: behind).toArray source mode recoveries).size =
      before.length + 1 + behind.length := by
    rw [size, List.size_toArray, List.length_append, List.length_cons]
    omega
  have hadd : (Document.mk (before ++ n :: behind).toArray source mode recoveries).add node =
      Document.mk (before ++ n :: (behind ++ [node])).toArray source mode recoveries := by
    rw [add, List.push_toArray, List.append_assoc, List.cons_append]
  have hlast (n : Node) (f : Node → Node) :
      (Document.mk (before ++ n :: (behind ++ [node])).toArray source mode recoveries).modify
          (before.length + 1 + behind.length) f =
        Document.mk (before ++ n :: (behind ++ [f node])).toArray source mode recoveries := by
    have h := @modify_mk (before ++ n :: behind) [] node source mode recoveries f
    rw [List.length_append, List.length_cons, List.append_assoc, List.append_assoc,
      List.cons_append, List.cons_append] at h
    rwa [Nat.add_assoc, Nat.add_comm 1]
  rw [push, hadd, hsize, modify_mk, hlast]

end Document

/-- A node with a block takes one more child at the end. -/
theorem Node.link_concat {n : Node} (hblock : n.hasBlock = true) (parent : Option NodeId)
    (children : List NodeId) (child : NodeId) :
    { n.link parent children with
        children := some ((n.link parent children).childList ++ [child]) } =
      n.link parent (children ++ [child]) := by
  rw [Node.childList_link parent (.inr hblock)]
  obtain ⟨old, hold⟩ := Option.isSome_iff_exists.mp hblock
  rw [link, link, hold]
  rfl

/-- A node without children is linked to its parent only. -/
theorem Node.link_nil {n : Node} (h : n.childList = []) (parent : Option NodeId) :
    n.link parent [] = { n with parent } := by
  cases hchildren : n.children with
  | none => rw [link, hchildren]; simp
  | some children =>
      have hnil : children = [] := by rwa [childList, hchildren] at h
      rw [link, hchildren, hnil]
      rfl

/-! ## Changes of open containers -/

namespace Frame

variable {f g : Frame} {outer : List Frame} {inner : List NodeId} {source : Source} {mode : Mode}
  {recoveries : List Recovery}

/-- The node of the innermost container stands behind those of the containers around it. -/
theorem IsNumbered.id_eq (h : IsNumbered (f :: outer)) (inner : List NodeId) :
    f.id = (layout inner outer).length :=
  h.1.trans (length_layout [] inner outer)

/-- A change of the innermost container is a change at its number. -/
theorem modify_layout (h : IsNumbered (f :: outer)) {change : Node → Node}
    (hchange : Node.IsLocal change) :
    (Document.mk (layout inner (f :: outer)).toArray source mode recoveries).modify f.id change =
      Document.mk (layout inner (f.mapNode change :: outer)).toArray source mode recoveries := by
  have hmodify := @Document.modify_mk (layout [f.id] outer) f.below.1
    (f.node.link (outer.head?.map (·.id)) (f.below.2 ++ inner)) source mode recoveries change
  rw [← h.id_eq, hchange.link] at hmodify
  exact hmodify

/-- A finished tree is laid out behind the others. -/
theorem below_adopt (f : Frame) (node : Node) (under : Forest Node) :
    let finished := under.number (some f.next) (f.next + 1)
    (f.adopt (node, under)).below =
      (f.below.1 ++ node.link (some f.id) finished.2 :: finished.1, f.below.2 ++ [f.next]) := by
  have hnext : f.id + 1 + (Forest.ofRev f.earlier).size = f.next := by
    have hlength : f.below.1.length = (Forest.ofRev f.earlier).size := Forest.length_number ..
    rw [next, hlength, Nat.add_assoc, Nat.add_comm 1]
    rfl
  have h := Forest.number_ofRev_cons (some f.id) (f.id + 1) (node, under) f.earlier
  simp only [hnext] at h
  exact h

theorem below_adopt_leaf (f : Frame) (node : Node) :
    (f.adopt (node, .nil)).below =
      (f.below.1 ++ [node.link (some f.id) []], f.below.2 ++ [f.next]) :=
  below_adopt f node .nil

/-- The next number is the one behind all nodes of open containers. -/
theorem IsNumbered.next_eq (h : IsNumbered (f :: outer)) (inner : List NodeId) :
    f.next = (layout inner (f :: outer)).length := by
  rw [next, layout, List.length_append, List.length_cons, ← h.id_eq]
  rfl

/-- The innermost container becomes a finished tree of the one around it without a change of any
node. -/
theorem layout_close (h : IsNumbered (f :: g :: outer)) :
    layout [] (g.adopt f.tree :: outer) = layout [] (f :: g :: outer) := by
  -- The container already has the number that the next finished tree gets.
  have hid : f.id = g.next := h.1.trans (h.2.next_eq []).symm
  have hbelow := below_adopt g f.node (Forest.ofRev f.earlier)
  rw [← hid] at hbelow
  rw [layout, layout, layout, tree, hbelow]
  simp only [List.append_nil, List.append_assoc, List.cons_append]
  rfl

/-- A child that is put behind the others of the innermost container is a finished tree of it. -/
theorem push_layout (h : IsNumbered (f :: outer)) (hblock : f.node.hasBlock = true) {node : Node}
    (hleaf : node.childList = []) :
    (Document.mk (layout [] (f :: outer)).toArray source mode recoveries).push f.id node =
      Document.mk (layout [] (f.adopt (node, .nil) :: outer)).toArray source mode recoveries := by
  have hpush := @Document.push_mk (layout [f.id] outer) f.below.1
    (f.node.link (outer.head?.map (·.id)) (f.below.2 ++ [])) source mode recoveries node
  have hnext : f.id + 1 + f.below.1.length = f.next := Nat.add_right_comm ..
  rw [← h.id_eq, Node.link_concat hblock, ← Node.link_nil hleaf, hnext, List.append_nil] at hpush
  rw [layout, layout, below_adopt_leaf, List.append_nil, List.append_nil]
  exact hpush

/-- A container that is opened is laid out as a finished node without children. -/
theorem layout_open (f : Frame) (outer : List Frame) (node : Node) :
    layout [] ({ id := f.next, node } :: f :: outer) =
      layout [] (f.adopt (node, .nil) :: outer) := by
  rw [layout, layout, layout, below_adopt_leaf, List.append_nil, List.append_nil,
    List.append_assoc]
  rfl

/-- The top node of the last finished tree stands behind the trees before it, whatever node it
is. -/
theorem exists_layout_last (h : IsNumbered (f :: outer)) (under : Forest Node) :
    ∃ before children behind, before.length = f.next ∧
      ∀ node : Node, layout [] (f.adopt (node, under) :: outer) =
        before ++ node.link (some f.id) children :: behind := by
  -- What stands on both sides of the node is given before the node is, as it does not depend on
  -- it.
  let finished := under.number (some f.next) (f.next + 1)
  let before := layout [f.id] outer ++
    f.node.link (outer.head?.map (·.id)) (f.below.2 ++ [f.next]) :: f.below.1
  refine ⟨before, finished.2, finished.1, ?_, fun node ↦ ?_⟩
  · rw [h.next_eq []]
    simp [before, layout]
  · rw [layout, below_adopt f node under, List.append_nil]
    exact (List.append_assoc (layout [f.id] outer) (_ :: f.below.1) (_ :: finished.1)).symm

/-- A change of the last finished tree is a change at its number. -/
theorem modify_layout_last (h : IsNumbered (f :: outer)) (node : Node) (under : Forest Node)
    {change : Node → Node} (hchange : Node.IsLocal change) :
    (Document.mk (layout [] (f.adopt (node, under) :: outer)).toArray source mode
      recoveries).modify f.next
        change =
      Document.mk (layout [] (f.adopt (change node, under) :: outer)).toArray source mode
      recoveries := by
  obtain ⟨before, children, behind, hlength, hlayout⟩ := exists_layout_last h under
  rw [hlayout, hlayout, ← hlength, Document.modify_mk, hchange.link]

theorem node_layout_last (h : IsNumbered (f :: outer)) (node : Node) (under : Forest Node) :
    ∃ children, (Document.mk (layout [] (f.adopt (node, under) :: outer)).toArray source mode
      recoveries).node f.next = node.link (some f.id) children := by
  obtain ⟨before, children, behind, hlength, hlayout⟩ := exists_layout_last h under
  refine ⟨children, ?_⟩
  rw [hlayout, ← hlength]
  exact Document.node_of_getElem? (by simp)

/-- The innermost container is linked to the one around it and to its own finished trees. -/
theorem node_layout (h : IsNumbered (f :: outer)) (behind : List Node) :
    (Document.mk (layout inner (f :: outer) ++ behind).toArray source mode recoveries).node f.id =
      f.node.link (outer.head?.map (·.id)) (f.below.2 ++ inner) := by
  refine Document.node_of_getElem? ?_
  rw [layout, List.append_assoc, List.getElem?_append_right (Nat.le_of_eq (h.id_eq _).symm),
    ← h.id_eq, Nat.sub_self]
  rfl

theorem lt_size_layout (h : IsNumbered (f :: outer)) (behind : List Node) :
    f.id <
      (Document.mk (layout inner (f :: outer) ++ behind).toArray source mode
        recoveries).size := by
  rw [Document.size, List.size_toArray, layout, List.append_assoc, List.length_append, ← h.id_eq]
  exact Nat.lt_add_of_pos_right (Nat.succ_pos _)

/-- The chain of parents of the innermost container goes through those around it. -/
theorem climbs_layout (h : IsNumbered (f :: outer)) (behind : List Node) :
    (Document.mk (layout inner (f :: outer) ++ behind).toArray source mode recoveries).Climbs f.id
      (outer.map (·.id)) := by
  -- Seen from a container further out, all of this one is part of what stands behind.
  induction outer generalizing f inner behind with
  | nil => exact .top (lt_size_layout h behind) (congrArg Node.parent (node_layout h behind))
  | cons g outer ih =>
      refine .up (lt_size_layout h behind) (congrArg Node.parent (node_layout h behind)) ?_
      rw [layout, List.append_assoc]
      exact ih h.2 _

end Frame

/-! ## The array of an assembly -/

namespace Assembly

/-- `a.layout` is the document as it has been read so far, without what is recorded of repairs. -/
def layout (a : Assembly) : Document :=
  ⟨(Frame.layout [] (a.current :: a.enclosing)).toArray, a.source, a.mode, []⟩

/-- `a.arena` is the document as it has been read so far. -/
def arena (a : Assembly) : Document :=
  a.recoveries.foldl Document.recover a.layout

/-- `a.IsArranged` says that the open containers of an assembly have the numbers of their nodes
and can have children, and that every repair belongs to a node. -/
structure IsArranged (a : Assembly) : Prop where
  numbered : Frame.IsNumbered (a.current :: a.enclosing)
  created : a.created = a.current.next
  container : ∀ f ∈ a.current :: a.enclosing, f.node.hasBlock = true ∧
    f.node.kind.canContain = true
  repairs : ∀ r ∈ a.recoveries, ∀ id ∈ r.node, id < a.created

variable {a : Assembly}

/-! ### What is found in it -/

@[simp] theorem source_arena (a : Assembly) : a.arena.source = a.source :=
  (Document.frame_foldl_recover _ _).1

@[simp] theorem mode_arena (a : Assembly) : a.arena.mode = a.mode :=
  (Document.frame_foldl_recover _ _).2

theorem IsArranged.size_layout (h : a.IsArranged) : a.layout.size = a.created := by
  rw [layout, Document.size, List.size_toArray, ← h.numbered.next_eq, h.created]

@[simp] theorem IsArranged.size_arena (h : a.IsArranged) : a.arena.size = a.created := by
  rw [arena, Document.size_foldl_recover, h.size_layout]

theorem IsArranged.current_lt (h : a.IsArranged) : a.current.id < a.created := by
  rw [h.created, Frame.next, Nat.add_assoc]
  exact Nat.lt_add_of_pos_right (Nat.succ_pos _)

/-- Every open container is a node of its own. -/
theorem IsArranged.length_enclosing_lt (h : a.IsArranged) : a.enclosing.length < a.created := by
  rw [h.created, h.numbered.next_eq []]
  exact Frame.length_le_length_layout [] (a.current :: a.enclosing)

theorem undamaged_arena (a : Assembly) (id : NodeId) :
    (a.arena.node id).undamaged = (a.layout.node id).undamaged :=
  Document.undamaged_foldl_recover a.layout a.recoveries id

theorem IsArranged.node_layout (h : a.IsArranged) : a.layout.node a.current.id =
    a.current.node.link (a.enclosing.head?.map (·.id)) a.current.below.2 := by
  have hnode := @Frame.node_layout a.current a.enclosing [] a.source a.mode [] h.numbered []
  rwa [List.append_nil, List.append_nil] at hnode

/-- The parent of the innermost container is the one around it. -/
theorem IsArranged.parent_arena (h : a.IsArranged) :
    (a.arena.node a.current.id).parent = a.enclosing.head?.map (·.id) := by
  have hnode := congrArg Node.parent (a.undamaged_arena a.current.id)
  rw [h.node_layout] at hnode
  exact hnode

theorem IsArranged.kind_arena (h : a.IsArranged) :
    (a.arena.node a.current.id).kind = a.current.node.kind := by
  have hnode := congrArg Node.kind (a.undamaged_arena a.current.id)
  rw [h.node_layout] at hnode
  exact hnode

/-- The children of the innermost container are the tops of its finished trees. -/
theorem IsArranged.childList_arena (h : a.IsArranged) :
    (a.arena.node a.current.id).childList = a.current.below.2 := by
  have hnode := congrArg Node.childList (a.undamaged_arena a.current.id)
  rw [h.node_layout] at hnode
  have hblock := (h.container a.current List.mem_cons_self).1
  exact hnode.trans (Node.childList_link (a.enclosing.head?.map (·.id)) (.inr hblock))

/-- The chain of parents of the innermost container goes through those around it. -/
theorem IsArranged.climbs_arena (h : a.IsArranged) :
    a.arena.Climbs a.current.id (a.enclosing.map (·.id)) := by
  have hclimbs := @Frame.climbs_layout a.current a.enclosing [] a.source a.mode [] h.numbered []
  rw [List.append_nil] at hclimbs
  have hlinks := sameLinks_foldl_recover a.layout a.recoveries
  exact hclimbs.of_parent (Nat.le_of_eq hlinks.size.symm) fun id _ ↦ hlinks.parent id

/-! ### What the steps do in it -/

/-- A change of the innermost container is a change at its number. -/
theorem IsArranged.modify_arena (h : a.IsArranged) {change : Node → Node}
    (hchange : Node.IsLocal change) :
    a.arena.modify a.current.id change =
      { a with current := a.current.mapNode change }.arena := by
  -- A repair only adds damage, so that it can be recorded behind the change.
  rw [arena, Document.foldl_recover_modify _ _ _ hchange.harm, layout,
    Frame.modify_layout h.numbered hchange]
  rfl

theorem IsArranged.mapNode (h : a.IsArranged) {change : Node → Node}
    (hchange : Node.IsLocal change) :
    { a with current := a.current.mapNode change }.IsArranged where
  numbered := h.numbered
  created := h.created
  container := by
    obtain ⟨hcurrent, houter⟩ := List.forall_mem_cons.mp h.container
    refine List.forall_mem_cons.mpr ⟨?_, houter⟩
    exact ⟨(hchange.hasBlock _).trans hcurrent.1,
      (congrArg Kind.canContain (hchange.kind _)).trans hcurrent.2⟩
  repairs := h.repairs

/-- A new leaf is the last child of the innermost container. -/
theorem IsArranged.push_arena (h : a.IsArranged) {node : Node} (hleaf : node.childList = [])
    (semicolon : Bool) : a.arena.push a.current.id node = (a.addLeaf node semicolon).arena := by
  -- No repair so far belongs to the new node.
  have hrepairs : ∀ r ∈ a.recoveries, ∀ id ∈ r.node, id < a.layout.size :=
    h.size_layout ▸ h.repairs
  rw [arena, Document.foldl_recover_push hrepairs, layout,
    Frame.push_layout h.numbered (h.container _ List.mem_cons_self).1 hleaf]
  rfl

/-- A new leaf can be put behind the children of the innermost container. -/
theorem IsArranged.append_arena (h : a.IsArranged) {node : Node} (hleaf : node.childList = [])
    (hparent : node.parent = none) (htype : node.type ≠ .root) (semicolon : Bool) :
    (a.arena.add node).append? a.current.id a.arena.size =
      some (a.addLeaf node semicolon).arena := by
  have hcontain : (a.arena.node a.current.id).kind.canContain = true := by
    rw [h.kind_arena]
    exact (h.container _ List.mem_cons_self).2
  have hlength : (a.enclosing.map (·.id)).length ≤ a.arena.size := by
    rw [List.length_map, h.size_arena]
    exact Nat.le_of_lt h.length_enclosing_lt
  rw [Document.append?_add hcontain h.climbs_arena hlength htype hparent,
    h.push_arena hleaf semicolon]

/-- A change of a new leaf that leaves its parent alone is a change at its number. -/
theorem IsArranged.modify_arena_leaf (h : a.IsArranged) {node : Node}
    (hleaf : node.childList = []) {change : Node → Node}
    (hparent : ∀ (n : Node) parent, change { n with parent } = { change n with parent })
    (hchanged : (change node).childList = []) (semicolon : Bool) :
    (a.addLeaf node semicolon).arena.modify a.created change =
      (a.addLeaf (change node) semicolon).arena := by
  have hlt : a.current.id < a.arena.size := h.size_arena ▸ h.current_lt
  rw [← h.push_arena hleaf, ← h.size_arena, Document.modify_push hlt node fun n ↦ hparent n _]
  exact h.push_arena hchanged semicolon

theorem IsArranged.addLeaf (h : a.IsArranged) (node : Node) (semicolon : Bool) :
    (a.addLeaf node semicolon).IsArranged where
  numbered := h.numbered
  created := by
    show a.created + 1 = (a.current.adopt (node, .nil)).next
    rw [h.created, Frame.next, Frame.next, Frame.below_adopt_leaf, List.length_append]
    rfl
  container := by
    obtain ⟨hcurrent, houter⟩ := List.forall_mem_cons.mp h.container
    exact List.forall_mem_cons.mpr ⟨hcurrent, houter⟩
  repairs r hr id hid := Nat.lt_succ_of_lt (h.repairs r hr id hid)

/-- Opening a container adds a leaf, which is the innermost container then. -/
theorem IsArranged.openFrame_arena (h : a.IsArranged) (node : Node) (semicolon : Bool) :
    (a.openFrame node).arena = (a.addLeaf node semicolon).arena := by
  have hlayout := Frame.layout_open a.current a.enclosing node
  rw [← h.created] at hlayout
  rw [arena, arena, layout, layout]
  exact congrArg
    (fun nodes ↦ a.recoveries.foldl Document.recover ⟨List.toArray nodes, a.source, a.mode, []⟩)
    hlayout

theorem IsArranged.openFrame (h : a.IsArranged) {node : Node} (hblock : node.hasBlock = true)
    (hcontain : node.kind.canContain = true) : (a.openFrame node).IsArranged where
  numbered := ⟨h.created.trans (h.numbered.next_eq []), h.numbered⟩
  created := rfl
  container := List.forall_mem_cons.mpr ⟨⟨hblock, hcontain⟩, h.container⟩
  repairs r hr id hid := Nat.lt_succ_of_lt (h.repairs r hr id hid)

/-- Closing a container changes no node. -/
theorem IsArranged.close_arena (h : a.IsArranged) {outer : Frame} {enclosing : List Frame}
    (henclosing : a.enclosing = outer :: enclosing) :
    { a with current := outer.adopt a.current.tree, enclosing }.arena = a.arena := by
  have hnumbered := h.numbered
  rw [henclosing] at hnumbered
  have hlayout := Frame.layout_close hnumbered
  rw [arena, arena, layout, layout, henclosing]
  exact congrArg
    (fun nodes ↦ a.recoveries.foldl Document.recover ⟨List.toArray nodes, a.source, a.mode, []⟩)
    hlayout

theorem IsArranged.close (h : a.IsArranged) {outer : Frame} {enclosing : List Frame}
    (henclosing : a.enclosing = outer :: enclosing) :
    { a with current := outer.adopt a.current.tree, enclosing }.IsArranged where
  numbered := by
    have hnumbered := h.numbered
    rw [henclosing] at hnumbered
    exact hnumbered.2
  created := by
    have hnumbered := h.numbered
    rw [henclosing] at hnumbered
    have houter : Frame.IsNumbered (outer.adopt a.current.tree :: enclosing) := hnumbered.2
    show a.created = (outer.adopt a.current.tree).next
    rw [h.created, houter.next_eq [], Frame.layout_close hnumbered, hnumbered.next_eq []]
  container := by
    have hcontainer := h.container
    rw [henclosing] at hcontainer
    obtain ⟨-, houter⟩ := List.forall_mem_cons.mp hcontainer
    obtain ⟨hfirst, hrest⟩ := List.forall_mem_cons.mp houter
    exact List.forall_mem_cons.mpr ⟨hfirst, hrest⟩
  repairs := h.repairs

/-- A container with a finished tree is one without it that has adopted the tree. -/
theorem adopt_last {f : Frame} {tree : Node × Forest Node} {earlier : List (Node × Forest Node)}
    (hearlier : f.earlier = tree :: earlier) : { f with earlier }.adopt tree = f := by
  rw [Frame.adopt, ← hearlier]

/-- The last finished tree of the innermost container is its last child. -/
theorem IsArranged.last_arena (h : a.IsArranged) {tree : Node × Forest Node}
    {earlier : List (Node × Forest Node)} (hearlier : a.current.earlier = tree :: earlier) :
    let last := { a.current with earlier }.next
    (a.arena.node a.current.id).childList.getLast? = some last ∧ last < a.arena.size ∧
      ∃ children, (a.arena.node last).undamaged =
        (tree.1.link (some a.current.id) children).undamaged := by
  intro last
  have hbelow := Frame.below_adopt { a.current with earlier } tree.1 tree.2
  rw [adopt_last hearlier] at hbelow
  refine ⟨?_, ?_, ?_⟩
  · rw [h.childList_arena, hbelow, List.getLast?_concat]
  · rw [h.size_arena, h.created, Frame.next, hbelow, List.length_append]
    exact Nat.succ_lt_succ (Nat.add_lt_add_left (Nat.lt_add_of_pos_right (Nat.succ_pos _)) _)
  · obtain ⟨children, hnode⟩ :=
      @Frame.node_layout_last { a.current with earlier } a.enclosing a.source a.mode
      [] h.numbered tree.1 tree.2
    rw [adopt_last hearlier] at hnode
    exact ⟨children, (a.undamaged_arena last).trans (congrArg Node.undamaged hnode)⟩

/-- A change of the last finished tree is a change at its number. -/
theorem IsArranged.modify_arena_last (h : a.IsArranged) {tree : Node × Forest Node}
    {earlier : List (Node × Forest Node)} (hearlier : a.current.earlier = tree :: earlier)
    {change : Node → Node} (hchange : Node.IsLocal change) :
    a.arena.modify { a.current with earlier }.next change =
      { a with current :=
        { a.current with earlier := (change tree.1, tree.2) :: earlier } }.arena := by
  have hlayout := @Frame.modify_layout_last { a.current with earlier } a.enclosing a.source a.mode
    [] h.numbered
    tree.1 tree.2 change hchange
  rw [adopt_last hearlier] at hlayout
  rw [arena, Document.foldl_recover_modify _ _ _ hchange.harm, layout, hlayout]
  rfl

theorem IsArranged.relayout (h : a.IsArranged) {tree : Node × Forest Node}
    {earlier : List (Node × Forest Node)} (hearlier : a.current.earlier = tree :: earlier)
    (node : Node) :
    { a with current := { a.current with earlier := (node, tree.2) :: earlier } }.IsArranged where
  numbered := h.numbered
  created := by
    have hnext (node : Node) : ({ a.current with earlier }.adopt (node, tree.2)).next =
        a.current.id + { a.current with earlier }.below.1.length +
          (tree.2.number (some { a.current with earlier }.next)
            ({ a.current with earlier }.next + 1)).1.length +
            2 := by
      rw [Frame.next, Frame.below_adopt, List.length_append, List.length_cons]
      exact congrArg (· + 1) (Nat.add_assoc _ _ _).symm
    show a.created = ({ a.current with earlier }.adopt (node, tree.2)).next
    rw [h.created, hnext, ← hnext tree.1]
    exact congrArg Frame.next (adopt_last hearlier).symm
  container := by
    obtain ⟨hcurrent, houter⟩ := List.forall_mem_cons.mp h.container
    exact List.forall_mem_cons.mpr ⟨hcurrent, houter⟩
  repairs := h.repairs

/-- A repair belongs to a node that there is. -/
theorem IsArranged.recover_arena (h : a.IsArranged) {recovery : Recovery}
    (hnode : ∀ id ∈ recovery.node, id < a.created) :
    a.arena.recover? recovery =
      some { a with recoveries := a.recoveries ++ [recovery] }.arena := by
  rw [Document.recover?_of_lt (h.size_arena ▸ hnode)]
  show _ = some ((a.recoveries ++ [recovery]).foldl Document.recover a.layout)
  rw [List.foldl_append]
  rfl

theorem IsArranged.repair (h : a.IsArranged) {recovery : Recovery}
    (hnode : ∀ id ∈ recovery.node, id < a.created) :
    { a with recoveries := a.recoveries ++ [recovery] }.IsArranged where
  numbered := h.numbered
  created := h.created
  container := h.container
  repairs := List.forall_mem_append.mpr ⟨h.repairs, List.forall_mem_singleton.mpr hnode⟩

/-- When all containers but the outermost one are closed, the array is that of the document. -/
theorem IsArranged.document_eq (h : a.IsArranged) (henclosing : a.enclosing = []) :
    a.document = a.arena := by
  have hid : a.current.id = 0 := h.numbered.1.trans (by rw [henclosing]; rfl)
  have hnodes :
      (Forest.number none 0 (.cons a.current.node (Forest.ofRev a.current.earlier) .nil)).1 =
      Frame.layout [] [a.current] := by
    simp [Forest.number, Frame.layout, Frame.below, hid]
  rw [arena, layout, henclosing, ← hnodes]
  rfl

end Assembly

end Stylesheet
