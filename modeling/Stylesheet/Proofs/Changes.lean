import Stylesheet.Proofs.Refusal

/-!
# The changes that commands make

Whatever a command does with a document that is not to overwrite a kind, it does in a few kinds of
changes. `Document.Change` lists them with what has been checked by then, and `changes_run` says
that there are no others, so that what every change keeps is kept by any run of such commands.
Which of the functions that a layout can be rewritten with are used is a parameter of the list.

A change of a document consists of changes of its nodes (`Node.Change`), and new nodes are copies
or have just been made (`Change.extendsTo`). So what holds of nodes that have just been made and
is kept by each change of a node holds of all nodes (`Change.forall_node`). `Document.IsShaped` is
one such fact: the root and the rules of a document have a block, and no declaration or comment
has one.
-/

namespace Stylesheet

/-- `r.clean keepBetween` is what `Document.cleanRaws` leaves of a layout. -/
def Raws.clean (keepBetween : Bool) (r : Raws) : Raws :=
  { r.forgetPlace with between := if keepBetween then r.between else none }

namespace Document

/-- `doc.Change writes other` says that `other` is one change further than `doc`. A layout is
rewritten with functions that `writes` holds of only. -/
inductive Change (writes : (Raws → Raws) → Prop) (doc : Document) : Document → Prop where
  | add (kind) : Change writes doc (doc.add (Node.ofKind kind))
  | copy (id) : Change writes doc (doc.copy id)
  | openBlock {id} (h : (doc.node id).kind.canContain = true) :
      Change writes doc (doc.modify id Node.openBlock)
  | release (parent child) : Change writes doc (doc.release parent child)
  | link {parent index child} (h : doc.Fits parent index child)
      (hdetached : doc.parent child = none) :
      Change writes doc (doc.link parent index child)
  | unlink (id) : Change writes doc (doc.unlink id)
  | clear (id) : Change writes doc (doc.clear id)
  | layout (id) {f} (h : writes f) : Change writes doc (doc.modify id (Node.mapRaws f))
  | assign {id setting changed} (h : (doc.node id).set? setting = some changed) :
      Change writes doc (doc.modify id fun _ ↦ changed)
  | origin (id) (origin : Option Origin) :
      Change writes doc (doc.modify id fun n ↦ { n with origin })
  | mode (mode) : Change writes doc { doc with mode }
  | recover (recovery) : Change writes doc (doc.recover recovery)

/-- `doc.Changes writes other` says that changes lead from `doc` to `other`. -/
def Changes (writes : (Raws → Raws) → Prop) : Document → Document → Prop :=
  Relation.ReflTransGen (Change writes)

variable {writes : (Raws → Raws) → Prop} {doc other last : Document}

namespace Changes

theorem refl (doc : Document) : doc.Changes writes doc := Relation.ReflTransGen.refl

theorem trans (h : doc.Changes writes other) (hlast : other.Changes writes last) :
    doc.Changes writes last :=
  Relation.ReflTransGen.trans h hlast

theorem tail (h : doc.Changes writes other) (hlast : other.Change writes last) :
    doc.Changes writes last :=
  Relation.ReflTransGen.tail h hlast

/-- A node is put at a place that it fits by two changes. -/
theorem place {parent child : NodeId} {index : Nat} (h : doc.Changes writes other)
    (hother : other.IsLinked) (hfits : other.Fits parent index child) :
    doc.Changes writes ((other.release parent child).link parent index child) :=
  (h.tail (.release parent child)).tail
    (.link (hfits.release hother) (parent_release_self other parent child))

/-- What every change keeps is kept on the whole way. -/
theorem keeps {P : Document → Prop}
    (hchange : ∀ {doc other : Document}, doc.Change writes other → P doc → P other)
    (h : doc.Changes writes other) (hdoc : P doc) : P other := by
  induction h with
  | refl => exact hdoc
  | tail _ hlast ih => exact hchange hlast ih

end Changes

/-- Every change of a document keeps it linked. -/
theorem Change.isLinked (h : doc.Change writes other) (hdoc : doc.IsLinked) : other.IsLinked := by
  cases h with
  | add kind => exact hdoc.add kind
  | copy id => exact hdoc.copy id
  | openBlock => exact (sameLinks_openBlock doc _).isLinked hdoc
  | release parent child => exact hdoc.release parent child
  | link hfits hdetached => exact hfits.isLinked hdoc hdetached
  | unlink id => exact hdoc.unlink id
  | clear id => exact hdoc.clear id
  | layout id => exact (doc.sameLinks_mapRaws id _).isLinked hdoc
  | assign hset =>
      obtain ⟨kind, _, rfl⟩ := Option.map_eq_some_iff.mp hset
      exact (sameLinks_modify doc _ rfl rfl).isLinked hdoc
  | origin id => exact (doc.sameLinks_modify id rfl rfl).isLinked hdoc
  | mode mode =>
      have hsame : doc.SameLinks { doc with mode } := ⟨rfl, fun _ ↦ rfl, fun _ ↦ rfl⟩
      exact hsame.isLinked hdoc
  | recover recovery => exact (doc.sameLinks_recover recovery).isLinked hdoc

theorem changes_cleanRaws (doc : Document) (id : NodeId) {keepBetween : Bool}
    (h : writes (Raws.clean keepBetween)) :
    doc.Changes writes (doc.cleanRaws id keepBetween) := by
  unfold cleanRaws
  induction id :: doc.walk id generalizing doc with
  | nil => exact .refl doc
  | cons id ids ih => exact ((Changes.refl doc).tail (.layout id h)).trans (ih _)

end Document

/-! ## Commands -/

namespace Edit

open Document (Changes)

/-- `edit.MakesChanges writes` says that an edit of a linked document leaves a document that is
some changes further, also if it is refused. -/
def MakesChanges {α : Type} (writes : (Raws → Raws) → Prop) (edit : Edit α) : Prop :=
  ∀ {start doc : Document}, start.Changes writes doc → doc.IsLinked →
    edit.Yields doc (start.Changes writes) fun _ after ↦ start.Changes writes after

variable {writes : (Raws → Raws) → Prop}

theorem makesChanges_modify {id : NodeId} {f : Document → Document}
    (h : ∀ doc : Document, doc.Changes writes (f doc)) :
    MakesChanges writes (do require id; modify f) := by
  intro start doc hstart _
  apply yields_bind
  apply yields_require hstart
  intro _
  exact yields_modify (hstart.trans (h doc))

theorem makesChanges_create (kind : Kind) : MakesChanges writes (create kind) := by
  intro start doc hstart _
  apply yields_bind
  apply yields_get
  apply yields_bind
  apply yields_set
  exact yields_pure (hstart.tail (.add kind))

theorem makesChanges_copy (id : NodeId) : MakesChanges writes (copy id) := by
  intro start doc hstart _
  apply yields_bind
  apply yields_require hstart
  intro _
  apply yields_bind
  apply yields_get
  apply yields_bind
  apply yields_set
  exact yields_pure (hstart.tail (.copy id))

theorem makesChanges_openBlock (id : NodeId) : MakesChanges writes (openBlock id) := by
  intro start doc hstart _
  apply yields_bind
  apply yields_require hstart
  intro _
  apply yields_bind
  apply yields_bind
  apply yields_get
  dsimp only
  split
  · next hcontainer => exact yields_pure (yields_modify (hstart.tail (.openBlock hcontainer)))
  · exact yields_throw hstart

theorem makesChanges_insert (parent : NodeId) (index : Nat) (child : NodeId) :
    MakesChanges writes (insert parent index child) :=
  fun hstart hdoc ↦ yields_insert_fits hdoc hstart fun hfits ↦
    hstart.place hdoc hfits

theorem makesChanges_append (parent child : NodeId) :
    MakesChanges writes (append parent child) := by
  intro start doc hstart hdoc
  apply yields_bind
  apply yields_get
  exact makesChanges_insert parent _ child hstart hdoc

theorem makesChanges_moveTo (child parent : NodeId) (index : Nat) :
    MakesChanges writes (moveTo child parent index) := by
  intro start doc hstart hdoc
  apply yields_bind
  apply yields_require hstart
  intro _
  exact makesChanges_insert parent index child hstart hdoc

theorem makesChanges_insertBeside {skip : Nat} (hskip : skip ≤ 1) (sibling child : NodeId) :
    MakesChanges writes (insertBeside skip sibling child) :=
  fun hstart hdoc ↦ yields_insertBeside_fits hdoc hskip hstart (fun _ ↦ hstart)
    fun _ _ _ _ _ _ hfits ↦ hstart.place hdoc hfits

theorem makesChanges_replace (old new : NodeId) : MakesChanges writes (replace old new) :=
  fun hstart hdoc ↦ yields_replace_fits hdoc hstart (fun _ ↦ hstart) fun _ _ _ _ _ _ hfits ↦
    (hstart.place hdoc hfits).tail (.unlink old)

theorem makesChanges_remove (id : NodeId) : MakesChanges writes (remove id) := by
  intro start doc hstart _
  apply yields_bind
  apply yields_require hstart
  intro _
  dsimp only
  split
  · exact yields_bind (yields_throw hstart)
  · exact yields_modify (hstart.tail (.unlink id))

theorem makesChanges_assign (id : NodeId) (setting : Setting) :
    MakesChanges writes (assign id setting) := by
  intro start doc hstart _
  apply yields_bind
  apply yields_require hstart
  intro _
  apply yields_bind
  apply yields_get
  dsimp only
  split
  · next hchanged => exact yields_modify (hstart.tail (.assign hchanged))
  · exact yields_throw hstart

theorem makesChanges_copyOrigin (id other : NodeId) :
    MakesChanges writes (copyOrigin id other) := by
  intro start doc hstart _
  apply yields_bind
  apply yields_require hstart
  intro _
  apply yields_bind
  apply yields_require hstart
  intro _
  apply yields_bind
  apply yields_get
  exact yields_modify (hstart.tail (.origin id _))

theorem makesChanges_recover (recovery : Recovery) : MakesChanges writes (recover recovery) := by
  intro start doc hstart _
  have hrecover := hstart.tail (.recover recovery)
  apply yields_bind
  cases recovery.node with
  | none => exact yields_pure (yields_modify hrecover)
  | some id => exact yields_require hstart fun _ ↦ yields_modify hrecover

end Edit

namespace Command

open Document (Changes)

/-- `c.setsKind` says that a command overwrites the kind of a node. -/
def setsKind : Command → Bool
  | setKind .. => true
  | _ => false

/-- `c.Writes f` says that a command rewrites layouts with `f`, apart from what belongs to the
place of a node that it moves. -/
def Writes (f : Raws → Raws) : Command → Prop
  | setRaws _ g => f = g
  | cleanRaws _ keepBetween => f = Raws.clean keepBetween
  | _ => False

variable {writes : (Raws → Raws) → Prop} {doc : Document}

theorem changes_after (h : doc.IsLinked) {command : Command} (hkind : command.setsKind = false)
    (hwrites : ∀ f, command.Writes f → writes f) : doc.Changes writes (command.after doc) := by
  have hstart : doc.Changes writes doc := .refl doc
  cases command with
  | create kind => exact (Edit.makesChanges_create kind hstart h).after
  | copy id => exact (Edit.makesChanges_copy id hstart h).after
  | openBlock id => exact (Edit.makesChanges_openBlock id hstart h).after
  | append parent child => exact (Edit.makesChanges_append parent child hstart h).after
  | prepend parent child => exact (Edit.makesChanges_insert parent 0 child hstart h).after
  | insert parent index child =>
      exact (Edit.makesChanges_insert parent index child hstart h).after
  | moveTo child parent index =>
      exact (Edit.makesChanges_moveTo child parent index hstart h).after
  | insertBefore sibling child =>
      exact (Edit.makesChanges_insertBeside (Nat.zero_le 1) sibling child hstart h).after
  | insertAfter sibling child =>
      exact (Edit.makesChanges_insertBeside (Nat.le_refl 1) sibling child hstart h).after
  | replace old new => exact (Edit.makesChanges_replace old new hstart h).after
  | remove id => exact (Edit.makesChanges_remove id hstart h).after
  | removeAll parent =>
      exact (Edit.makesChanges_modify (fun doc ↦ (Changes.refl doc).tail (.clear parent))
        hstart h).after
  | cleanRaws id keepBetween =>
      exact (Edit.makesChanges_modify (fun doc ↦ doc.changes_cleanRaws id (hwrites _ rfl))
        hstart h).after
  | assign id setting => exact (Edit.makesChanges_assign id setting hstart h).after
  | setKind id kind => cases hkind
  | setRaws id f =>
      exact (Edit.makesChanges_modify
        (fun doc ↦ (Changes.refl doc).tail (.layout id (hwrites f rfl)))
        hstart h).after
  | copyOrigin id other => exact (Edit.makesChanges_copyOrigin id other hstart h).after
  | setMode mode => exact hstart.tail (.mode mode)
  | recover recovery => exact (Edit.makesChanges_recover recovery hstart h).after

/-- Commands that do not overwrite kinds make changes only, with no other layouts than they
write. -/
theorem changes_run_of_writes (h : doc.IsLinked) {commands : List Command}
    (hkinds : ∀ command ∈ commands, command.setsKind = false)
    (hwrites : ∀ command ∈ commands, ∀ f, command.Writes f → writes f) :
    doc.Changes writes (run commands doc) := by
  induction commands generalizing doc with
  | nil => exact .refl doc
  | cons command commands ih =>
      obtain ⟨hkind, hkinds⟩ := List.forall_mem_cons.mp hkinds
      obtain ⟨hwrite, hwrites⟩ := List.forall_mem_cons.mp hwrites
      exact (changes_after h hkind hwrite).trans (ih (isLinked_after h command) hkinds hwrites)

theorem changes_run (h : doc.IsLinked) {commands : List Command}
    (hkinds : ∀ command ∈ commands, command.setsKind = false) :
    doc.Changes (fun _ ↦ True) (run commands doc) :=
  changes_run_of_writes h hkinds fun _ _ _ _ ↦ trivial

end Command

/-! ## Changes of single nodes -/

/-- `n.Change writes m` says that `m` is one change of a node further than `n`. -/
inductive Node.Change (writes : (Raws → Raws) → Prop) (n : Node) : Node → Prop where
  | parent (parent : Option NodeId) : Change writes n { n with parent }
  | children (ids : List NodeId) (h : n.hasBlock = true ∨ n.kind.canContain = true) :
      Change writes n { n with children := some ids }
  | layout {f} (h : writes f) : Change writes n (n.mapRaws f)
  | forgetPlace : Change writes n (n.mapRaws Raws.forgetPlace)
  | damage (damage : List Damage) : Change writes n (n.mapRaws fun raws ↦ { raws with damage })
  | assign {setting changed} (h : n.set? setting = some changed) : Change writes n changed
  | origin (origin : Option Origin) : Change writes n { n with origin }

/-- `n.Changes writes m` says that changes of a node lead from `n` to `m`. -/
def Node.Changes (writes : (Raws → Raws) → Prop) : Node → Node → Prop :=
  Relation.ReflTransGen (Node.Change writes)

namespace Node

variable {writes : (Raws → Raws) → Prop} {n m k : Node}

namespace Changes

theorem refl (n : Node) : n.Changes writes n := Relation.ReflTransGen.refl

theorem trans (h : n.Changes writes m) (hlast : m.Changes writes k) : n.Changes writes k :=
  Relation.ReflTransGen.trans h hlast

/-- What every change of a node keeps is kept by any number of them. -/
theorem keeps {P : Node → Prop} (hchange : ∀ {n m : Node}, n.Change writes m → P n → P m)
    (h : n.Changes writes m) (hn : P n) : P m := by
  induction h with
  | refl => exact hn
  | tail _ hlast ih => exact hchange hlast ih

end Changes

theorem Change.changes (h : n.Change writes m) : n.Changes writes m :=
  Relation.ReflTransGen.single h

/-- The children of a node can be rearranged if it has a block for them. -/
theorem changes_mapChildren (n : Node) (f : List NodeId → List NodeId) :
    n.Changes writes { n with children := n.children.map f } := by
  cases hchildren : n.children with
  | none =>
      have hsame : { n with children := none } = n := by rw [← hchildren]
      exact hsame.symm ▸ .refl n
  | some ids => exact (Change.children (f ids) (.inl (by simp [hasBlock, hchildren]))).changes

theorem changes_link (n : Node) (parent : Option NodeId) (children : List NodeId) :
    n.Changes writes (n.link parent children) :=
  (Change.parent parent).changes.trans (changes_mapChildren _ fun _ ↦ children)

end Node

/-- Numbering changes the links of the nodes that it numbers only. -/
theorem Forest.exists_changes_of_mem_number {writes : (Raws → Raws) → Prop} {f : Forest Node}
    {parent : Option NodeId} {next : NodeId} {n : Node} (h : n ∈ (f.number parent next).1) :
    ∃ m ∈ f.toList, m.Changes writes n := by
  induction f generalizing parent next with
  | nil => cases h
  | cons m below rest ihBelow ihRest =>
      simp only [number, List.mem_cons, List.mem_append] at h
      simp only [toList, List.mem_cons, List.mem_append]
      rcases h with rfl | h | h
      · exact ⟨m, .inl rfl, m.changes_link _ _⟩
      · obtain ⟨m, hm, hn⟩ := ihBelow h
        exact ⟨m, .inr (.inl hm), hn⟩
      · obtain ⟨m, hm, hn⟩ := ihRest h
        exact ⟨m, .inr (.inr hm), hn⟩

namespace Document

variable {writes : (Raws → Raws) → Prop} {doc other last : Document}

/-- `doc.ChangesNodes writes other` says that the documents have the same nodes but for changes of
single nodes. -/
def ChangesNodes (writes : (Raws → Raws) → Prop) (doc other : Document) : Prop :=
  other.size = doc.size ∧ ∀ id, (doc.node id).Changes writes (other.node id)

namespace ChangesNodes

theorem refl (doc : Document) : doc.ChangesNodes writes doc := ⟨rfl, fun id ↦ .refl (doc.node id)⟩

theorem trans (h : doc.ChangesNodes writes other) (hlast : other.ChangesNodes writes last) :
    doc.ChangesNodes writes last :=
  ⟨hlast.1.trans h.1, fun id ↦ (h.2 id).trans (hlast.2 id)⟩

end ChangesNodes

theorem changesNodes_modify (doc : Document) (id : NodeId) {f : Node → Node}
    (h : (doc.node id).Changes writes (f (doc.node id))) :
    doc.ChangesNodes writes (doc.modify id f) := by
  refine ⟨doc.size_modify id f, fun other ↦ ?_⟩
  rw [node_modify]
  split
  · next hother => exact hother.1 ▸ h
  · exact .refl _

theorem changesNodes_foldl_modify (doc : Document) (ids : List NodeId) {f : Node → Node}
    (h : ∀ n, Node.Change writes n (f n)) :
    doc.ChangesNodes writes (ids.foldl (fun doc id ↦ doc.modify id f) doc) := by
  induction ids generalizing doc with
  | nil => exact .refl doc
  | cons id ids ih => exact (doc.changesNodes_modify id (h _).changes).trans (ih _)

theorem changesNodes_unlink (doc : Document) (id : NodeId) :
    doc.ChangesNodes writes (doc.unlink id) := by
  unfold unlink
  split
  · exact .refl doc
  · exact (doc.changesNodes_modify id (Node.Change.parent none).changes).trans
      (changesNodes_modify _ _ (Node.changes_mapChildren _ _))

theorem changesNodes_release (doc : Document) (parent child : NodeId) :
    doc.ChangesNodes writes (doc.release parent child) := by
  unfold release
  split
  · exact .refl doc
  · refine ChangesNodes.trans ?_ (changesNodes_unlink _ child)
    split
    · exact .refl doc
    · unfold forgetLayout
      split <;> exact doc.changesNodes_foldl_modify _ fun _ ↦ .forgetPlace

theorem changesNodes_clear (doc : Document) (id : NodeId) :
    doc.ChangesNodes writes (doc.clear id) :=
  (doc.changesNodes_foldl_modify (doc.children id) fun _ ↦ .parent none).trans
    (changesNodes_modify _ _ (Node.changes_mapChildren _ _))

theorem changesNodes_recover (doc : Document) (recovery : Recovery) :
    doc.ChangesNodes writes (doc.recover recovery) := by
  have hrecord : doc.ChangesNodes writes
      { doc with recoveries := doc.recoveries ++ [recovery] } :=
    ChangesNodes.refl doc
  unfold recover
  dsimp only
  split
  · exact hrecord.trans (changesNodes_modify _ _ (Node.Change.damage _).changes)
  · exact hrecord

/-- `doc.ExtendsTo writes other` says that `other` has the nodes of `doc`, but for changes of
single nodes, and behind them nodes that have just been made or come from nodes of `doc`. -/
structure ExtendsTo (writes : (Raws → Raws) → Prop) (doc other : Document) : Prop where
  size_le : doc.size ≤ other.size
  changes : ∀ id < doc.size, (doc.node id).Changes writes (other.node id)
  exists_changes : ∀ id, ∃ n, ((∃ kind, n = Node.ofKind kind) ∨ ∃ source, n = doc.node source) ∧
    n.Changes writes (other.node id)

theorem ChangesNodes.extendsTo (h : doc.ChangesNodes writes other) : doc.ExtendsTo writes other :=
  ⟨Nat.le_of_eq h.1.symm, fun id _ ↦ h.2 id, fun id ↦ ⟨_, .inr ⟨id, rfl⟩, h.2 id⟩⟩

theorem extendsTo_add (doc : Document) (kind : Kind) :
    doc.ExtendsTo writes (doc.add (Node.ofKind kind)) where
  size_le := by simp
  changes id hid := by
    rw [node_add, if_neg (Nat.ne_of_lt hid)]
    exact .refl _
  exists_changes id := by
    rw [node_add]
    split
    · exact ⟨_, .inl ⟨kind, rfl⟩, .refl _⟩
    · exact ⟨_, .inr ⟨id, rfl⟩, .refl _⟩

theorem node_copy_of_lt {id other : NodeId} (h : other < doc.size) :
    (doc.copy id).node other = doc.node other := by
  have hlt : other < doc.nodes.size := h
  simp only [node, copy, Array.getElem?_append, if_pos hlt]

theorem extendsTo_copy (doc : Document) (id : NodeId) : doc.ExtendsTo writes (doc.copy id) where
  size_le := by
    rw [size_copy]
    omega
  changes other hother := node_copy_of_lt hother ▸ .refl _
  exists_changes other := by
    by_cases hlt : other < doc.size
    · rw [node_copy_of_lt hlt]
      exact ⟨_, .inr ⟨other, rfl⟩, .refl _⟩
    · have hnode : (doc.copy id).node other =
          ((doc.treeAt id).number none doc.size).1[other - doc.size]?.getD absent := by
        have hle : ¬other < doc.nodes.size := hlt
        simp only [node, copy, Array.getElem?_append, if_neg hle, List.getElem?_toArray, size]
      rw [hnode]
      cases hfound : ((doc.treeAt id).number none doc.size).1[other - doc.size]? with
      | none => exact ⟨_, .inr ⟨doc.size, (node_of_size_le (Nat.le_refl _)).symm⟩, .refl _⟩
      | some n =>
          obtain ⟨m, hm, hchanges⟩ :=
            Forest.exists_changes_of_mem_number (List.mem_of_getElem? hfound)
          simp only [treeAt, Forest.toList, Forest.toList_map, List.append_nil, List.mem_cons,
            List.mem_map] at hm
          refine ⟨m, .inr ?_, hchanges⟩
          rcases hm with rfl | ⟨source, -, rfl⟩
          · exact ⟨id, rfl⟩
          · exact ⟨source, rfl⟩

/-- A change of a document changes single nodes and adds nodes, and it does nothing else to
them. -/
theorem Change.extendsTo (h : doc.Change writes other) : doc.ExtendsTo writes other := by
  cases h with
  | add kind => exact doc.extendsTo_add kind
  | copy id => exact doc.extendsTo_copy id
  | openBlock hcontainer =>
      exact (doc.changesNodes_modify _
        (Node.Change.children _ (.inr hcontainer)).changes).extendsTo
  | release parent child => exact (doc.changesNodes_release parent child).extendsTo
  | @link parent index child hfits =>
      have hlinked : doc.ChangesNodes writes (doc.link parent index child) :=
        (doc.changesNodes_modify _
          (Node.Change.children _ (.inr hfits.admits.container)).changes).trans
          (changesNodes_modify _ _ (Node.Change.parent _).changes)
      exact hlinked.extendsTo
  | unlink id => exact (doc.changesNodes_unlink id).extendsTo
  | clear id => exact (doc.changesNodes_clear id).extendsTo
  | layout id hf => exact (doc.changesNodes_modify id (Node.Change.layout hf).changes).extendsTo
  | assign hset => exact (doc.changesNodes_modify _ (Node.Change.assign hset).changes).extendsTo
  | origin id origin =>
      exact (doc.changesNodes_modify id (Node.Change.origin origin).changes).extendsTo
  | mode mode =>
      have hmode : doc.ChangesNodes writes { doc with mode } := ChangesNodes.refl doc
      exact hmode.extendsTo
  | recover recovery => exact (doc.changesNodes_recover recovery).extendsTo

/-- What new nodes have and every change of a node keeps is kept by every change of a document. -/
theorem Change.forall_node {P : Node → Prop} (hnew : ∀ kind, P (Node.ofKind kind))
    (hchange : ∀ {n m : Node}, n.Change writes m → P n → P m) (h : doc.Change writes other)
    (hdoc : ∀ id, P (doc.node id)) (id : NodeId) : P (other.node id) := by
  obtain ⟨n, horigin, hchanges⟩ := h.extendsTo.exists_changes id
  refine hchanges.keeps hchange ?_
  rcases horigin with ⟨kind, rfl⟩ | ⟨source, rfl⟩
  · exact hnew kind
  · exact hdoc source

end Document

/-- A setting does not change the sort of a node. -/
theorem Setting.type_of_kind? {setting : Setting} {kind changed : Kind}
    (h : setting.kind? kind = some changed) : changed.type = kind.type := by
  cases setting <;> cases kind <;> cases h <;> rfl

/-- No change of a node changes its sort. -/
theorem Node.Change.type_eq {writes : (Raws → Raws) → Prop} {n m : Node} (h : n.Change writes m) :
    m.type = n.type := by
  cases h with
  | assign hset =>
      obtain ⟨kind, hkind, rfl⟩ := Option.map_eq_some_iff.mp hset
      exact Setting.type_of_kind? hkind
  | _ => rfl

theorem Document.Change.type_eq {writes : (Raws → Raws) → Prop} {doc other : Document}
    {id : NodeId} (h : doc.Change writes other) (hid : id < doc.size) :
    other.type id = doc.type id :=
  (h.extendsTo.changes id hid).keeps (P := fun m ↦ m.type = (doc.node id).type)
    (fun hchange hn ↦ hchange.type_eq.trans hn) rfl

/-- A node keeps its sort on the whole way. -/
theorem Document.Changes.type_eq {writes : (Raws → Raws) → Prop} {doc other : Document}
    {id : NodeId} (h : doc.Changes writes other) (hid : id < doc.size) :
    other.type id = doc.type id :=
  (h.keeps (P := fun after ↦ id < after.size ∧ after.type id = doc.type id)
    (fun hchange hafter ↦ ⟨Nat.lt_of_lt_of_le hafter.1 hchange.extendsTo.size_le,
      (hchange.type_eq hafter.1).trans hafter.2⟩) ⟨hid, rfl⟩).2

/-! ## Shapes -/

namespace Kind

theorem canContain_eq (kind : Kind) :
    kind.canContain = (kind.type != .declaration && kind.type != .comment) := by
  cases kind <;> rfl

theorem startsWithBlock_eq (kind : Kind) :
    kind.startsWithBlock = (kind.type == .root || kind.type == .rule) := by
  cases kind <;> rfl

end Kind

/-- A node that cannot be without a block has one, and one that cannot have children has none. -/
structure Node.IsShaped (n : Node) : Prop where
  block : n.kind.startsWithBlock = true → n.hasBlock = true
  container : n.hasBlock = true → n.kind.canContain = true

namespace Node

/-- The shape of a node depends on its sort and on whether it has a block. -/
theorem IsShaped.of_eq {n m : Node} (h : n.IsShaped) (htype : m.type = n.type)
    (hblock : m.hasBlock = n.hasBlock) : m.IsShaped := by
  have htype : m.kind.type = n.kind.type := htype
  refine ⟨fun hstarts ↦ ?_, fun hm ↦ ?_⟩
  · rw [Kind.startsWithBlock_eq, htype, ← Kind.startsWithBlock_eq] at hstarts
    rw [hblock, h.block hstarts]
  · rw [Kind.canContain_eq, htype, ← Kind.canContain_eq]
    exact h.container (hblock.symm.trans hm)

theorem IsShaped.hasBlock_of_type {n : Node} (h : n.IsShaped)
    (htype : n.type = .root ∨ n.type = .rule) : n.hasBlock = true := by
  refine h.block ?_
  rw [Kind.startsWithBlock_eq, Bool.or_eq_true, beq_iff_eq, beq_iff_eq]
  exact htype

theorem IsShaped.leaf_of_type {n : Node} (h : n.IsShaped)
    (htype : n.type = .declaration ∨ n.type = .comment) : n.hasBlock = false := by
  rw [← Bool.not_eq_true]
  intro hblock
  have hcontainer := h.container hblock
  rw [Kind.canContain_eq, Bool.and_eq_true, bne_iff_ne, bne_iff_ne] at hcontainer
  exact htype.elim hcontainer.1 hcontainer.2

theorem isShaped_ofKind (kind : Kind) : (Node.ofKind kind).IsShaped := by
  have hblock : (Node.ofKind kind).hasBlock = kind.startsWithBlock := by cases kind <;> rfl
  refine ⟨hblock.trans, fun hstarts ↦ ?_⟩
  rw [hblock] at hstarts
  cases kind with
  | declaration | comment => cases hstarts
  | _ => rfl

/-- Every change of a node keeps its shape. -/
theorem IsShaped.change {writes : (Raws → Raws) → Prop} {n m : Node} (h : n.Change writes m)
    (hn : n.IsShaped) : m.IsShaped := by
  cases h with
  | children ids hcontainer => exact ⟨fun _ ↦ rfl, fun _ ↦ hcontainer.elim hn.container id⟩
  | assign hset =>
      obtain ⟨kind, hkind, rfl⟩ := Option.map_eq_some_iff.mp hset
      exact hn.of_eq (Setting.type_of_kind? hkind) rfl
  | _ => exact hn.of_eq rfl rfl

end Node

namespace Document

/-- All nodes of a document are shaped. -/
def IsShaped (doc : Document) : Prop := ∀ id, (doc.node id).IsShaped

/-- Every change keeps the shapes of nodes. -/
theorem IsShaped.change {writes : (Raws → Raws) → Prop} {doc other : Document}
    (h : doc.Change writes other) (hdoc : doc.IsShaped) : other.IsShaped :=
  h.forall_node Node.isShaped_ofKind Node.IsShaped.change hdoc

end Document

end Stylesheet
