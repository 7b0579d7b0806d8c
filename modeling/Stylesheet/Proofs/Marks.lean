import Stylesheet.Print.Printer
import Stylesheet.Proofs.Changes

/-!
# The marks of nodes in what is printed

A printed fragment names the node that it belongs to and says whether it is an edge of it.
`Fragment.mark?` keeps these two, and `Document.marks` computes the marks of a forest by a
recursion on it: a node with a block has a start and a stop around what is below it, any other
node has a single mark without an edge. A printer without renderers writes these marks and no
others (`Printer.hasMarks_forest`), as it prints a node in one of two ways (`exists_node_of_block`
and `exists_node_of_leaf`). So no fragment belongs to a node that is not printed
(`Printed.HasMarks.avoids`).
-/

namespace Stylesheet

/-! ## Single nodes -/

namespace Layout

/-- `l.closing id` is what is printed of a node with a block behind its body. -/
def closing (l : Layout) (id : NodeId) : Printed :=
  match l.document.type id with
  | .root => .gap ((l.raws id).after.getD []) ++ .one ⟨[], some id, some .stop⟩
  | .rule =>
      .gap (l.after id) ++ .one ⟨['\x7d'], some id, some .stop⟩ ++
        ((l.raws id).ownSemicolon.elim .empty fun text ↦ .one { text })
  | _ => .gap (l.after id) ++ .one ⟨['\x7d'], some id, some .stop⟩

end Layout

/-- A printer that is not strict and has no renderers. -/
structure Printer.IsGeneric (p : Printer) : Prop where
  strict : p.strict = false
  renderers : p.renderers = []

namespace Printer

variable {p : Printer} (hp : p.IsGeneric) {l m : Layout} {id other : NodeId}
include hp

theorem other_of_isGeneric (id : NodeId) (name : Text) (semicolon : Bool) (body : Printed) :
    p.other l id name semicolon body = l.generic id semicolon body := by
  simp [Printer.other, hp.strict, hp.renderers]

/-- A node with a block is printed as the start of the block, its body and its end. -/
theorem exists_node_of_block (hshaped : (l.document.node id).IsShaped)
    (hblock : (l.document.node id).hasBlock = true) :
    ∃ head, ∀ semicolon body, p.node l id semicolon body =
      .one ⟨head, some id, some .start⟩ ++ (body ++ l.closing id) := by
  have hcontainer := hshaped.container hblock
  have htype : l.document.type id = (l.document.node id).kind.type := rfl
  have hblocked (head : Text) (body : Printed) : l.block id head body =
      .one ⟨head ++ l.between id ++ ['\x7b'], some id, some .start⟩ ++
        (body ++ (.gap (l.after id) ++ .one ⟨['\x7d'], some id, some .stop⟩)) := by
    rw [Layout.block, Printed.append_assoc, Printed.append_assoc]
  cases hkind : (l.document.node id).kind with
  | declaration => rw [hkind] at hcontainer; cases hcontainer
  | comment => rw [hkind] at hcontainer; cases hcontainer
  | root =>
      rw [hkind] at htype
      refine ⟨[], fun semicolon body ↦ ?_⟩
      simp only [node, hkind, Layout.root, Layout.closing, htype, Kind.type,
        Printed.append_assoc]
  | rule selector =>
      rw [hkind] at htype
      refine ⟨RawValue.written (l.raws id).selector selector ++ l.between id ++ ['\x7b'],
        fun semicolon body ↦ ?_⟩
      simp only [node, hkind, Layout.rule, Layout.closing, htype, Kind.type, hblocked]
      cases (l.raws id).ownSemicolon with
      | none => simp only [Option.elim_none, Printed.append_empty]
      | some text => simp only [Option.elim_some, Printed.append_assoc]
  | atRule name params =>
      rw [hkind] at htype
      refine ⟨l.atRuleHead id name params ++ l.between id ++ ['\x7b'], fun semicolon body ↦ ?_⟩
      simp only [node, hkind, Layout.atRule, hblock, if_true, hblocked, Layout.closing, htype,
        Kind.type]
  | other name head value =>
      rw [hkind] at htype
      refine ⟨head ++ l.between id ++ ['\x7b'], fun semicolon body ↦ ?_⟩
      simp only [node, hkind, other_of_isGeneric hp, Layout.generic, Kind.head?, Option.getD_some,
        hblock, if_true, hblocked, Layout.closing, htype, Kind.type]

/-- A node without a block is printed as one fragment, which ends with a semicolon if it is told
so and is no comment. -/
theorem exists_node_of_leaf (hshaped : (l.document.node id).IsShaped)
    (hleaf : (l.document.node id).hasBlock = false) :
    ∃ text, ∀ semicolon body, p.node l id semicolon body =
      Layout.leaf id text (semicolon && l.document.type id != .comment) := by
  have hstarts := mt hshaped.block (by rw [hleaf]; exact Bool.false_ne_true)
  rw [show l.document.type id = (l.document.node id).kind.type from rfl]
  cases hkind : (l.document.node id).kind with
  | root => exact absurd (by rw [hkind]; rfl) hstarts
  | rule => exact absurd (by rw [hkind]; rfl) hstarts
  | declaration property value important =>
      have hnode (semicolon : Bool) (body : Printed) : p.node l id semicolon body =
          l.declaration id property value important (semicolon && true) := by
        rw [node, hkind, Bool.and_true]
      exact ⟨_, hnode⟩
  | comment text =>
      have hnode (semicolon : Bool) (body : Printed) : p.node l id semicolon body = Layout.leaf id
          ("/*".toList ++ l.commentLeft id ++ text ++ l.commentRight id ++ "*/".toList)
          (semicolon && false) := by
        rw [node, hkind, Bool.and_false]
        rfl
      exact ⟨_, hnode⟩
  | atRule name params =>
      have hnode (semicolon : Bool) (body : Printed) : p.node l id semicolon body =
          Layout.leaf id (l.atRuleHead id name params ++ l.between id) (semicolon && true) := by
        simp only [node, hkind, Layout.atRule, hleaf, Bool.false_eq_true, if_false, Bool.and_true]
      exact ⟨_, hnode⟩
  | other name head value =>
      have hnode (semicolon : Bool) (body : Printed) : p.node l id semicolon body = Layout.leaf id
          (head ++ l.between id ++ RawValue.written (l.document.node id).raws.value value)
          (semicolon && true) := by
        simp only [node, hkind, other_of_isGeneric hp, Layout.generic, hleaf, Bool.false_eq_true,
          if_false, Kind.head?, Kind.value?, Option.map_some, Option.getD_some, Bool.and_true]
      exact ⟨_, hnode⟩

end Printer

/-! ## Marks -/

/-- `fragment.mark?` is the node that a fragment belongs to, with the edge of the node that it
is. -/
def Fragment.mark? (fragment : Fragment) : Option (NodeId × Option Boundary) :=
  fragment.node.map (·, fragment.boundary)

/-- `doc.marks f` are the marks of the nodes of a forest, each around those of the nodes below
it. -/
def Document.marks (doc : Document) : Forest NodeId → List (NodeId × Option Boundary)
  | .nil => []
  | .cons id below rest =>
      if (doc.node id).hasBlock then
        (id, some .start) :: (doc.marks below ++ (id, some .stop) :: doc.marks rest)
      else (id, none) :: doc.marks rest

theorem Fragment.mark_mem {fragments : List Fragment} {fragment : Fragment} {id : NodeId}
    (hmem : fragment ∈ fragments) (hnode : fragment.node = some id) :
    (id, fragment.boundary) ∈ fragments.filterMap Fragment.mark? :=
  List.mem_filterMap.mpr ⟨fragment, hmem, by rw [Fragment.mark?, hnode]; rfl⟩

theorem Document.mem_of_mem_marks {doc : Document} {f : Forest NodeId}
    {mark : NodeId × Option Boundary} (h : mark ∈ doc.marks f) : mark.1 ∈ f.toList := by
  induction f with
  | nil => cases h
  | cons id below rest ihBelow ihRest =>
      rw [Forest.toList, List.mem_cons, List.mem_append]
      rw [marks] at h
      split at h
      · simp only [List.mem_cons, List.mem_append] at h
        rcases h with rfl | h | rfl | h
        · exact .inl rfl
        · exact .inr (.inl (ihBelow h))
        · exact .inl rfl
        · exact .inr (.inr (ihRest h))
      · rcases List.mem_cons.mp h with rfl | h
        · exact .inl rfl
        · exact .inr (.inr (ihRest h))

/-! ## What is printed -/

namespace Printed

/-- `p.HasMarks marks` says that printing does not fail, that the fragments which belong to a node
have these marks, and that no other fragment is an edge. -/
structure HasMarks (p : Printed) (marks : List (NodeId × Option Boundary)) : Prop where
  failure : p.failure = none
  marks : p.fragments.filterMap Fragment.mark? = marks
  plain : ∀ fragment ∈ p.fragments, fragment.node = none → fragment.boundary = none

variable {p q : Printed} {marks more : List (NodeId × Option Boundary)}

theorem hasMarks_empty : empty.HasMarks [] := ⟨rfl, rfl, List.forall_mem_nil _⟩

theorem hasMarks_one (text : Text) (id : NodeId) (edge : Option Boundary) :
    (one ⟨text, some id, edge⟩).HasMarks [(id, edge)] :=
  ⟨rfl, rfl, List.forall_mem_singleton.mpr nofun⟩

theorem hasMarks_plain (text : Text) : (one { text }).HasMarks [] :=
  ⟨rfl, rfl, List.forall_mem_singleton.mpr fun _ ↦ rfl⟩

theorem hasMarks_gap (text : Text) : (gap text).HasMarks [] := by
  cases text with
  | nil => exact hasMarks_empty
  | cons c text => exact hasMarks_plain _

theorem HasMarks.append (hp : p.HasMarks marks) (hq : q.HasMarks more) :
    (p ++ q).HasMarks (marks ++ more) := by
  rw [append_of_failure_none q hp.failure]
  exact ⟨hq.failure, by rw [List.filterMap_append, hp.marks, hq.marks],
    List.forall_mem_append.mpr ⟨hp.plain, hq.plain⟩⟩

end Printed

open Printed (hasMarks_empty hasMarks_one hasMarks_plain hasMarks_gap)

theorem Layout.hasMarks_closing (l : Layout) (id : NodeId) :
    (l.closing id).HasMarks [(id, some .stop)] := by
  have hstop (gap text : Text) :
      (Printed.gap gap ++ .one ⟨text, some id, some .stop⟩).HasMarks [(id, some .stop)] :=
    (hasMarks_gap gap).append (hasMarks_one text id (some .stop))
  unfold closing
  split
  · exact hstop _ _
  · cases (l.raws id).ownSemicolon with
    | none => exact (hstop _ _).append hasMarks_empty
    | some text => exact (hstop _ _).append (hasMarks_plain text)
  · exact hstop _ _

namespace Printer

variable {p : Printer} (hp : p.IsGeneric) {l : Layout} (hshaped : l.document.IsShaped)
include hp hshaped

/-- A node is printed with its own marks around those of its body. -/
theorem hasMarks_node (id : NodeId) (semicolon : Bool) {body : Printed} {below : Forest NodeId}
    (hbody : body.HasMarks (l.document.marks below)) :
    (p.node l id semicolon body).HasMarks (l.document.marks (.cons id below .nil)) := by
  rw [Document.marks]
  cases hblock : (l.document.node id).hasBlock with
  | true =>
      obtain ⟨head, hnode⟩ := exists_node_of_block hp (hshaped id) hblock
      rw [hnode, if_pos rfl]
      exact (hasMarks_one head id _).append (hbody.append (l.hasMarks_closing id))
  | false =>
      obtain ⟨text, hnode⟩ := exists_node_of_leaf hp (hshaped id) hblock
      rw [hnode, if_neg Bool.false_ne_true]
      exact hasMarks_one _ id none

theorem hasMarks_forest (semicolon : Bool) (f : Forest NodeId) :
    (p.forest l semicolon f).HasMarks (l.document.marks f) := by
  induction f generalizing semicolon with
  | nil => exact hasMarks_empty
  | cons id below rest ihBelow ihRest =>
      have hnode := hasMarks_node hp hshaped id (endsBefore l.document rest || semicolon)
        (ihBelow (l.semicolon id))
      have hmarks : l.document.marks (.cons id below rest) =
          [] ++ l.document.marks (.cons id below .nil) ++ l.document.marks rest := by
        simp only [Document.marks]
        split <;> simp
      rw [hmarks]
      exact ((hasMarks_gap _).append hnode).append (ihRest semicolon)

end Printer

end Stylesheet
