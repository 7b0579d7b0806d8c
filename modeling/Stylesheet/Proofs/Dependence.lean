import Stylesheet.Proofs.Blocks
import Stylesheet.Proofs.Layouts
import Stylesheet.Proofs.Marks

/-!
# What a printed document depends on

A printer without renderers writes a node from its kind, its block and what is recorded of its
form; damage, extra texts and the place that the node was read from do not show. So two layouts
that agree on a part of two documents (`Layout.AlikeIn`) print the nodes of the part alike. The
attached nodes are such a part, as no link leads out of them, and `print_of_sameTree` says that
nothing else of a document shows when it is printed.
-/

namespace Stylesheet

/-- `r.form` is all of the recorded layout but the damage and the extra texts. -/
def Raws.form (r : Raws) : Raws := { r with damage := [], extra := [] }

/-- `n.SameForm m` says that the nodes are of the same kind, linked in the same way and written
alike. They may differ in their damage, in their extra texts and in where they were read from. -/
structure Node.SameForm (n m : Node) : Prop where
  kind : m.kind = n.kind
  parent : m.parent = n.parent
  children : m.children = n.children
  raws : m.raws.form = n.raws.form

namespace Node.SameForm

variable {n m : Node}

theorem refl (n : Node) : n.SameForm n := ⟨rfl, rfl, rfl, rfl⟩

variable (h : n.SameForm m)
include h

theorem sameLayout : n.SameLayout m :=
  ⟨congrArg Kind.type h.kind, h.parent, h.children, congrArg (·.layout) h.raws⟩

theorem selector : m.raws.selector = n.raws.selector := congrArg (·.selector) h.raws

theorem params : m.raws.params = n.raws.params := congrArg (·.params) h.raws

theorem value : m.raws.value = n.raws.value := congrArg (·.value) h.raws

theorem important : m.raws.important = n.raws.important := congrArg (·.important) h.raws

theorem afterName : m.raws.afterName = n.raws.afterName := congrArg (·.afterName) h.raws

end Node.SameForm

instance (n m : Node) : Decidable (n.SameForm m) :=
  decidable_of_iff
    (m.kind = n.kind ∧ m.parent = n.parent ∧ m.children = n.children ∧ m.raws.form = n.raws.form)
    ⟨fun ⟨kind, parent, children, raws⟩ ↦ ⟨kind, parent, children, raws⟩,
      fun h ↦ ⟨h.kind, h.parent, h.children, h.raws⟩⟩

/-! ## Alike parts of two documents -/

/-- `l.AlikeIn part m` says that the nodes of a part have the same form in the documents of two
layouts, and that the layouts agree on them. -/
structure Layout.AlikeIn (part : NodeId → Prop) (l m : Layout) : Prop where
  agrees : l.AgreesIn part m
  node : ∀ {id}, part id → (l.document.node id).SameForm (m.document.node id)

namespace Printer

/-- `WritesAlike p l q m id` says that `q` with the layout `m` writes a node as `p` does with `l`,
around any body, before any sibling and above any children. -/
structure WritesAlike (p : Printer) (l : Layout) (q : Printer) (m : Layout)
    (id : NodeId) : Prop where
  type : m.document.type id = l.document.type id
  before : m.before id = l.before id
  semicolon : m.semicolon id = l.semicolon id
  node : ∀ semicolon body, q.node m id semicolon body = p.node l id semicolon body

theorem endsBefore_congr {doc other : Document} {f : Forest NodeId}
    (hf : ∀ id ∈ f.toList, other.type id = doc.type id) :
    endsBefore other f = endsBefore doc f := by
  rw [Bool.eq_iff_iff, endsBefore, endsBefore, List.any_eq_true, List.any_eq_true]
  refine exists_congr fun id ↦ and_congr_right fun hid ↦ ?_
  rw [hf id (Forest.mem_toList_of_mem_tops hid)]

/-- Forests of nodes that are written alike are written alike. -/
theorem forest_congr {p q : Printer} {l m : Layout} {f : Forest NodeId}
    (hf : ∀ id ∈ f.toList, WritesAlike p l q m id) (semicolon : Bool) :
    q.forest m semicolon f = p.forest l semicolon f := by
  induction f generalizing semicolon with
  | nil => rfl
  | cons id below rest ihBelow ihRest =>
      obtain ⟨hid, hrest⟩ := List.forall_mem_cons.mp hf
      obtain ⟨hbelow, hrest⟩ := List.forall_mem_append.mp hrest
      have hends := endsBefore_congr fun other hother ↦ (hrest other hother).type
      simp only [forest, hid.before, hid.semicolon, hid.node, hends, ihBelow hbelow, ihRest hrest]

variable {p : Printer} (hp : p.IsGeneric) {part : NodeId → Prop} {l m : Layout}
  (h : l.AlikeIn part m)
include hp h

/-- A node of a part is printed alike around the same body. -/
theorem node_eq_of_alikeIn {id : NodeId} (hid : part id) (semicolon : Bool) (body : Printed) :
    p.node m id semicolon body = p.node l id semicolon body := by
  have hform := h.node hid
  have hkind := hform.kind
  have hblock := hform.sameLayout.hasBlock
  have hbetween := h.agrees.between hid
  have hafter := h.agrees.after hid
  unfold node
  rw [hkind]
  cases (l.document.node id).kind with
  | root => simp only [Layout.root, Layout.raws, hform.sameLayout.after]
  | rule selector =>
      simp only [Layout.rule, Layout.block, Layout.raws, hform.selector, hbetween, hafter,
        hform.sameLayout.ownSemicolon]
  | atRule name params =>
      have hhead : m.atRuleHead id name params = l.atRuleHead id name params := by
        rw [Layout.atRuleHead, Layout.atRuleHead, Layout.raws, Layout.raws, hform.params,
          hform.afterName]
      simp only [Layout.atRule, Layout.block, hhead, hbetween, hafter, hblock]
  | declaration property value important =>
      simp only [Layout.declaration, Layout.raws, hform.value, hform.important, hbetween]
  | comment text =>
      simp only [Layout.comment, h.agrees.commentLeft hid, h.agrees.commentRight hid]
  | other name head value =>
      simp only [other_of_isGeneric hp, Layout.generic, Layout.block, hkind, hform.value, hblock,
        hbetween, hafter]

/-- Forests of nodes of a part are printed alike. -/
theorem forest_eq_of_alikeIn (semicolon : Bool) {f : Forest NodeId}
    (hf : ∀ id ∈ f.toList, part id) : p.forest m semicolon f = p.forest l semicolon f :=
  forest_congr (fun id hid ↦
    ⟨(h.node (hf id hid)).sameLayout.type, h.agrees.before (hf id hid),
      h.agrees.semicolon (hf id hid), node_eq_of_alikeIn hp h (hf id hid)⟩) semicolon

end Printer

/-! ## Attached nodes -/

/-- `doc.SameTree other` says that two documents have the same number of nodes and that their
attached nodes have the same form. -/
structure Document.SameTree (doc other : Document) : Prop where
  size : other.size = doc.size
  node : ∀ id, doc.isAttached id = true → (doc.node id).SameForm (other.node id)

namespace Document

variable {doc other : Document}

/-- No link leads out of the attached nodes. -/
theorem SameTree.sameLayoutIn (h : doc.SameTree other) (hlinked : doc.IsLinked) :
    doc.SameLayoutIn (fun id ↦ doc.isAttached id = true) other where
  size := h.size
  node hid := (h.node _ hid).sameLayout
  parent_mem := hlinked.isAttached_parent
  child_mem := hlinked.isAttached_child

/-- Documents with the same tree are printed alike. -/
theorem SameTree.print_eq (h : doc.SameTree other) (hlinked : doc.IsLinked) {p : Printer}
    (hp : p.IsGeneric) : p.print other = p.print doc := by
  have hroot := doc.isAttached_root
  have hsame := h.sameLayoutIn hlinked
  have halike : (p.layout doc root).AlikeIn (fun id ↦ doc.isAttached id = true)
      (p.layout other root) :=
    ⟨hsame.agrees_layout p hroot, fun hid ↦ h.node _ hid⟩
  obtain ⟨hbelow, hattached⟩ := hsame.below hroot
  unfold Printer.print Printer.printNode
  dsimp only
  rw [hbelow, halike.agrees.semicolon hroot, Printer.forest_eq_of_alikeIn hp halike _ hattached,
    Printer.node_eq_of_alikeIn hp halike hroot]

end Document

/-- Of a document that was read or started empty and has then been edited in any way, only the
attached nodes are printed: any document with the same number of nodes whose attached nodes have
the same form is printed in the same fragments, whatever its other nodes, its source, its mode and
its repairs are. -/
theorem print_of_sameTree {start : Document}
    (hstart : start = .empty ∨ ∃ source mode, parse source mode = .ok start)
    (commands : List Command) {other : Document} (h : (Command.run commands start).SameTree other)
    (defaults : Defaults) :
    ({ defaults } : Printer).print other =
      ({ defaults } : Printer).print (Command.run commands start) :=
  h.print_eq (Command.isLinked_run (isLinked_of_start hstart) commands) ⟨rfl, rfl⟩

/-- A comment that was taken out and a rule that was never put in, a repair, an extra text and
another source do not show. -/
theorem print_of_sameTree_rule :
    ∃ start second, parse ⟨"a\x7b b: c \x7d/*d*/".toList, none⟩ .strict = .ok start ∧
      parse ⟨"a\x7b b: c \x7d".toList, some "e"⟩ .tolerant = .ok second ∧
      ({} : Printer).print
      (Command.run [.create (.rule ['f']), .recover ⟨.missingValue, "", .start, some 1⟩,
          .setRaws 2 (fun raws ↦ { raws with extra := [("g", ['h'])] })] second) =
        ({} : Printer).print (Command.run [.remove 3] start) := by
  have h {start other : Document}
      (hparse : parse ⟨"a\x7b b: c \x7d/*d*/".toList, none⟩ .strict = .ok start)
      (hsize : (Command.run [.remove 3] start).size = 4) (hother : other.size = 4)
      (hroot : ((Command.run [.remove 3] start).node 0).SameForm (other.node 0))
      (hrule : ((Command.run [.remove 3] start).node 1).SameForm (other.node 1))
      (hleaf : ((Command.run [.remove 3] start).node 2).SameForm (other.node 2))
      (hremoved : (Command.run [.remove 3] start).isAttached 3 = false) :
      ({} : Printer).print other = ({} : Printer).print (Command.run [.remove 3] start) := by
    have hlinked := Command.isLinked_run (isLinked_of_start (.inr ⟨_, _, hparse⟩)) [.remove 3]
    refine print_of_sameTree (.inr ⟨_, _, hparse⟩) [.remove 3] ⟨hother.trans hsize.symm,
      fun id hid ↦ ?_⟩ {}
    have hlt : id < 4 := by
      rcases hlinked.isAttached_iff.mp hid with rfl | habove
      · exact Nat.zero_lt_succ _
      · exact Nat.lt_of_lt_of_eq habove.lt_size hsize
    match id, hlt with
    | 0, _ => exact hroot
    | 1, _ => exact hrule
    | 2, _ => exact hleaf
    | 3, _ => exact absurd hid (hremoved ▸ Bool.false_ne_true)
  exact ⟨_, _, rfl, rfl,
    h rfl rfl rfl (by decide +kernel) (by decide +kernel) (by decide +kernel) rfl⟩

end Stylesheet
