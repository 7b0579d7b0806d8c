import Stylesheet.Proofs.Boundaries

/-!
# Where a strict printer stops

A printer without renderers cannot write the nodes of dialects unless it is allowed to make up
how, and a strict one is not. Up to the first of these nodes it prints what any printer prints:
`Printed.StopsAt` compares two printed pieces of which one stops where the other goes on with a
fragment of the node, and it is kept by putting text of other nodes around them. `print_strict`
says where in a document that is, and that without such nodes being strict makes no difference.
-/

namespace Stylesheet

open Document (root)

/-! ## Printed pieces -/

namespace Printed

/-- `p.StopsAt e q` says that `p` fails with `e` where `q`, which does not fail, goes on with the
first fragment of the node that `e` names. -/
structure StopsAt (e : PrintError) (p q : Printed) : Prop where
  failure : p.failure = some e
  other : q.failure = none
  next : ∃ text edge rest, q.fragments = p.fragments ++ ⟨text, some e.node, edge⟩ :: rest
  avoids : ∀ fragment ∈ p.fragments, fragment.node ≠ some e.node

variable {e : PrintError} {p q r : Printed}

theorem StopsAt.prepend (h : StopsAt e p q) (hr : r.Avoids e.node) :
    StopsAt e (r ++ p) (r ++ q) := by
  obtain ⟨text, edge, rest, hnext⟩ := h.next
  rw [append_of_failure_none p hr.failure, append_of_failure_none q hr.failure]
  refine ⟨h.failure, h.other, ⟨text, edge, rest, ?_⟩,
    List.forall_mem_append.mpr ⟨hr.avoids, h.avoids⟩⟩
  rw [hnext, List.append_assoc]

/-- What would be behind the failure is not printed. -/
theorem StopsAt.append (h : StopsAt e p q) (p' : Printed) (hr : r.failure = none) :
    StopsAt e (p ++ p') (q ++ r) := by
  obtain ⟨text, edge, rest, hnext⟩ := h.next
  rw [append_of_failure p' h.failure, append_of_failure_none r h.other]
  refine ⟨h.failure, hr, ⟨text, edge, rest ++ r.fragments, ?_⟩, h.avoids⟩
  rw [hnext, List.append_assoc, List.cons_append]

end Printed

/-! ## Nodes -/

theorem Kind.exists_of_type_other {kind : Kind} (h : kind.type = .other) :
    ∃ name head value, kind = .other name head value := by
  cases kind with
  | other name head value => exact ⟨name, head, value, rfl⟩
  | _ => cases h

/-- A strict printer that has no renderers. -/
structure Printer.IsStrict (p : Printer) : Prop where
  strict : p.strict = true
  renderers : p.renderers = []

namespace Printer

variable {p q : Printer} {l : Layout} {id : NodeId}

theorem node_of_isStrict (hp : p.IsStrict) {name head value : Text}
    (hkind : (l.document.node id).kind = .other name head value) (semicolon : Bool)
    (body : Printed) : p.node l id semicolon body = .fail (.ofNode l.document id name) := by
  simp [node, hkind, other, hp.strict, hp.renderers]

/-- All printers write a node alike that is of no dialect. -/
theorem node_eq_of_ne_other (p q : Printer) (htype : l.document.type id ≠ .other)
    (semicolon : Bool) (body : Printed) :
    p.node l id semicolon body = q.node l id semicolon body := by
  unfold node
  cases hkind : (l.document.node id).kind with
  | other => exact absurd (by rw [Document.type, Node.type, hkind]; rfl) htype
  | _ => rfl

/-- Without nodes of dialects all printers write a forest alike. -/
theorem forest_eq_of_ne_other (p q : Printer) (semicolon : Bool) {f : Forest NodeId}
    (hf : ∀ id ∈ f.toList, l.document.type id ≠ .other) :
    p.forest l semicolon f = q.forest l semicolon f :=
  forest_congr (fun id hid ↦ ⟨rfl, rfl, rfl, node_eq_of_ne_other p q (hf id hid)⟩) semicolon

variable (hp : p.IsStrict) (hq : q.IsGeneric)
include hq

/-- The first fragment of what is printed of a node is its own. -/
theorem exists_first_fragment (hshaped : (l.document.node id).IsShaped) (semicolon : Bool)
    {body : Printed} (hbody : body.failure = none) :
    ∃ text edge rest, q.node l id semicolon body = ⟨⟨text, some id, edge⟩ :: rest, none⟩ := by
  cases hblock : (l.document.node id).hasBlock with
  | true =>
      obtain ⟨head, hnode⟩ := exists_node_of_block hq hshaped hblock
      rw [hnode, Printed.append_of_failure_none (p := body) _ hbody,
        (l.hasMarks_closing id).failure]
      exact ⟨_, _, _, rfl⟩
  | false =>
      obtain ⟨text, hnode⟩ := exists_node_of_leaf hq hshaped hblock
      rw [hnode]
      exact ⟨_, _, _, rfl⟩

/-- In the body of a node that is of no dialect, a strict printer stops as it does behind the
head. -/
theorem stopsAt_around (p : Printer) (hshaped : (l.document.node id).IsShaped)
    (hblock : (l.document.node id).hasBlock = true) (htype : l.document.type id ≠ .other)
    {e : PrintError} (hne : id ≠ e.node) (semicolon : Bool) {body body' : Printed}
    (hbody : Printed.StopsAt e body body') :
    Printed.StopsAt e (p.node l id semicolon body) (q.node l id semicolon body') := by
  obtain ⟨head, hnode⟩ := exists_node_of_block hq hshaped hblock
  rw [node_eq_of_ne_other p q htype, hnode, hnode]
  exact (hbody.append _ (l.hasMarks_closing id).failure).prepend
    ((Printed.hasMarks_one head id _).avoids (List.forall_mem_singleton.mpr hne))

include hp

/-- A strict printer stops at a node of a dialect. -/
theorem stopsAt_node (hshaped : (l.document.node id).IsShaped) {name head value : Text}
    (hkind : (l.document.node id).kind = .other name head value) (semicolon : Bool)
    (body : Printed) {body' : Printed} (hbody : body'.failure = none) :
    Printed.StopsAt (.ofNode l.document id name) (p.node l id semicolon body)
      (q.node l id semicolon body') := by
  obtain ⟨text, edge, rest, hnode⟩ := exists_first_fragment hq hshaped semicolon hbody
  rw [node_of_isStrict hp hkind, hnode]
  exact ⟨rfl, rfl, ⟨text, edge, rest, rfl⟩, List.forall_mem_nil _⟩

/-- A strict printer stops at the first node of a dialect in a forest. -/
theorem stopsAt_forest (hshaped : l.document.IsShaped) (semicolon : Bool)
    {f : Forest NodeId} (hnodup : f.toList.Nodup) (hblocked : (f.map l.document.node).IsBlocked)
    (hfirst : f.toList.find? (l.document.type · == .other) = some id) {name head value : Text}
    (hkind : (l.document.node id).kind = .other name head value) :
    Printed.StopsAt (.ofNode l.document id name) (p.forest l semicolon f)
      (q.forest l semicolon f) := by
  have hfailure (semicolon : Bool) (f : Forest NodeId) : (q.forest l semicolon f).failure =
      none :=
    (hasMarks_forest hq hshaped semicolon f).failure
  induction f generalizing semicolon with
  | nil => cases hfirst
  | cons top below rest ihBelow ihRest =>
      obtain ⟨htop, hnodup⟩ := List.nodup_cons.mp hnodup
      obtain ⟨hbelow, hrest, hapart⟩ := List.nodup_append.mp hnodup
      obtain ⟨hblock, hblockedBelow, hblockedRest⟩ := hblocked
      rw [Forest.toList, List.find?_cons] at hfirst
      simp only [forest]
      by_cases hother : l.document.type top = .other
      · rw [hother] at hfirst
        cases hfirst
        exact ((stopsAt_node hp hq (hshaped _) hkind _ _ (hfailure _ below)).prepend
          (Printed.avoids_gap _)).append _ (hfailure _ rest)
      · rw [beq_eq_false_iff_ne.mpr hother] at hfirst
        simp only [List.find?_append] at hfirst
        cases hin : below.toList.find? (l.document.type · == .other) with
        | some found =>
            rw [hin] at hfirst
            cases hfirst
            have hmem := List.mem_of_find?_eq_some hin
            have hne : top ≠ id := fun heq ↦ htop (List.mem_append_left _ (heq ▸ hmem))
            have hhas : (l.document.node top).hasBlock = true :=
              hblock.resolve_left (Forest.map_ne_nil_of_mem hmem)
            exact ((stopsAt_around hq p (hshaped top) hhas hother hne _
              (ihBelow _ hbelow hblockedBelow hin)).prepend (Printed.avoids_gap _)).append _
                (hfailure _ rest)
        | none =>
            rw [hin] at hfirst
            have hmem := List.mem_of_find?_eq_some hfirst
            have hne : top ≠ id := fun heq ↦ htop (List.mem_append_right _ (heq ▸ hmem))
            have hnot : id ∉ below.toList := fun hid ↦ hapart id hid id hmem rfl
            have hplain : ∀ other ∈ below.toList, l.document.type other ≠ .other :=
              fun other hother ↦
              beq_eq_false_iff_ne.mp (Bool.not_eq_true _ ▸ List.find?_eq_none.mp hin other hother)
            rw [forest_eq_of_ne_other p q _ hplain, node_eq_of_ne_other p q hother]
            exact (ihRest _ hrest hblockedRest hfirst).prepend
              ((Printed.avoids_gap _).append (avoids_node hq hshaped _ _ hne hnot))

end Printer

/-! ## Documents -/

theorem Printer.layout_eq_of_defaults {p q : Printer} (h : q.defaults = p.defaults)
    (doc : Document) (id : NodeId) : q.layout doc id = p.layout doc id := by
  rw [layout, h, layout]

namespace Document

variable {doc : Document} {p q : Printer} (hp : p.IsStrict) (hq : q.IsGeneric)
  (hdefaults : q.defaults = p.defaults) (hlinked : doc.IsLinked) (hroot : doc.type root ≠ .other)
include hdefaults hlinked hroot

/-- A document without nodes of dialects is printed alike by all printers with the same
defaults. -/
theorem print_eq_of_ne_other (h : ∀ id ∈ doc.walk root, doc.type id ≠ .other) :
    p.print doc = q.print doc := by
  have hnode (semicolon : Bool) (body : Printed) :
      p.node (p.layout doc root) root semicolon body =
        q.node (p.layout doc root) root semicolon body :=
          Printer.node_eq_of_ne_other p q hroot semicolon body
  rw [hlinked.walk_eq] at h
  simp only [Printer.print, Printer.printNode, Printer.layout_eq_of_defaults hdefaults]
  rw [Printer.forest_eq_of_ne_other p q _ h, hnode]

include hp hq

/-- A strict printer stops at the first node of a dialect in a document. -/
theorem stopsAt_print (hshaped : doc.IsShaped) {id : NodeId}
    (hfirst : (doc.walk root).find? (doc.type · == .other) = some id) {name head value : Text}
    (hkind : (doc.node id).kind = .other name head value) :
    Printed.StopsAt (.ofNode doc id name) (p.print doc) (q.print doc) := by
  have habove := hlinked.mem_walk_iff.mp (List.mem_of_find?_eq_some hfirst)
  have hne : root ≠ id := fun heq ↦ hlinked.not_ancestor_self root (heq ▸ habove)
  have hblocked : ((doc.below root).map doc.node).IsBlocked := isBlocked_grow doc _ _
  rw [hlinked.walk_eq] at hfirst
  have hbody (semicolon : Bool) : Printed.StopsAt (.ofNode doc id name)
      (p.forest (p.layout doc root) semicolon (doc.below root))
      (q.forest (p.layout doc root) semicolon (doc.below root)) :=
    Printer.stopsAt_forest (l := p.layout doc root) hp hq hshaped semicolon
      (hlinked.nodup_below root) hblocked
      hfirst hkind
  simp only [Printer.print, Printer.printNode, Printer.layout_eq_of_defaults hdefaults]
  exact Printer.stopsAt_around (l := p.layout doc root) hq p (hshaped root)
    (hlinked.hasBlock_of_ancestor habove)
    hroot hne false (hbody _)

end Document

/-- Without renderers, strict printing fails if and only if there is a node of a dialect in the
tree. The failure names the first one in document order, its kind, and where it was read from, and
what has been printed by then is what a printer that is not strict prints before the first
fragment of the node. If strict printing does not fail, being strict makes no difference. This
holds of every document that was read or started empty and has then been edited without
overwriting a kind. -/
theorem print_strict {start : Document}
    (hstart : start = .empty ∨ ∃ source mode, parse source mode = .ok start)
    (commands : List Command) (hkinds : ∀ command ∈ commands, command.setsKind = false)
    (defaults : Defaults) :
    let doc := Command.run commands start
    let strict := ({ strict := true, defaults } : Printer).print doc
    let lenient := ({ defaults } : Printer).print doc
    (strict.failure.isSome = true ↔ ∃ id ∈ doc.walk root, doc.type id = .other) ∧
      (∀ id name head value, (doc.walk root).find? (doc.type · == .other) = some id →
        (doc.node id).kind = .other name head value →
          strict.failure = some ⟨name, id, (doc.node id).origin.map (·.start),
            (doc.node id).origin.bind fun _ ↦ doc.source.file⟩ ∧
          (∃ text edge rest, lenient.fragments =
            strict.fragments ++ ⟨text, some id, edge⟩ :: rest) ∧
          ∀ fragment ∈ strict.fragments, fragment.node ≠ some id) ∧
      (strict.failure = none → strict = lenient) := by
  intro doc strict lenient
  have hlinked : doc.IsLinked := Command.isLinked_run (isLinked_of_start hstart) commands
  have hshaped : doc.IsShaped := isShaped_of_run hstart hkinds
  have hroot : doc.type root ≠ .other := by
    rw [type_root_of_run hstart hkinds]
    exact nofun
  have hstops {id : NodeId} (hfirst : (doc.walk root).find? (doc.type · == .other) = some id)
      {name head value : Text} (hkind : (doc.node id).kind = .other name head value) :
      Printed.StopsAt (.ofNode doc id name) strict lenient :=
    Document.stopsAt_print (p := { strict := true, defaults }) (q := { defaults }) ⟨rfl, rfl⟩
      ⟨rfl, rfl⟩ rfl
      hlinked hroot hshaped hfirst hkind
  have hsame (h : ∀ id ∈ doc.walk root, doc.type id ≠ .other) : strict = lenient :=
    Document.print_eq_of_ne_other rfl hlinked hroot h
  have hlenient : lenient.failure = none := (Printer.hasMarks_print ⟨rfl, rfl⟩ hshaped).failure
  have hfails {id : NodeId} (hid : id ∈ doc.walk root) (hother : doc.type id = .other) :
      strict.failure.isSome = true := by
    obtain ⟨first, hfirst⟩ : ∃ first, (doc.walk root).find? (doc.type · == .other) = some first :=
      Option.isSome_iff_exists.mp (List.find?_isSome.mpr ⟨id, hid, beq_iff_eq.mpr hother⟩)
    have hfound : doc.type first = .other := by simpa using List.find?_some hfirst
    obtain ⟨name, head, value, hkind⟩ := Kind.exists_of_type_other hfound
    rw [(hstops hfirst hkind).failure]
    rfl
  refine ⟨⟨fun hfailure ↦ ?_, fun ⟨id, hid, hother⟩ ↦ hfails hid hother⟩,
    fun id name head value hfirst hkind ↦ ?_, fun hnone ↦ hsame fun id hid hother ↦ ?_⟩
  · by_contra hnone
    rw [hsame fun id hid hother ↦ hnone ⟨id, hid, hother⟩, hlenient] at hfailure
    cases hfailure
  · have h := hstops hfirst hkind
    exact ⟨h.failure, h.next, h.avoids⟩
  · have hfailure := hfails hid hother
    rw [hnone] at hfailure
    cases hfailure

/-- Behind a declaration there are two nodes of dialects. The first one is refused, at the place
of the declaration that it was made from. -/
theorem print_strict_dialect :
    ∃ start, parse ⟨"a\x7b b: c \x7d".toList, some "d"⟩ .strict = .ok start ∧
      let doc := Command.run [.create (.other ['e'] ['f'] ['g']), .append 1 3, .copyOrigin 3 2,
        .create (.other ['h'] ['i'] ['j']), .append 0 4] start
      (({ strict := true } : Printer).print doc).failure =
        some ⟨['e'], 3, some ⟨1, 4, 3⟩, some "d"⟩ ∧
          ∃ text edge rest, (({} : Printer).print doc).fragments =
          (({ strict := true } : Printer).print doc).fragments ++
            ⟨text, some 3, edge⟩ :: rest := by
  have h {start : Document}
      (hparse : parse ⟨"a\x7b b: c \x7d".toList, some "d"⟩ .strict = .ok start)
      {commands : List Command} (hkinds : ∀ command ∈ commands, command.setsKind = false)
      (hfirst : ((Command.run commands start).walk root).find?
        ((Command.run commands start).type · == .other) = some 3)
      (hkind : ((Command.run commands start).node 3).kind = .other ['e'] ['f'] ['g'])
      (horigin : ((Command.run commands start).node 3).origin.map (·.start) = some ⟨1, 4, 3⟩)
      (hfile : (((Command.run commands start).node 3).origin.bind
        fun _ ↦ (Command.run commands start).source.file) = some "d") :
      (({ strict := true } : Printer).print (Command.run commands start)).failure =
          some ⟨['e'], 3, some ⟨1, 4, 3⟩, some "d"⟩ ∧
        ∃ text edge rest, (({} : Printer).print (Command.run commands start)).fragments =
          (({ strict := true } : Printer).print (Command.run commands start)).fragments ++
            ⟨text, some 3, edge⟩ :: rest := by
    obtain ⟨hfailure, hnext, -⟩ :=
      (print_strict (.inr ⟨_, _, hparse⟩) commands hkinds {}).2.1 3 _ _ _ hfirst hkind
    rw [horigin, hfile] at hfailure
    exact ⟨hfailure, hnext⟩
  exact ⟨_, rfl,
    h rfl (by decide) (by decide +kernel) (by decide +kernel) (by decide +kernel)
    (by decide +kernel)⟩

end Stylesheet
