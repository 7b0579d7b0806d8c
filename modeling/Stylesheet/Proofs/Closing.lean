import Stylesheet.Proofs.Determined
import Stylesheet.Proofs.Nesting

/-!
# The text of a repaired document

At the end of the text tolerant assembly closes what is open. A comment gets its end, and each
open block a closing brace. `print_of_nest` says that nothing else changes the text, if no closing
brace is left over and no semicolon is missed: the document is printed as what is written for its
statements and one brace for each block that is open behind them.

A block that is closed at the end has not recorded whether a semicolon ends its contents, unless
it is the innermost one. It ends with a block, so that this does not matter (`Node.IsKept`).
-/

namespace Stylesheet

/-! ## Nodes that are printed as they are spelled -/

/-- A node has recorded all that it is printed from. Whether a semicolon ends its contents is not
needed if the last node in it takes none. -/
structure Node.IsKept (n : Node) (below : Forest Node) : Prop where
  recorded : n.IsRecorded .nil
  semicolon : below.awaits = true → n.raws.semicolon.isSome = true

theorem Node.IsRecorded.isKept {n : Node} {below : Forest Node} (h : n.IsRecorded below) :
    n.IsKept below :=
  ⟨⟨h.before, h.between, h.edges, h.afterName, h.after, nofun, nofun, h.plain, h.rule, h.leaf⟩,
    h.isDetermined.semicolon⟩

/-- A node that takes no semicolon is spelled the same whether one is asked for or not. -/
theorem Node.spell_of_takesSemicolon {n : Node} (h : n.IsRecorded .nil)
    (htakes : n.takesSemicolon = false) (first second : Bool) (body : Text) :
    n.spell first body = n.spell second body := by
  cases hblock : n.hasBlock with
  | true => exact Node.spell_of_hasBlock hblock first second body
  | false =>
      have hcomment : n.type = .comment := by
        rw [Node.takesSemicolon, hblock] at htakes
        have hrule := mt h.rule (by rw [hblock]; exact Bool.false_ne_true)
        have hplain := h.plain
        generalize n.type = type at htakes hrule hplain ⊢
        cases type <;> simp_all
      rw [Node.spell_of_comment hcomment hblock, Node.spell_of_comment hcomment hblock]

namespace Forest

/-- Whether a semicolon ends a forest matters only if its last tree can have one. -/
theorem spell_of_awaits {f : Forest Node} (h : f.Each Node.IsKept) {first second : Bool}
    (hflag : f.awaits = true → first = second) : f.spell first = f.spell second := by
  induction f with
  | nil => rfl
  | cons n below rest _ ih =>
      obtain ⟨hn, -, hrest⟩ := h
      rw [spell, spell, ih hrest fun hawaits ↦ hflag (by simp [awaits, hawaits])]
      congr 1
      cases hends : rest.endsBefore with
      | true => rfl
      | false =>
          cases htakes : n.takesSemicolon with
          | false => exact Node.spell_of_takesSemicolon hn.recorded htakes _ _ _
          | true => rw [hflag (by simp [awaits, hends, htakes])]

theorem each_isKept_map_stripped {f : Forest Node} :
    (f.map Node.stripped).Each Node.IsKept ↔ f.Each Node.IsKept := by
  have hnode {n : Node} {below : Forest Node} :
      n.stripped.IsKept (below.map Node.stripped) ↔ n.IsKept below := by
    have hrecorded : n.stripped.IsRecorded .nil ↔ n.IsRecorded .nil := by
      constructor <;> intro h
      · exact ⟨h.before, h.between, h.edges, h.afterName,
          fun hblock ↦ h.after (n.hasBlock_stripped.trans hblock), nofun, nofun, h.plain,
          fun htype ↦ n.hasBlock_stripped.symm.trans (h.rule htype),
          fun htype ↦ n.hasBlock_stripped.symm.trans (h.leaf htype)⟩
      · exact ⟨h.before, h.between, h.edges, h.afterName,
          fun hblock ↦ h.after (n.hasBlock_stripped.symm.trans hblock), nofun, nofun, h.plain,
          fun htype ↦ n.hasBlock_stripped.trans (h.rule htype),
          fun htype ↦ n.hasBlock_stripped.trans (h.leaf htype)⟩
    constructor
    · exact fun h ↦ ⟨hrecorded.mp h.recorded,
        fun hawaits ↦ h.semicolon ((awaits_map_stripped below).trans hawaits)⟩
    · exact fun h ↦ ⟨hrecorded.mpr h.recorded,
        fun hawaits ↦ h.semicolon ((awaits_map_stripped below).symm.trans hawaits)⟩
  rw [each_map]
  exact ⟨Each.imp fun _ _ ↦ hnode.mp, Each.imp fun _ _ ↦ hnode.mpr⟩

theorem spell_map_stripped (semicolon : Bool) (f : Forest Node) :
    (f.map Node.stripped).spell semicolon = f.spell semicolon := by
  have hmap : f.map Node.stripped = (f.map Node.unlinked).map Node.undamaged := by
    rw [map_map]
    rfl
  rw [hmap, spell_map_undamaged, spell_map_unlinked]

end Forest

/-- `doc.Keeps f` says that the trees `f` are below the root of a document, and that the root and
all of their nodes have recorded what they are printed from. -/
structure Document.Keeps (doc : Document) (f : Forest NodeId) : Prop where
  unfolds : doc.Unfolds (doc.children root) f
  size : f.size ≤ doc.size
  kind : (doc.node root).kind = .root
  nodes : (f.map doc.node).Each Node.IsKept
  semicolon : (f.map doc.node).awaits = true → (doc.node root).raws.semicolon.isSome = true

namespace Printer

variable (p : Printer) {l : Layout} {doc : Document} {f : Forest NodeId}

theorem prints_forest_of_kept (semicolon : Bool) (f : Forest NodeId)
    (h : (f.map l.document.node).Each Node.IsKept) :
    (p.forest l semicolon f).Prints ((f.map l.document.node).spell semicolon) := by
  induction f generalizing semicolon with
  | nil => exact Printed.prints_empty
  | cons id below rest ihBelow ihRest =>
      obtain ⟨hnode, hbelow, hrest⟩ := h
      have hends := endsBefore_eq l.document rest
      have hbody : (p.forest l (l.semicolon id) below).Prints
          ((below.map l.document.node).spell
            ((l.document.node id).raws.semicolon.getD false)) := by
        have hbody := ihBelow (l.semicolon id) hbelow
        rwa [Forest.spell_of_awaits hbelow fun hawaits ↦
          Layout.semicolon_eq rfl (hnode.semicolon hawaits)] at hbody
      have hgap := Printed.prints_gap (l.document.node id).before
      have h := (hgap.append (p.prints_node (endsBefore l.document rest || semicolon) rfl
        hnode.recorded hbody)).append (ihRest semicolon hrest)
      simp only [forest, Layout.before_eq rfl hnode.recorded.before, Forest.map,
        Forest.spell, Node.spell]
      rw [hends] at h ⊢
      simpa using h

/-- A document whose nodes have recorded what they are printed from is printed as its forest is
spelled. -/
theorem prints_of_keeps (h : doc.Keeps f) :
    (p.print doc).Prints
      ((f.map doc.node).spell ((doc.node Document.root).raws.semicolon.getD false) ++
        (doc.node Document.root).raws.after.getD []) := by
  unfold print printNode
  rw [Document.below_eq_of_unfolds h.unfolds h.size]
  generalize hlayout : p.layout doc Document.root = l
  have hdocument : l.document = doc := by
    rw [← hlayout]
    rfl
  subst hdocument
  have hbody := p.prints_forest_of_kept (l.semicolon Document.root) f h.nodes
  rw [Forest.spell_of_awaits h.nodes fun hawaits ↦
    Layout.semicolon_eq rfl (h.semicolon hawaits)] at hbody
  have h' := ((Printed.prints_one ⟨[], some Document.root, some .start⟩).append hbody).append
    (Printed.prints_gap ((l.document.node Document.root).raws.after.getD [])) |>.append
    (Printed.prints_one ⟨[], some Document.root, some .stop⟩)
  simp only [node, h.kind, Layout.root, Layout.raws]
  simpa using h'

end Printer

/-! ## Containers that are closed at the end -/

/-- `n.reopened` is the node of a container without the text before its end. -/
def Node.reopened (n : Node) : Node := n.mapRaws fun raws ↦ { raws with after := none }

namespace Frame

/-- A container other than the outermost one has recorded what it is closed with. -/
structure IsShut (f : Frame) : Prop where
  inner : f.node.reopened.IsInner
  done : f.IsDone
  kept : (Forest.ofRev f.earlier).Each Node.IsKept

/-- The root has recorded what it ends with. -/
structure IsShutRoot (f : Frame) : Prop where
  kind : f.node.kind = .root
  done : f.IsDone
  kept : (Forest.ofRev f.earlier).Each Node.IsKept

/-- `f.shutText` is the text of a container up to its end. -/
def shutText (f : Frame) : Text :=
  f.opening ++ f.body (f.node.raws.semicolon.getD false) ++ f.node.raws.after.getD []

variable {f outer : Frame} {enclosing : List Frame}

theorem IsRecorded.each_isKept (h : f.IsRecorded) : (Forest.ofRev f.earlier).Each Node.IsKept :=
  h.imp fun _ _ hn ↦ hn.isKept

/-- A container whose end is recorded is shut. -/
theorem shut_settle (h : f.IsNested enclosing) (semicolon : Bool) (spaces : Text) :
    (enclosing ≠ [] → (f.settle semicolon spaces).IsShut) ∧
      (enclosing = [] → (f.settle semicolon spaces).IsShutRoot) ∧
      (f.settle semicolon spaces).shutText = f.opening ++ f.body semicolon ++ spaces := by
  have hafter : f.node.raws.after = none := by
    cases enclosing with
    | nil => exact h.1.after
    | cons => exact h.1.after
  obtain ⟨flag, hsettle, hflag⟩ := settle_eq hafter semicolon spaces
  have hkept := h.isRecorded.each_isKept
  have hdone : (f.settle semicolon spaces).IsDone := by
    rw [hsettle]
    refine ⟨rfl, fun hawaits ↦ ?_⟩
    have hne : f.earlier ≠ [] := by
      intro hnil
      rw [hnil] at hawaits
      cases hawaits
    exact congrArg Option.isSome (hflag hne)
  have hearlier : (f.settle semicolon spaces).earlier = f.earlier := by rw [hsettle]
  refine ⟨fun hne ↦ ?_, fun hnil ↦ ?_, ?_⟩
  · obtain ⟨outer, enclosing, rfl⟩ := List.exists_cons_of_ne_nil hne
    refine ⟨?_, hdone, hearlier ▸ hkept⟩
    rw [hsettle]
    have hinner := h.1
    exact ⟨hinner.block, hinner.container, hinner.before, hinner.between, hinner.afterName, rfl,
      hinner.ownSemicolon⟩
  · subst hnil
    exact ⟨by rw [hsettle]; exact h.1.kind, hdone, hearlier ▸ hkept⟩
  · rw [hsettle]
    show f.opening ++ (Forest.ofRev f.earlier).spell (flag.getD false) ++ spaces = _
    rw [spell_of_flag hflag]

/-- A container that is shut becomes a node that is kept. -/
theorem IsShut.isKept (h : f.IsShut) (a : Assembly) (stop : Nat) :
    (a.stopNode stop f.node).IsKept (Forest.ofRev f.earlier) := by
  have hinner := h.inner
  have hroot : f.node.type ≠ .root := hinner.ne_root
  have hother : f.node.type ≠ .other := hinner.ne_other
  have hcomment : f.node.type ≠ .comment := hinner.ne_comment
  have hdeclaration : f.node.type ≠ .declaration := hinner.ne_declaration
  exact ⟨⟨hinner.before, fun _ ↦ hinner.between, fun htype ↦ absurd htype hcomment,
    hinner.afterName, fun _ ↦ h.done.after, nofun, nofun, ⟨hroot, hother⟩, fun _ ↦ hinner.block,
    fun htype ↦ htype.elim (absurd · hdeclaration) (absurd · hcomment)⟩, h.done.semicolon⟩

/-- A container that is shut is spelled up to its end, and then closed. -/
theorem IsShut.spell (h : f.IsShut) (a : Assembly) (stop : Nat) (semicolon : Bool) :
    (a.stopNode stop f.node).spell semicolon ((Forest.ofRev f.earlier).spell
        ((a.stopNode stop f.node).raws.semicolon.getD false)) = f.shutText ++ ['\x7d'] := by
  have hinner := h.inner
  have hclosing : (a.stopNode stop f.node).closing = f.node.raws.after.getD [] ++ ['\x7d'] := by
    have hown : f.node.raws.ownSemicolon = none := hinner.ownSemicolon
    show f.node.raws.after.getD [] ++ '\x7d' ::
      (if _ then f.node.raws.ownSemicolon.getD [] else []) = _
    rw [hown, Option.getD_none, ite_self]
  rw [shutText, opening_of_ne_root hinner.ne_root, Node.spell, Node.ending,
    if_pos (by exact hinner.block), hclosing]
  show f.node.before ++ f.node.head ++
    ('\x7b' :: f.body (f.node.raws.semicolon.getD false) ++ _) = _
  simp [List.append_assoc]

/-- A container that is shut is closed in the one around it, which it shuts. -/
theorem IsShut.close (h : f.IsShut) (houter : outer.IsNested enclosing) (a : Assembly)
    (stop : Nat) :
    let closed := (outer.adopt (f.mapNode (a.stopNode stop)).tree).addAfter []
    (enclosing ≠ [] → closed.IsShut) ∧ (enclosing = [] → closed.IsShutRoot) ∧
      closed.shutText = outer.opening ++ outer.body true ++ f.shutText ++ ['\x7d'] := by
  have hnode := h.isKept a stop
  have hopened : (a.stopNode stop f.node).IsOpened :=
    ⟨h.inner.block, h.inner.container, h.inner.before, h.inner.between⟩
  have hawaits := outer.awaits_adopt hopened (Forest.ofRev f.earlier)
  let closed := (outer.adopt (f.mapNode (a.stopNode stop)).tree).addAfter []
  have hdone : closed.IsDone := ⟨rfl, fun h ↦ absurd (hawaits.symm.trans h) Bool.false_ne_true⟩
  have hkept : (Forest.ofRev closed.earlier).Each Node.IsKept :=
    Forest.each_ofRev_cons.mpr ⟨houter.isRecorded.each_isKept, hnode, h.kept⟩
  have hafter : outer.node.raws.after = none := by
    cases enclosing with
    | nil => exact houter.1.after
    | cons => exact houter.1.after
  refine ⟨fun hne ↦ ?_, fun hnil ↦ ?_, ?_⟩
  · obtain ⟨next, enclosing, rfl⟩ := List.exists_cons_of_ne_nil hne
    have hinner := houter.1
    exact ⟨⟨hinner.block, hinner.container, hinner.before, hinner.between, hinner.afterName, rfl,
      hinner.ownSemicolon⟩, hdone, hkept⟩
  · subst hnil
    exact ⟨houter.1.kind, hdone, hkept⟩
  · have hcomment : ((a.stopNode stop f.node).type != .comment) = true := by
      have hne : f.node.type ≠ .comment := h.inner.ne_comment
      exact bne_iff_ne.mpr hne
    have hbody (semicolon : Bool) :
        (outer.adopt (f.mapNode (a.stopNode stop)).tree).body semicolon =
          outer.body true ++ (f.shutText ++ ['\x7d']) := by
      rw [body_adopt]
      show outer.body ((a.stopNode stop f.node).type != .comment || semicolon) ++
        (a.stopNode stop f.node).spell semicolon ((Forest.ofRev f.earlier).spell
          ((a.stopNode stop f.node).raws.semicolon.getD false)) = _
      rw [hcomment, Bool.true_or, h.spell]
    have hshut : closed.shutText = outer.opening ++
        (outer.adopt (f.mapNode (a.stopNode stop)).tree).body
          (outer.node.raws.semicolon.getD false) ++ (outer.node.raws.after.getD [] ++ []) := rfl
    show closed.shutText = _
    rw [hshut, hbody, hafter]
    simp [List.append_assoc]

end Frame

namespace Assembly

variable {a b : Assembly}

/-- Closing what is still open closes the innermost container first. -/
theorem exists_closeOpen {outer : Frame} {enclosing : List Frame}
    (h : a.closeOpen (outer :: enclosing) = .ok b) :
    ∃ c : Assembly, c.current =
        (outer.adopt (a.current.mapNode (a.stopNode a.source.size)).tree).addAfter [] ∧
      c.closeOpen enclosing = .ok b := by
  unfold closeOpen at h
  cases enclosing with
  | nil => exact ⟨_, rfl, h⟩
  | cons next more =>
      obtain ⟨c, hc, h⟩ := bind_eq_ok.mp h
      obtain ⟨recovery, rfl⟩ := report_eq_ok hc
      exact ⟨_, rfl, h⟩

/-- Closing what is still open adds a closing brace for each open block. -/
theorem shutText_closeOpen {enclosing : List Frame} (hshut : enclosing ≠ [] → a.current.IsShut)
    (hroot : enclosing = [] → a.current.IsShutRoot)
    (hnested : ∀ outer more, enclosing = outer :: more → outer.IsNested more)
    (h : a.closeOpen enclosing = .ok b) :
    b.current.IsShutRoot ∧ b.current.shutText =
      around enclosing ++ a.current.shutText ++ List.replicate enclosing.length '\x7d' := by
  induction enclosing generalizing a with
  | nil =>
      cases h
      exact ⟨hroot rfl, by simp [around]⟩
  | cons outer enclosing ih =>
      have houter := hnested outer enclosing rfl
      obtain ⟨hinner, houtermost, htext⟩ :=
        (hshut (List.cons_ne_nil _ _)).close houter a a.source.size
      have hmore : ∀ next more, enclosing = next :: more → next.IsNested more := by
        rintro next more rfl
        exact houter.2.2
      obtain ⟨c, hc, h⟩ := exists_closeOpen h
      rw [← hc] at hinner houtermost htext
      obtain ⟨hdone, hwritten⟩ := ih hinner houtermost hmore h
      refine ⟨hdone, ?_⟩
      rw [hwritten, htext, around, List.length_cons, List.replicate_succ]
      simp [List.append_assoc]

/-- An assembly that is whole ends with a root that is spelled as what has been read, with a
closing brace for each open block. -/
theorem shutText_finish {run : TokenRun} (hwhole : a.quiet.IsWhole) (h : a.finish run = .ok b) :
    b.current.IsShutRoot ∧ b.current.shutText =
      a.quiet.written ++ List.replicate a.enclosing.length '\x7d' := by
  obtain ⟨c, d, hquiet, hd, hb, -⟩ := finish_quiet h
  have hnested : c.current.IsNested c.enclosing := by
    have hnested := hwhole.nested
    rw [← hquiet] at hnested
    exact hnested
  obtain ⟨hshut, hroot, htext⟩ := Frame.shut_settle hnested c.semicolon c.spaces
  have hmore : ∀ outer more, c.enclosing = outer :: more → outer.IsNested more := by
    intro outer more henclosing
    rw [henclosing] at hnested
    exact hnested.2.2
  obtain ⟨hdone, hwritten⟩ := shutText_closeOpen hshut hroot hmore hd
  have hcurrent : b.current = d.current.mapNode (Node.stopAt (d.source.position d.source.size)) :=
    congrArg (·.current) hb
  have hquietText : a.quiet.written = c.quiet.written := by rw [hquiet]
  have hlength : a.enclosing.length = c.enclosing.length :=
    congrArg List.length (congrArg (·.enclosing) hquiet).symm
  rw [hcurrent]
  refine ⟨⟨hdone.kind, ⟨hdone.done.after, hdone.done.semicolon⟩, hdone.kept⟩, ?_⟩
  have hstopped : (d.current.mapNode (Node.stopAt (d.source.position d.source.size))).shutText =
      d.current.shutText := rfl
  rw [hstopped, hwritten, htext, hquietText, hlength]
  show _ = around c.enclosing ++ c.current.opening ++ c.current.body c.semicolon ++ c.spaces ++ _
  simp [List.append_assoc]

/-- A document whose root is shut is printed as the root is spelled. -/
theorem prints_document {source : Source} {mode : Mode} (h : assemble source mode = .ok a)
    (hshut : a.current.IsShutRoot) (p : Printer) :
    (p.print a.document).Prints a.current.shutText := by
  obtain ⟨hunfolds, hsize, hroot, hnodes⟩ := (isMade_of_assemble h).unfolds_document
  rw [Forest.map_map, Forest.map_map (f := Forest.ofRev a.current.earlier)] at hnodes
  change Forest.map Node.stripped _ = Forest.map Node.stripped _ at hnodes
  have hkind := congrArg Node.kind hroot
  have hflag : (a.document.node Document.root).raws.semicolon = a.current.node.raws.semicolon :=
    congrArg (·.raws.semicolon) hroot
  have hafter : (a.document.node Document.root).raws.after = a.current.node.raws.after :=
    congrArg (·.raws.after) hroot
  have hkeeps : a.document.Keeps ((Forest.ofRev a.current.earlier).numbers 1) := by
    refine ⟨hunfolds, ?_, hkind.trans hshut.kind, ?_, ?_⟩
    · rw [Forest.size_numbers, hsize]
      exact Nat.le_succ _
    · rw [← Forest.each_isKept_map_stripped, hnodes, Forest.each_isKept_map_stripped]
      exact hshut.kept
    · intro hawaits
      rw [← Forest.awaits_map_stripped, hnodes, Forest.awaits_map_stripped] at hawaits
      rw [hflag]
      exact hshut.done.semicolon hawaits
  have hprints := p.prints_of_keeps hkeeps
  rw [← Forest.spell_map_stripped, hnodes, Forest.spell_map_stripped, hflag, hafter] at hprints
  have hopening : a.current.opening = [] := by
    rw [Frame.opening, Node.type, hshut.kind]
    rfl
  rw [Frame.shutText, hopening]
  exact hprints

end Assembly

/-! ## Documents -/

/-- A text whose statements nest is printed as what is written for them, with a closing brace for
each block that is open behind them. -/
theorem print_of_nest {source : Source} {doc : Document} (h : parse source .tolerant = .ok doc)
    {depth : Nat} (hnest : source.statements.foldlM Statement.nest 0 = some depth) (p : Printer) :
    (p.print doc).Prints
      (source.statements.flatMap Statement.written ++ List.replicate depth '\x7d') := by
  obtain ⟨final, hassemble, rfl⟩ := parse_eq_ok.mp h
  obtain ⟨a, hfold, hfinish⟩ := bind_eq_ok.mp hassemble
  obtain ⟨hdepth, hbenign⟩ :=
    Assembly.foldlM_add_of_nest (a := Assembly.start source .tolerant) rfl hnest hfold
  obtain ⟨hwhole, hwritten⟩ := Assembly.written_of_ofRun hfold (hbenign (List.forall_mem_nil _))
  obtain ⟨hshut, htext⟩ := Assembly.shutText_finish hwhole hfinish
  have hprints := Assembly.prints_document hassemble hshut p
  rw [htext, hwritten, hdepth] at hprints
  exact hprints

end Stylesheet
