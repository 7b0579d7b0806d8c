import Stylesheet.Proofs.Boundaries
import Stylesheet.Proofs.Declared
import Stylesheet.Proofs.Inference

/-!
# Colons that are inferred

A declaration that has not recorded what is between its property and its value takes the colons
and the blanks of another declaration. As every declaration that was read has a colon there
(`exists_colon_of_parse`), and editing that keeps the layout of nodes keeps this, the declaration
is printed with colons and blanks between the two. There is a single colon if and only if there is
a single one in what is taken (`colon_of_run`): a comment may have held others.
-/

namespace Stylesheet

open Document (root)

/-! ## Colons in a text -/

theorem Text.count_colons (text : Text) : (colons text).count ':' = text.count ':' :=
  List.count_filter rfl

theorem Text.colon_or_isBlank_of_mem_colons {text : Text} {c : Char} (h : c ∈ colons text) :
    c = ':' ∨ c.isBlank = true := by
  have hkept := (List.mem_filter.mp h).2
  rw [Bool.or_eq_true, beq_iff_eq] at hkept
  exact hkept.symm

/-! ## Recorded colons -/

/-- `n.HasColon` says that a node which is a declaration has a colon in what it has recorded
between property and value. -/
def Node.HasColon (n : Node) : Prop :=
  n.type = .declaration → ∀ between, n.raws.between = some between → ':' ∈ between

/-- Every declaration that strict reading makes has recorded a colon. -/
theorem exists_colon_of_parse {source : Source} {doc : Document}
    (h : parse source .strict = .ok doc) {id : NodeId} (htype : doc.type id = .declaration) :
    ∃ between, (doc.node id).raws.between = some between ∧ ':' ∈ between := by
  have hall : ∀ id ∈ doc.declarations,
      ∃ between, (doc.node id).raws.between = some between ∧ ':' ∈ between := by
    have hholds := (declarations_of_parse h).imp fun id parts ⟨custom, hn⟩ ↦
      (⟨hn.colon, trivial⟩ : (∃ between, _ ∧ _) ∧ True)
    exact ((List.forall₂_and_left _ _).mp hholds).1
  exact hall id (mem_declarations_of_parse h htype)

/-- A change that rewrites no layout leaves every colon where it is. -/
theorem Node.Change.hasColon {n m : Node} (h : n.Change (fun _ ↦ False) m) (hn : n.HasColon) :
    m.HasColon := by
  cases h with
  | parent | children | origin | forgetPlace | damage => exact hn
  | layout hf => exact hf.elim
  | @assign setting _ hset =>
      obtain ⟨kind, hkind, rfl⟩ := Option.map_eq_some_iff.mp hset
      intro htype between hbetween
      refine hn ((Setting.type_of_kind? hkind).symm.trans htype) between
        (hbetween.symm.trans ?_).symm
      cases setting with
      | important mark => cases mark <;> rfl
      | _ => rfl

namespace Command

/-- `c.KeepsLayout` says that a command neither overwrites a kind nor rewrites a layout. Commands
that make, move and remove nodes are among these. -/
def KeepsLayout : Command → Prop
  | setKind .. | setRaws .. | cleanRaws .. => False
  | _ => True

variable {command : Command}

theorem KeepsLayout.setsKind (h : command.KeepsLayout) : command.setsKind = false := by
  cases command with
  | setKind => exact h.elim
  | _ => rfl

theorem KeepsLayout.not_writes (h : command.KeepsLayout) (f : Raws → Raws) :
    ¬command.Writes f := by
  cases command with
  | setRaws | cleanRaws => exact h.elim
  | _ => exact id

end Command

/-! ## Printed declarations -/

namespace Printed

/-- `p.Writes id written` says that `written` holds of the texts of all fragments of a node. -/
def Writes (id : NodeId) (written : Text → Prop) (p : Printed) : Prop :=
  ∀ fragment ∈ p.fragments, fragment.node = some id → written fragment.text

variable {id : NodeId} {written : Text → Prop} {p q : Printed}

theorem Writes.append (hp : p.Writes id written) (hq : q.Writes id written) :
    (p ++ q).Writes id written := by
  rw [append_def, Printed.append]
  split
  · exact hp
  · exact List.forall_mem_append.mpr ⟨hp, hq⟩

theorem Avoids.writes (h : p.Avoids id) : p.Writes id written :=
  fun fragment hmem hnode ↦ absurd hnode (h.avoids fragment hmem)

theorem writes_other {other : NodeId} (hne : other ≠ id) (text : Text) (edge : Option Boundary) :
    (one ⟨text, some other, edge⟩).Writes id written :=
  ((hasMarks_one text other edge).avoids (List.forall_mem_singleton.mpr hne)).writes

end Printed

namespace Layout

/-- `l.IsWritten id colon text` says that `text` is how a declaration is written with `colon`
between its property and its value. It may end with a semicolon. -/
def IsWritten (l : Layout) (id : NodeId) (colon text : Text) : Prop :=
  ∃ property value important ended,
    (l.document.node id).kind = .declaration property value important ∧
    text = property ++ colon ++ RawValue.written (l.raws id).value value ++
      (if important then (l.raws id).important.getD usualMark else []) ++ semicolonText ended

end Layout

namespace Printer

variable {p : Printer} (hp : p.IsGeneric) {l : Layout} (hshaped : l.document.IsShaped)
  {id : NodeId} (htype : l.document.type id = .declaration)
include hp hshaped htype

theorem writes_node (other : NodeId) (semicolon : Bool) {body : Printed}
    (hbody : body.Writes id (l.IsWritten id (l.between id))) :
    (p.node l other semicolon body).Writes id (l.IsWritten id (l.between id)) := by
  by_cases hne : other = id
  · subst hne
    cases hkind : (l.document.node other).kind with
    | declaration property value important =>
        rw [node, hkind]
        exact List.forall_mem_singleton.mpr fun _ ↦
          ⟨property, value, important, semicolon, hkind, rfl⟩
    | _ =>
        rw [Document.type, Node.type, hkind] at htype
        cases htype
  · cases hblock : (l.document.node other).hasBlock with
    | true =>
        obtain ⟨head, hnode⟩ := exists_node_of_block hp (hshaped other) hblock
        rw [hnode]
        exact (Printed.writes_other hne head _).append
          (hbody.append (l.avoids_closing hne).writes)
    | false =>
        obtain ⟨text, hnode⟩ := exists_node_of_leaf hp (hshaped other) hblock
        rw [hnode]
        exact Printed.writes_other hne _ none

/-- Whatever is printed of a declaration is the declaration with what is between its property and
its value. -/
theorem writes_forest (semicolon : Bool) (f : Forest NodeId) :
    (p.forest l semicolon f).Writes id (l.IsWritten id (l.between id)) := by
  induction f generalizing semicolon with
  | nil => exact List.forall_mem_nil _
  | cons other below rest ihBelow ihRest =>
      exact ((Printed.avoids_gap _).writes.append
        (writes_node hp hshaped htype other _ (ihBelow _))).append (ihRest semicolon)

end Printer

/-- `doc.PrintsColon id colon` says that a declaration is printed in one fragment, which has
`colon` between the property and the value. -/
def Document.PrintsColon (doc : Document) (id : NodeId) (colon : Text) : Prop :=
  ∃ before text behind,
    (({} : Printer).print doc).fragments = before ++ ⟨text, some id, none⟩ :: behind ∧
      (∀ fragment ∈ before ++ behind, fragment.node ≠ some id) ∧
        (({} : Printer).layout doc root).IsWritten id colon text

/-- A declaration below the root is printed with what is between its property and its value. -/
theorem Document.printsColon_between {doc : Document} (hlinked : doc.IsLinked)
    (hshaped : doc.IsShaped) (hroot : doc.type root = .root) {id : NodeId}
    (hattached : doc.isAttached id = true) (htype : doc.type id = .declaration) :
    doc.PrintsColon id ((({} : Printer).layout doc root).between id) := by
  have hne : id ≠ root := by
    rintro rfl
    rw [hroot] at htype
    cases htype
  have hdelimits := delimits_of_hasMarks hlinked hshaped hroot
    (Printer.hasMarks_print (p := {}) ⟨rfl, rfl⟩ hshaped)
  have hleaf : ¬doc.HasEdges id := by
    rw [hshaped.hasEdges_iff hroot, (hshaped id).leaf_of_type (.inl htype)]
    exact Bool.false_ne_true
  have hwrites := Printer.writes_node (p := {}) ⟨rfl, rfl⟩
    (l := ({} : Printer).layout doc root) hshaped htype root false
    (Printer.writes_forest (p := {}) ⟨rfl, rfl⟩ hshaped htype
      ((({} : Printer).layout doc root).semicolon root) (doc.below root))
  obtain ⟨before, text, behind, hfragments, hothers⟩ := hdelimits.single id
    (hlinked.mem_walk_iff.mpr (hlinked.ancestor_of_isAttached hattached hne)) hleaf
  refine ⟨before, text, behind, hfragments, hothers, hwrites ⟨text, some id, none⟩ ?_ rfl⟩
  show _ ∈ (({} : Printer).print doc).fragments
  rw [hfragments]
  exact List.mem_append_right _ List.mem_cons_self

/-! ## Inferred colons -/

/-- Siblings of the sort of a declaration are declarations, and show their colon. -/
theorem Layout.fromSibling_colon (l : Layout) {id : NodeId}
    (htype : l.document.type id = .declaration) :
    l.fromSibling id l.document.shownColon = l.fromSibling id (l.document.sample .colon) := by
  unfold fromSibling
  dsimp only
  rw [htype]
  induction l.document.earlier id with
  | nil => rfl
  | cons s earlier ih =>
      rw [List.filter_cons]
      split
      · next hs =>
          have hsample : l.document.sample .colon s = l.document.shownColon s :=
            if_pos (beq_iff_eq.mp hs)
          rw [List.findSome?_cons, List.findSome?_cons, hsample, ih]
      · exact ih

namespace Printer

/-- The colon of a declaration that has not recorded it is taken from its donor. -/
theorem between_layout (p : Printer) {doc : Document} {id : NodeId} (printed : NodeId)
    (htype : doc.type id = .declaration) (hnone : (doc.node id).raws.between = none) :
    (p.layout doc printed).between id =
      ((doc.donor? .colon (doc.top printed) id).bind (doc.sample .colon)).getD
      p.defaults.colon := by
  have hinfer : (p.layout doc printed).between id = (p.layout doc printed).inferColon id := by
    unfold Layout.between
    rw [show ((p.layout doc printed).raws id).between = none from hnone]
    dsimp only
    rw [show (p.layout doc printed).document.type id = .declaration from htype]
  rw [hinfer, ← sample_donor?, Layout.inferColon, Layout.fromSibling_colon _ htype]
  rfl

end Printer

namespace Document

variable {doc : Document} {donor : NodeId} {text : Text}

theorem sample_colon_eq_some (h : doc.sample .colon donor = some text) :
    doc.type donor = .declaration ∧
      ∃ between, (doc.node donor).raws.between = some between ∧ text = Text.colons between := by
  unfold sample at h
  dsimp only at h
  split at h
  · next htype =>
      obtain ⟨between, hbetween, rfl⟩ := Option.map_eq_some_iff.mp h
      exact ⟨htype, between, hbetween, rfl⟩
  · cases h

/-- A donor of a colon is a declaration that has recorded one. -/
theorem isSome_sample_of_donor? {aspect : Aspect} {top id : NodeId}
    (h : doc.donor? aspect top id = some donor) : (doc.sample aspect donor).isSome = true :=
  List.find?_some (p := fun other ↦ (doc.sample aspect other).isSome) h

/-- The colon that a declaration is printed with, if it has not recorded one: only colons and
blanks, of which as many are colons as in what the donor has recorded. -/
theorem inferred_colon (hcolons : ∀ id, (doc.node id).HasColon) (hlinked : doc.IsLinked)
    {id : NodeId} (htype : doc.type id = .declaration)
    (hnone : (doc.node id).raws.between = none) :
    let colon := (({} : Printer).layout doc root).between id
    (∀ c ∈ colon, c = ':' ∨ c.isBlank = true) ∧ ':' ∈ colon ∧
      (colon.count ':' = 1 ↔ ∀ donor between, doc.donor? .colon root id = some donor →
        (doc.node donor).raws.between = some between → between.count ':' = 1) := by
  dsimp only
  rw [Printer.between_layout {} root htype hnone, hlinked.top_root]
  cases hdonor : doc.donor? .colon root id with
  | none =>
      rw [Option.bind_none, Option.getD_none]
      have hdefault : ∀ c ∈ ({} : Printer).defaults.colon, c = ':' ∨ c.isBlank = true :=
        List.forall_mem_cons.mpr ⟨.inl rfl, List.forall_mem_singleton.mpr (.inr rfl)⟩
      exact ⟨hdefault, List.mem_cons_self, iff_of_true rfl nofun⟩
  | some donor =>
      obtain ⟨text, hsample⟩ := Option.isSome_iff_exists.mp (isSome_sample_of_donor? hdonor)
      obtain ⟨hdeclaration, between, hbetween, rfl⟩ := sample_colon_eq_some hsample
      rw [Option.bind_some, hsample, Option.getD_some, Text.count_colons]
      refine ⟨fun c ↦ Text.colon_or_isBlank_of_mem_colons, ?_, ?_⟩
      · exact List.mem_filter.mpr ⟨hcolons donor hdeclaration between hbetween, rfl⟩
      · constructor
        · rintro hcount _ _ ⟨⟩ hother
          rw [hbetween] at hother
          cases hother
          exact hcount
        · exact fun hall ↦ hall donor between rfl hbetween

end Document

/-! ## Documents that were read and edited -/

/-- A declaration that was put into a document and has not recorded what is between its property
and its value is printed with colons and blanks there. It has a single colon if and only if the
declaration that it is taken from has recorded a single one, as in the default there is one. -/
theorem colon_of_run {source : Source} {start : Document} (h : parse source .strict = .ok start)
    (commands : List Command) (hcommands : ∀ command ∈ commands, command.KeepsLayout)
    {id : NodeId} (hattached : (Command.run commands start).isAttached id = true)
    (htype : (Command.run commands start).type id = .declaration)
    (hnone : ((Command.run commands start).node id).raws.between = none) :
    let doc := Command.run commands start
    ∃ colon, doc.PrintsColon id colon ∧ (∀ c ∈ colon, c = ':' ∨ c.isBlank = true) ∧ ':' ∈ colon ∧
      (colon.count ':' = 1 ↔ ∀ donor between, doc.donor? .colon root id = some donor →
        (doc.node donor).raws.between = some between → between.count ':' = 1) := by
  have hlinked := isLinked_of_parse h
  obtain ⟨hpositive, hroot⟩ := root_of_parse h
  have hchanges : start.Changes (fun _ ↦ False) (Command.run commands start) :=
    Command.changes_run_of_writes hlinked (fun command hmem ↦ (hcommands command hmem).setsKind)
      fun command hmem ↦ (hcommands command hmem).not_writes
  have hshaped := hchanges.keeps Document.IsShaped.change (isShaped_of_parse h)
  have hcolons : ∀ id, ((Command.run commands start).node id).HasColon := by
    refine hchanges.keeps (P := fun doc ↦ ∀ id, (doc.node id).HasColon)
      (fun hchange ↦ hchange.forall_node (fun kind htype between hbetween ↦ ?_)
        Node.Change.hasColon) fun id htype between hbetween ↦ ?_
    · cases hbetween
    · obtain ⟨recorded, hrecorded, hcolon⟩ := exists_colon_of_parse h htype
      rw [hrecorded] at hbetween
      cases hbetween
      exact hcolon
  have hlinked := Command.isLinked_run hlinked commands
  exact ⟨_,
    Document.printsColon_between hlinked hshaped ((hchanges.type_eq hpositive).trans hroot)
    hattached htype, Document.inferred_colon hcolons hlinked htype hnone⟩

/-- A declaration behind one with a single colon gets a single colon. -/
theorem colon_of_run_sibling :
    ∃ start, parse ⟨"a\x7bb: c\x7d".toList, none⟩ .strict = .ok start ∧
      let doc := Command.run [.create (.declaration ['d'] ['e'] false), .append 1 3] start
      (({} : Printer).print doc).text = "a\x7bb: c;d: e\x7d".toList ∧
        ∃ colon, doc.PrintsColon 3 colon ∧ colon.count ':' = 1 := by
  have hcommands : ∀ command ∈ [Command.create (.declaration ['d'] ['e'] false), .append 1 3],
      command.KeepsLayout :=
    List.forall_mem_cons.mpr ⟨trivial, List.forall_mem_singleton.mpr trivial⟩
  have h {start doc : Document}
      (hparse : parse ⟨"a\x7bb: c\x7d".toList, none⟩ .strict = .ok start)
      (hrun : Command.run [.create (.declaration ['d'] ['e'] false), .append 1 3] start = doc)
      (hattached : doc.isAttached 3 = true) (htype : doc.type 3 = .declaration)
      (hnone : (doc.node 3).raws.between = none) (hdonor : doc.donor? .colon root 3 = some 2)
      (hbetween : (doc.node 2).raws.between = some [':', ' ']) :
      ∃ colon, doc.PrintsColon 3 colon ∧ colon.count ':' = 1 := by
    subst hrun
    obtain ⟨colon, hprints, -, -, hone⟩ := colon_of_run hparse _ hcommands hattached htype hnone
    refine ⟨colon, hprints, hone.mpr fun donor between hfound hrecorded ↦ ?_⟩
    cases hdonor.symm.trans hfound
    cases hbetween.symm.trans hrecorded
    rfl
  exact ⟨_, rfl, rfl, h rfl rfl rfl rfl rfl rfl rfl⟩

/-- A declaration behind one with a colon in a comment before its own colon gets both colons. -/
theorem not_colon_of_run_comment :
    ∃ start, parse ⟨"a\x7bb /*:*/ : c\x7d".toList, none⟩ .strict = .ok start ∧
      let doc := Command.run [.create (.declaration ['d'] ['e'] false), .append 1 3] start
      doc.isAttached 3 = true ∧ doc.type 3 = .declaration ∧ (doc.node 3).raws.between = none ∧
        (({} : Printer).print doc).text = "a\x7bb /*:*/ : c;d : : e\x7d".toList ∧
          ∀ colon, doc.PrintsColon 3 colon → colon.count ':' ≠ 1 := by
  have h {doc : Document} (hkind : (doc.node 3).kind = .declaration ['d'] ['e'] false)
      (hvalue : (doc.node 3).raws.value = none)
      (htexts : ((({} : Printer).print doc).fragments.filter (·.node = some 3)).map (·.text) =
        ["d : : e".toList]) (colon : Text) (hprints : doc.PrintsColon 3 colon) :
      colon.count ':' ≠ 1 := by
    obtain ⟨before, text, behind, hfragments, -, property, value, important, ended, hdeclaration,
      htext⟩ := hprints
    cases hkind.symm.trans hdeclaration
    have hmem : text ∈ ["d : : e".toList] := by
      rw [← htexts, hfragments]
      exact List.mem_map.mpr ⟨⟨text, some 3, none⟩, by simp, rfl⟩
    have hwritten : RawValue.written ((({} : Printer).layout doc root).raws 3).value ['e'] =
        ['e'] := by
      rw [show ((({} : Printer).layout doc root).raws 3).value = none from hvalue]
      rfl
    have hended : (Layout.semicolonText ended).count ':' = 0 := by cases ended <;> rfl
    have hcount := congrArg (List.count ':') (htext.symm.trans (List.mem_singleton.mp hmem))
    rw [hwritten] at hcount
    have htwo : colon.count ':' = 2 := by simpa [hended] using hcount
    rw [htwo]
    decide
  exact ⟨_, rfl, rfl, rfl, rfl, rfl, h rfl rfl rfl⟩

end Stylesheet
