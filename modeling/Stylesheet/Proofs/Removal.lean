import Stylesheet.Proofs.Pruning

/-!
# Printing what is left

A document from which nodes were removed is printed from what its nodes have recorded, and the
text is read as the same tree (`parse_print_of_removing`), unless a removal has exposed a leaf
that lacks its semicolon. `Forest.endsWell` looks at the last leaf of each container: a custom
property takes what follows it for its value, an at-rule takes a comment for a parameter, and any
text can run into the text behind it (`Scan.meets`).
-/

namespace Stylesheet

/-- `text.isWhite` says that a text is white space. -/
def Text.isWhite (text : Text) : Bool :=
  text.all (Classifier.stock.is .space)

theorem Scan.IsBreak.append_of_isWhite {x y : Text} (hy : IsBreak y) (hx : x.isWhite = true) :
    IsBreak (x ++ y) := by
  cases x with
  | nil => exact hy
  | cons c x => exact .inl (List.all_eq_true.mp hx c List.mem_cons_self)

namespace Node

variable {n : Node}

/-- `n.precedes comments after` says that a leaf without a semicolon can stand at the end of its
container before these comments and this text. -/
def precedes (n : Node) (comments : Forest Node) (after : Text) : Bool :=
  n.isTight && Scan.meets (n.before ++ n.head) (comments.spell false ++ after) &&
    if n.isCustom then comments.tops.isEmpty && after.isEmpty
    else after.isWhite && comments.tops.all fun comment ↦
      n.type == .declaration && comment.before.isWhite

theorem head_of_comment (h : n.type = .comment) : ∃ more, n.head = '/' :: '*' :: more := by
  unfold head
  cases hkind : n.kind with
  | comment text => exact ⟨_, rfl⟩
  | _ =>
      rw [type, hkind] at h
      cases h

end Node

namespace Forest

/-- `f.endsWell semicolon after` says that the last leaf in each container is read again before
what stands between it and the end of the container. `after` is the text before that end, and
`semicolon` says that the last tree that is no comment ends with a semicolon. -/
def endsWell (semicolon : Bool) (after : Text) : Forest Node → Bool
  | nil => after.all Text.isGap
  | cons n below rest =>
      (if n.hasBlock then endsWell (n.raws.semicolon.getD false) (n.raws.after.getD []) below
        else n.type == .comment || (rest.endsBefore || semicolon) || n.precedes rest after) &&
      endsWell semicolon after rest

/-! ## Comments at the end of a container -/

section Comments

variable {f : Forest Node} {n : Node} {after z : Text}

theorem tops_eq_nil_iff : f.tops = [] ↔ f = nil := by
  cases f <;> simp [tops]

/-- A comment in front of which nothing else ends is spelled as its text, and has nothing below
it. -/
theorem comment_of_endsBefore {below rest : Forest Node}
    (hrecorded : (cons n below rest).Each Node.IsRecorded)
    (h : (cons n below rest).endsBefore = false) :
    n.type = .comment ∧ rest.endsBefore = false ∧ below = nil ∧
      (cons n below rest).spell false = n.before ++ n.head ++ rest.spell false := by
  obtain ⟨htype, hrest⟩ : (n.type != .comment) = false ∧ rest.endsBefore = false :=
    Bool.or_eq_false_iff.mp h
  have htype : n.type = .comment := by simpa using htype
  have hleaf : n.hasBlock = false := hrecorded.1.leaf (.inr htype)
  refine ⟨htype, hrest, ?_, ?_⟩
  · apply Classical.byContradiction
    intro hne
    exact Bool.false_ne_true (hleaf.symm.trans (hrecorded.1.block hne))
  · rw [spell, Node.spell_of_comment htype hleaf]

/-- Comments with white space between them are skipped. -/
theorem isReadAs_comments (hrecorded : f.Each Node.IsRecorded) (hreadable : f.IsReadable false)
    (hends : f.endsBefore = false) (hbefore : ∀ n ∈ f.tops, n.before.isWhite = true)
    (hafter : after.isWhite = true) (hz : z.head?.any (Classifier.stock.is .space) = false) :
    (f.spell false ++ after).IsReadAs z fun us ↦ (∀ t ∈ us, t.isTrivia = true) ∧
      Token.Does false us (.adds (f.map Node.core)) ∧ (f = nil → ∀ t ∈ us, t.kind = .space) := by
  have hafter := List.all_eq_true.mp hafter
  induction f with
  | nil =>
      have hgap : ∀ c ∈ after, Text.isGap c = true := fun c hc ↦
        Bool.or_eq_true_iff.mpr (.inl (hafter c hc))
      refine (Text.isReadAs_gap hgap hz).imp fun us hus ↦ ?_
      have hspaces := hus.2 hafter
      refine ⟨fun t ht ↦ ?_, Token.does_of_blank hus.1, fun _ ↦ hspaces⟩
      rw [Token.isTrivia, hspaces t ht]
      rfl
  | cons n below rest _ ih =>
      obtain ⟨htype, hrest, rfl, hspell⟩ := comment_of_endsBefore hrecorded hends
      obtain ⟨hn, hbefore⟩ := List.forall_mem_cons.mp hbefore
      have hcomment := hreadable.1.comment htype (rest.spell false ++ after ++ z)
      have hbehind := ih hrecorded.2.2 hreadable.2.2 hrest hbefore
      rw [hspell, List.append_assoc]
      refine (hcomment.append hbehind).imp fun us hus ↦ ?_
      obtain ⟨xs, ys, rfl, ⟨hxs, htrivia⟩, htrivia', hys, -⟩ := hus
      exact ⟨List.forall_mem_append.mpr ⟨htrivia (List.all_eq_true.mp hn), htrivia'⟩,
        hxs.append (.adds (.cons n.core .nil .nil) (rest.map Node.core)) hys,
        fun h ↦ by cases h⟩

/-- Words end before such comments. -/
theorem isBreak_comments (hrecorded : f.Each Node.IsRecorded) (hends : f.endsBefore = false)
    (hbefore : ∀ n ∈ f.tops, n.before.isWhite = true) (hafter : after.isWhite = true)
    (hz : Scan.IsBreak z) : Scan.IsBreak (f.spell false ++ after ++ z) := by
  cases f with
  | nil => exact hz.append_of_isWhite hafter
  | cons n below rest =>
      obtain ⟨htype, -, -, hspell⟩ := comment_of_endsBefore hrecorded hends
      obtain ⟨more, hhead⟩ := Node.head_of_comment htype
      rw [hspell, hhead, List.append_assoc, List.append_assoc, List.append_assoc]
      have hbreak : Scan.IsBreak ('/' :: '*' :: more ++ (rest.spell false ++ (after ++ z))) :=
        .inr (.inr (.inr ⟨rfl, rfl⟩))
      exact hbreak.append_of_isWhite (hbefore n List.mem_cons_self)

/-- A leaf without a semicolon adds itself at the end of its container before such comments. -/
theorem endsWith_last {rest : Forest Node} (hn : n.IsReadable false) (hleaf : n.hasBlock = false)
    (htype : n.type ≠ .comment) (hrecorded : rest.Each Node.IsRecorded)
    (hreadable : rest.IsReadable false) (hends : rest.endsBefore = false)
    (h : n.precedes rest after = true) :
    (n.before ++ n.head ++ (rest.spell false ++ after)).EndsWith
      (.cons n.core .nil (rest.map Node.core)) := by
  obtain ⟨h, htrails⟩ := Bool.and_eq_true_iff.mp h
  obtain ⟨htight, hmeets⟩ := Bool.and_eq_true_iff.mp h
  have hlast := hn.last hleaf htype htight
  by_cases hcustom : n.isCustom = true
  · rw [if_pos hcustom, Bool.and_eq_true, List.isEmpty_iff, List.isEmpty_iff] at htrails
    obtain ⟨hnil, rfl⟩ := htrails
    obtain rfl := tops_eq_nil_iff.mp hnil
    refine hlast.endsWith_append hmeets (fun z hz ↦ hz.isBreak) fun z _ ↦ Text.isReadAs_nil ?_
    rw [Node.Trails, if_pos hcustom]
    exact ⟨rfl, rfl⟩
  · rw [if_neg hcustom, Bool.and_eq_true, List.all_eq_true] at htrails
    obtain ⟨hafter, hcomments⟩ := htrails
    have hbefore : ∀ comment ∈ rest.tops, comment.before.isWhite = true := fun comment hmem ↦
      (Bool.and_eq_true_iff.mp (hcomments comment hmem)).2
    refine hlast.endsWith_append hmeets
      (fun z hz ↦ isBreak_comments hrecorded hends hbefore hafter hz.isBreak) fun z hz ↦
      (isReadAs_comments hrecorded hreadable hends hbefore hafter hz.head?_isSpace).imp
        fun us hus ↦ ?_
    obtain ⟨htrivia, hdoes, hspaces⟩ := hus
    rw [Node.Trails, if_neg hcustom]
    by_cases hdeclaration : n.type = .declaration
    · rw [if_pos hdeclaration]
      exact ⟨htrivia, hdoes⟩
    · rw [if_neg hdeclaration]
      have hnil : rest = nil := by
        cases rest with
        | nil => rfl
        | cons comment =>
            have := (Bool.and_eq_true_iff.mp (hcomments comment List.mem_cons_self)).1
            exact absurd (beq_iff_eq.mp this) hdeclaration
      subst hnil
      exact ⟨hspaces rfl, rfl⟩

end Comments

/-! ## Whole containers -/

/-- A node with a block adds its tree, if what is in the block ends well. -/
theorem does_block {n : Node} {ended : Bool} {body : Text} {trees : Forest Core}
    (hn : n.IsReadable ended) (hblock : n.hasBlock = true)
    (hbody : (body ++ n.raws.after.getD []).EndsWith trees) (semicolon : Bool) :
    (n.spell semicolon body).Does (.adds (.cons n.core trees .nil)) := by
  have htext : n.spell semicolon body =
      n.before ++ n.head ++ ['\x7b'] ++ (body ++ n.raws.after.getD [] ++ ['\x7d']) ++
        n.trailer := by
    rw [Node.spell, Node.ending, if_pos hblock, Node.closing, Node.trailer]
    simp [List.append_assoc]
  rw [htext]
  exact ((hn.opening hblock).append (.block n.core trees) hbody.close).append
    (.adds (.cons n.core trees .nil) .nil) (hn.trailer hblock)

/-- Nodes that are read again are read as such in a container that ends well. -/
theorem endsWith_spell {f : Forest Node} {semicolon : Bool} {after : Text}
    (hrecorded : f.Each Node.IsRecorded) (hreadable : f.IsReadable semicolon)
    (hends : f.endsWell semicolon after = true) :
    (f.spell semicolon ++ after).EndsWith (f.map Node.core) := by
  induction f generalizing semicolon after with
  | nil => exact Text.endsWith_gap hends
  | cons n below rest ihBelow ihRest =>
      obtain ⟨hn, hbelow, hrest⟩ := hreadable
      obtain ⟨hfirst, hbehind⟩ := Bool.and_eq_true_iff.mp hends
      have ihRest := ihRest hrecorded.2.2 hrest hbehind
      cases hblock : n.hasBlock with
      | true =>
          rw [if_pos hblock] at hfirst
          rw [spell, List.append_assoc]
          exact (does_block hn hblock (ihBelow hrecorded.2.1 hbelow hfirst) _).endsWith_append
            ihRest
      | false =>
          have hnil : below = nil := by
            apply Classical.byContradiction
            intro hne
            exact Bool.false_ne_true (hblock.symm.trans (hrecorded.1.block hne))
          subst hnil
          by_cases htype : n.type = .comment
          · have hdoes : (n.before ++ n.head).Does (.adds (.cons n.core .nil .nil)) := fun z ↦
              (hn.comment htype z).imp fun _ ↦ And.left
            rw [spell, Node.spell_of_comment htype hblock, List.append_assoc]
            exact hdoes.endsWith_append ihRest
          rw [spell, Node.spell_of_leaf htype hblock]
          cases hended : rest.endsBefore || semicolon with
          | true =>
              rw [List.append_assoc]
              exact (hn.leaf hblock htype hended).endsWith_append ihRest
          | false =>
              obtain ⟨hcomments, rfl⟩ := Bool.or_eq_false_iff.mp hended
              rw [hblock, hended, beq_eq_false_iff_ne.mpr htype] at hfirst
              rw [hended] at hn
              rw [show Layout.semicolonText false = [] from rfl, List.append_nil,
                List.append_assoc]
              exact endsWith_last hn hblock htype hrecorded.2.2 hrest hcomments hfirst

end Forest

/-! ## Documents -/

/-- `source.isSealed` says that no statement of a source draws in what follows it. -/
def Source.isSealed (source : Source) : Bool :=
  (Statement.ofRun source.size (Token.run source.text .fail)).all Statement.isSealed

namespace Document

/-- `doc.endsWell` says that the last leaf in each container of a document is read again before
what stands between it and the end of the container. -/
def endsWell (doc : Document) : Bool :=
  ((doc.below root).map doc.node).endsWell ((doc.node root).raws.semicolon.getD false)
    ((doc.node root).raws.after.getD [])

/-- A document that is read from a sealed source records nodes that are read again. -/
theorem exists_readable_of_parse {source : Source} {doc : Document}
    (h : parse source .strict = .ok doc) (hsealed : source.isSealed = true) :
    ∃ f, doc.Records f ∧ (doc.node root).hasBlock = true ∧
      (f.map doc.node).IsReadable ((doc.node root).raws.semicolon.getD false) := by
  obtain ⟨a, hfailure, hruns, hopen, rfl⟩ := parse_strict_eq_ok.mp h
  have hwhole : a.IsWhole := Assembly.TakesRun.isWhole hfailure hruns
  have hreadable : a.current.IsReadable a.semicolon := by
    have hstart : (Assembly.start source .strict).IsReadable
        (Token.run source.text .fail).tokens :=
      ⟨trivial, .inl trivial, trivial⟩
    have hawaits : (Assembly.start source .strict).Awaits
        (Token.run source.text .fail).tokens := by
      intro _
      obtain ⟨hreads, -⟩ := Lexer.reads_of_runFor (Token.run source.text .fail)
        (Lexer.isPlain_ofText source.text .fail .stock) (Nat.le_add_left _ _) rfl hfailure
      have hready : (Lexer.ofText source.text .fail).IsReady source.text := ⟨rfl, rfl, rfl, nofun⟩
      exact ⟨[], _, _, _, rfl, List.forall_mem_nil _, hready, hreads⟩
    unfold Source.isSealed Statement.ofRun at hsealed
    rw [hfailure, List.all_eq_true] at hsealed
    exact hstart.run hruns (Assembly.isWhole_start source) (.inl rfl) hawaits
      (fun u hu ↦ ⟨Token.isFormed_of_mem_run hfailure hu, Token.healed_of_mem_run hfailure hu⟩)
      (Nat.lt_succ_self _) hsealed
  obtain ⟨top, hdocument, hkind, hblock, hbelow, hsemicolon, -⟩ := hwhole.document_ended hopen
  obtain ⟨hrecords, hroot, hnodes⟩ := records_ofForest a.source .strict hkind hblock hbelow
    fun hne ↦ by rw [hsemicolon hne]; rfl
  rw [hdocument]
  generalize ofForest a.source .strict (.cons top (Forest.ofRev a.current.earlier) .nil) =
    doc at *
  have hraws : (doc.node root).raws = top.raws := by simpa using congrArg Node.raws hroot
  refine ⟨_, hrecords, ?_, ?_⟩
  · rw [← Node.hasBlock_unlinked, hroot, Node.hasBlock_unlinked, hblock]
  · rw [← Forest.isReadable_map_unlinked, hnodes, Forest.isReadable_map_unlinked, hraws]
    by_cases hnil : Forest.ofRev a.current.earlier = .nil
    · rw [hnil]
      trivial
    · rw [hsemicolon hnil]
      exact hreadable

end Document

/-- A document that was read from a sealed source is printed, behind the removal of some nodes, as
a text that is read as the same tree, if it ends well. -/
theorem parse_print_of_removing {source : Source} {doc : Document}
    (h : parse source .strict = .ok doc) (hsealed : source.isSealed = true) (ids : List NodeId)
    (hends : (doc.removing ids).endsWell = true) (p : Printer) (file : Option String) :
    (p.print (doc.removing ids)).failure = none ∧
      ∃ again, parse ⟨(p.print (doc.removing ids)).text, file⟩ .strict = .ok again ∧
        again.toSemanticJson Document.root =
          (doc.removing ids).toSemanticJson Document.root := by
  obtain ⟨f, hrecords, hblock, hreadable⟩ := Document.exists_readable_of_parse h hsealed
  obtain ⟨g, hg, hprunes, hsame⟩ := hrecords.removing (isLinked_of_parse h) ids
  generalize doc.removing ids = edited at *
  have hreadable : (g.map edited.node).IsReadable
      ((edited.node Document.root).raws.semicolon.getD false) := by
    rw [hsame.raws, ← Forest.isReadable_map_unlinked, hsame.map_unlinked,
      Forest.isReadable_map_unlinked]
    exact (hprunes.map doc.node).isReadable hreadable
  have hbelow : edited.below Document.root = g :=
    Document.below_eq_of_unfolds hg.unfolds hg.size
  unfold Document.endsWell at hends
  rw [hbelow] at hends
  obtain ⟨hfailure, htext⟩ := p.prints_of_records hg
  obtain ⟨again, hparse, houtline⟩ :=
    parse_of_endsWith (Forest.endsWith_spell hg.nodes hreadable hends) file
  rw [← htext] at hparse
  refine ⟨hfailure, again, hparse, Document.toSemanticJson_of_outline ?_⟩
  have hroot : (edited.node Document.root).hasBlock = true := by
    rw [← Node.hasBlock_unlinked, hsame, Node.hasBlock_unlinked, hblock]
  rw [houtline, Document.outline, Document.treeAt, hbelow, Forest.map, Node.core, hg.kind, hroot]
  rfl

/-- A declaration that has lost the one behind it and its semicolon is read again before a
comment. -/
theorem parse_print_of_removing_declaration :
    ∃ doc, parse ⟨"a\x7bb:c;/*x*/d:e \x7d@f g;".toList, none⟩ .strict = .ok doc ∧
      (({} : Printer).print (doc.removing [4])).text = "a\x7bb:c/*x*/ \x7d@f g;".toList ∧
      ∃ again, parse ⟨(({} : Printer).print (doc.removing [4])).text, none⟩ .strict = .ok again ∧
        again.toSemanticJson Document.root = (doc.removing [4]).toSemanticJson Document.root :=
  have h : ∃ doc, parse ⟨"a\x7bb:c;/*x*/d:e \x7d@f g;".toList, none⟩ .strict = .ok doc ∧
      (doc.removing [4]).endsWell = true ∧
      (({} : Printer).print (doc.removing [4])).text = "a\x7bb:c/*x*/ \x7d@f g;".toList :=
    ⟨_, rfl, rfl, rfl⟩
  h.imp fun _ ⟨hdoc, hends, htext⟩ ↦
    ⟨hdoc, htext, (parse_print_of_removing hdoc rfl [4] hends {} none).2⟩

/-- `customView value` is what a rule means that has one declaration of a custom property. -/
def customView (value : String) : Json :=
  .object [("type", .ofString "root"), ("nodes", .array [
    .object [("type", .ofString "rule"), ("selector", .ofString "a"), ("nodes", .array [
      .object [("type", .ofString "decl"), ("prop", .ofString "--x"),
        ("value", .ofString value)]])]])]

/-- A custom property that has lost the declaration behind it takes the white space before the
brace for its value. -/
theorem parse_print_of_removing_custom :
    ∃ doc again, parse ⟨"a\x7b--x:d;e:f \x7d".toList, none⟩ .strict = .ok doc ∧
      parse ⟨(({} : Printer).print (doc.removing [3])).text, none⟩ .strict = .ok again ∧
      again.toSemanticJson Document.root ≠ (doc.removing [3]).toSemanticJson Document.root := by
  have h : ∃ doc again, parse ⟨"a\x7b--x:d;e:f \x7d".toList, none⟩ .strict = .ok doc ∧
      parse ⟨(({} : Printer).print (doc.removing [3])).text, none⟩ .strict = .ok again ∧
      again.toSemanticJson Document.root = customView "d " ∧
      (doc.removing [3]).toSemanticJson Document.root = customView "d" :=
    ⟨_, _, rfl, rfl, rfl, rfl⟩
  obtain ⟨doc, again, hdoc, hagain, hvalue, hvalue'⟩ := h
  refine ⟨doc, again, hdoc, hagain, ?_⟩
  rw [hvalue, hvalue']
  simp [customView, Json.ofString]

/-- A custom property at the end of a block takes the line break before the brace for its value
once the layout has been dropped. -/
theorem not_parse_print_of_cleanRaws :
    ∃ doc again, parse ⟨"a\x7b--x:d\x7d".toList, none⟩ .strict = .ok doc ∧
      (({} : Printer).print (doc.cleanRaws Document.root false)).failure = none ∧
      (({} : Printer).print (doc.cleanRaws Document.root false)).text =
        "a \x7b\n  --x: d\n\x7d".toList ∧
      parse ⟨"a \x7b\n  --x: d\n\x7d".toList, none⟩ .strict = .ok again ∧
      again.toSemanticJson Document.root ≠ doc.toSemanticJson Document.root := by
  refine ⟨_, _, rfl, rfl, rfl, rfl, fun heq ↦ ?_⟩
  have hvalue : customView "d\n" = customView "d" := heq
  simp [customView, Json.ofString] at hvalue

end Stylesheet
