import Stylesheet.Dialect
import Stylesheet.Proofs.Alignment

/-!
# Source mappings of documents that were not changed

A printed fragment is mapped to the place that its node was read from. If nodes are printed where
they were read (`Forest.IsAligned`), the two places are the same, up to the sign of a declaration
and up to the way in which the end of a block is told. `Printed.Tracks` carries this through a
printer, and `mappings_of_parse` says it of every mapping of a document that strict reading makes.
-/

namespace Stylesheet

/-- `m.IsFaithful s doc` says that a mapping of the document `doc` ties a place in the printed
text to the same place in the source `s`. A declaration is printed behind the sign that it was
read from. The end of a block has the line and the column of its brace and the offset behind it,
and the end of the root is the end of the source. -/
structure Mapping.IsFaithful (s : Source) (doc : Document) (m : Mapping) : Prop where
  start : m.boundary ≠ some .stop → ∃ before behind, s.text = before ++ behind ∧
    let sign := (doc.node m.node).signIn behind
    let p := Position.start.advanceText before
    sign <:+ (doc.node m.node).before ∧ m.origin = some p ∧
      m.generated =
        { p with column := p.column + sign.length, offset := p.offset + sign.length }
  stop : m.boundary = some .stop → (doc.node m.node).type ≠ .root →
    m.origin = some { m.generated with offset := m.generated.offset + 1 }
  finish : m.boundary = some .stop → (doc.node m.node).type = .root →
    m.origin = some m.generated ∧ m.generated = s.position s.size

/-! ## Single fragments -/

/-- A sign is one character on the same line, or nothing. -/
theorem Position.advanceText_sign (p : Position) (text : Text) :
    p.advanceText (hackSign text).1 =
      { p with
        column := p.column + (hackSign text).1.length
        offset := p.offset + (hackSign text).1.length } := by
  unfold hackSign
  split <;> rfl

namespace Mapping

variable {s : Source} {doc : Document} {id : NodeId} {text : Text}

/-- A fragment that is printed where its node was read is mapped there. -/
theorem isFaithful_of_isAligned (h : (doc.node id).IsAligned s text) {boundary : Option Boundary}
    (hboundary : boundary ≠ some .stop) :
    (Mapping.mk (Position.start.advanceText text) id boundary
      ((doc.node id).origin.map (·.edge boundary))).IsFaithful s doc := by
  obtain ⟨before, behind, htext, rfl, hsuffix, horigin⟩ := h
  refine ⟨fun _ ↦ ⟨before, behind, htext, hsuffix, ?_, ?_⟩, fun h ↦ absurd h hboundary,
    fun h ↦ absurd h hboundary⟩
  · obtain ⟨origin, hsome, hstart⟩ := Option.map_eq_some_iff.mp horigin
    show (doc.node id).origin.map (·.edge boundary) = _
    rw [hsome, Option.map_some, ← hstart]
    rcases boundary with - | - | -
    · rfl
    · rfl
    · exact absurd rfl hboundary
  · show Position.start.advanceText (before ++ (doc.node id).signIn behind) = _
    rw [Position.advanceText_append]
    unfold Node.signIn
    split
    · exact Position.advanceText_sign _ behind
    · rfl

/-- A brace that is printed where it was read is mapped there. -/
theorem isFaithful_of_closesBehind (h : (doc.node id).ClosesBehind text)
    (htype : (doc.node id).type ≠ .root) :
    (Mapping.mk (Position.start.advanceText text) id (some .stop)
      ((doc.node id).origin.map (·.edge (some .stop)))).IsFaithful s doc := by
  refine ⟨fun h ↦ absurd rfl h, fun _ _ ↦ ?_, fun _ h ↦ absurd h htype⟩
  obtain ⟨origin, hsome, hstop⟩ := Option.bind_eq_some_iff.mp h
  show (doc.node id).origin.map (·.edge (some .stop)) = _
  rw [hsome, Option.map_some, Origin.edge, hstop, Option.getD_some, Position.advanceText_offset]
  rw [show Position.start.offset = 0 from rfl, Nat.zero_add]

end Mapping

/-! ## Printed texts -/

/-- `p.Tracks s doc before text` says that `p` prints `text`, and that all of its mappings are
faithful if it is printed behind `before`. -/
structure Printed.Tracks (s : Source) (doc : Document) (p : Printed)
    (before text : Text) : Prop where
  prints : p.Prints text
  faithful : ∀ m ∈ Mapping.ofFragments doc (Position.start.advanceText before) p.fragments,
    m.IsFaithful s doc

namespace Printed

variable {s : Source} {doc : Document} {p q : Printed} {before first second text : Text}

theorem Tracks.append (hp : p.Tracks s doc before first)
    (hq : q.Tracks s doc (before ++ first) second) :
    (p ++ q).Tracks s doc before (first ++ second) := by
  refine ⟨hp.prints.append hq.prints, ?_⟩
  have htext : p.fragments.flatMap (·.text) = first := hp.prints.text_eq
  rw [append_of_failure_none q hp.prints.failure, Mapping.ofFragments_append, htext,
    ← Position.advanceText_append]
  intro m hm
  rcases List.mem_append.mp hm with hm | hm
  · exact hp.faithful m hm
  · exact hq.faithful m hm

/-- A fragment of a node tracks if its mapping is faithful. -/
theorem tracks_one (text : Text) {id : NodeId} {boundary : Option Boundary}
    (h : (Mapping.mk (Position.start.advanceText before) id boundary
      ((doc.node id).origin.map (·.edge boundary))).IsFaithful s doc) :
    (one ⟨text, some id, boundary⟩).Tracks s doc before text := by
  refine ⟨prints_one _, fun m hm ↦ ?_⟩
  cases List.mem_singleton.mp (hm : m ∈ [_])
  exact h

/-- Text that belongs to no node has no mappings. -/
theorem Prints.tracks (h : p.Prints text)
    (hnone : ∀ fragment ∈ p.fragments, fragment.node = none) : p.Tracks s doc before text := by
  refine ⟨h, ?_⟩
  generalize Position.start.advanceText before = place
  generalize p.fragments = fragments at hnone
  induction fragments generalizing place with
  | nil => nofun
  | cons fragment rest ih =>
      have hfirst := hnone fragment (by simp)
      simp only [Mapping.ofFragments, Mapping.ofFragment, hfirst]
      exact ih _ fun other hother ↦ hnone other (List.mem_cons_of_mem _ hother)

theorem tracks_gap (text : Text) : (gap text).Tracks s doc before text := by
  refine (prints_gap text).tracks fun fragment hfragment ↦ ?_
  unfold gap at hfragment
  split at hfragment
  · cases hfragment
  · rw [List.mem_singleton.mp hfragment]

end Printed

/-! ## Printed nodes -/

namespace Printer

variable (p : Printer) {l : Layout} {s : Source}

/-- A node that is printed where it was read tracks, if its body does. -/
theorem tracks_node {id : NodeId} {n : Node} {below : Forest Node} (semicolon : Bool)
    {body : Printed} {before text : Text} (hn : l.document.node id = n)
    (hrecorded : n.IsRecorded below) (haligned : n.IsAligned s before)
    (hcloses : n.hasBlock = true →
      n.ClosesBehind (before ++ n.head ++ '\x7b' :: text ++ n.raws.after.getD []))
    (hbody : body.Tracks s l.document (before ++ n.head ++ ['\x7b']) text) :
    (p.node l id semicolon body).Tracks s l.document before
      (n.head ++ n.ending semicolon text) := by
  have hstart (text : Text) {boundary : Option Boundary} (hboundary : boundary ≠ some .stop) :
      (Printed.one ⟨text, some id, boundary⟩).Tracks s l.document before text := by
    rw [← hn] at haligned
    exact Printed.tracks_one _ (Mapping.isFaithful_of_isAligned haligned hboundary)
  cases hblock : n.hasBlock with
  | false =>
      have hending : n.ending semicolon text = n.ending semicolon [] := by
        simp [Node.ending, hblock]
      rw [p.node_of_leaf semicolon body hn hrecorded hblock, hending]
      exact hstart _ (by simp)
  | true =>
      obtain ⟨own, hnone, hown, hnode⟩ := p.node_of_block semicolon body hn hrecorded hblock
      have hstop : (Printed.one ⟨['\x7d'], some id, some .stop⟩).Tracks s l.document
          (before ++ n.head ++ '\x7b' :: text ++ n.raws.after.getD []) ['\x7d'] := by
        have hcloses := hcloses hblock
        have htype := hrecorded.plain.1
        rw [← hn] at hcloses htype
        rw [← hn]
        exact Printed.tracks_one _ (Mapping.isFaithful_of_closesBehind hcloses htype)
      have hopened := @hstart (n.head ++ ['\x7b']) (some .start) (by simp)
      have h := ((hopened.append (by simpa using hbody)).append
        (Printed.tracks_gap (n.raws.after.getD []))).append (by simpa using hstop) |>.append
        (hown.tracks hnone)
      rw [hnode, Node.ending, if_pos hblock, Node.closing]
      simpa using h

/-- Nodes that are printed where they were read track, whatever the printer and the layout are. -/
theorem tracks_forest (semicolon : Bool) (f : Forest NodeId) {before : Text}
    (hrecorded : (f.map l.document.node).Each Node.IsRecorded)
    (haligned : (f.map l.document.node).IsAligned s semicolon before) :
    (p.forest l semicolon f).Tracks s l.document before
      ((f.map l.document.node).spell semicolon) := by
  induction f generalizing semicolon before with
  | nil => exact Printed.prints_empty.tracks (by simp [Printed.empty])
  | cons id below rest ihBelow ihRest =>
      obtain ⟨hnode, hbelow, hrest⟩ := hrecorded
      obtain ⟨halignedNode, halignedBelow, hcloses, halignedRest⟩ := haligned
      have hends := endsBefore_eq l.document rest
      -- Without children the semicolon of the layout does not matter.
      have hbody : (p.forest l (l.semicolon id) below).Tracks s l.document
          (before ++ (l.document.node id).before ++ (l.document.node id).head ++ ['\x7b'])
          ((below.map l.document.node).spell
            ((l.document.node id).raws.semicolon.getD false)) := by
        cases below with
        | nil => exact Printed.prints_empty.tracks (by simp [Printed.empty])
        | cons child under siblings =>
            rw [Layout.semicolon_eq rfl (hnode.semicolon (by simp [Forest.map]))]
            exact ihBelow _ hbelow halignedBelow
      have hgap : (Printed.gap (l.document.node id).before).Tracks s l.document before
          (l.document.node id).before := Printed.tracks_gap _
      have h := (hgap.append (p.tracks_node (endsBefore l.document rest || semicolon) rfl hnode
        halignedNode hcloses hbody)).append (by
          rw [hends]
          simpa [Node.spell, List.append_assoc] using ihRest semicolon hrest halignedRest)
      simp only [forest, Layout.before_eq rfl hnode.before, Forest.map, Forest.spell, Node.spell]
      rw [hends] at h ⊢
      simpa using h

/-- A document whose nodes were read where they are spelled is printed with faithful mappings. The
text in front of its root is empty. -/
theorem tracks_of_records {doc : Document} {f : Forest NodeId} (h : doc.Records f)
    (haligned : (f.map doc.node).IsAligned s
      ((doc.node Document.root).raws.semicolon.getD false) [])
    (hspell : (f.map doc.node).spell ((doc.node Document.root).raws.semicolon.getD false) ++
      (doc.node Document.root).raws.after.getD [] = s.text)
    (horigin : (doc.node Document.root).origin = some ⟨.start, some (s.position s.size)⟩) :
    (p.print doc).Tracks s doc [] s.text := by
  have htype : (doc.node Document.root).type = .root := by rw [Node.type, h.kind]; rfl
  have hend : Position.start.advanceText s.text = s.position s.size :=
    (Source.position_utf8Size (List.append_nil _).symm).symm
  have hstart : (Printed.one ⟨[], some Document.root, some .start⟩).Tracks s doc [] [] := by
    refine Printed.tracks_one [] ⟨fun _ ↦ ⟨[], s.text, rfl, ?_⟩, by simp, by simp⟩
    simp only [Node.signIn, htype, horigin]
    exact ⟨List.nil_suffix, rfl, rfl⟩
  have hstop : (Printed.one ⟨[], some Document.root, some .stop⟩).Tracks s doc s.text [] := by
    refine Printed.tracks_one [] ⟨fun h ↦ absurd rfl h, fun _ h ↦ absurd htype h, fun _ _ ↦ ?_⟩
    simp only [horigin, hend]
    exact ⟨rfl, trivial⟩
  have hbody : (p.forest (p.layout doc Document.root)
      ((doc.node Document.root).raws.semicolon.getD false) f).Tracks s doc []
      ((f.map doc.node).spell ((doc.node Document.root).raws.semicolon.getD false)) :=
    p.tracks_forest (l := p.layout doc Document.root) _ f h.nodes haligned
  have h' := ((hstart.append hbody).append
    (Printed.tracks_gap ((doc.node Document.root).raws.after.getD []))).append
    (by simpa [hspell] using hstop)
  rw [p.print_of_records h]
  simpa [hspell] using h'

end Printer

/-! ## Whole documents -/

/-- A document that strict reading makes is printed with faithful mappings. -/
theorem tracks_of_parse {source : Source} {doc : Document} (h : parse source .strict = .ok doc)
    (p : Printer) : (p.print doc).Tracks source doc [] source.text := by
  obtain ⟨final, hassemble, rfl⟩ := parse_eq_ok.mp h
  obtain ⟨a, hfailure, hruns, hopen, rfl⟩ := assemble_strict_eq_ok hassemble
  have hformed : ∀ u ∈ (Token.run source.text .fail).tokens, u.IsFormed ∧ u.healed = false :=
    fun u hu ↦ ⟨Token.isFormed_of_mem_run hfailure hu, Token.healed_of_mem_run hfailure hu⟩
  have hstart := Assembly.isWhole_start source
  obtain ⟨hwhole, hwritten⟩ := hstart.extends_run (.inl rfl) hformed hruns
  rw [Assembly.written_start, List.nil_append, Token.spelling_run hfailure] at hwritten
  have haligned := Assembly.aligned_run hruns ⟨rfl, trivial⟩ hstart (.inl rfl) hformed
    ⟨(Token.spelling_run hfailure).symm, Token.placed_run hfailure⟩
  have hsource : a.source = source := hruns.frame.1
  obtain ⟨hkind, hblock, hbelow, hsemicolon, hspell⟩ := hwhole.spell_ended hopen
  rw [Assembly.earlier_ended] at hbelow hsemicolon hspell
  obtain ⟨horigin, htrees⟩ := haligned.ended hopen hwhole
  rw [hwhole.document_eq]
  obtain ⟨hrecords, hroot, hnodes⟩ :=
    Document.records_ofForest a.source .strict hkind hblock hbelow
    fun hne ↦ by rw [hsemicolon hne]; rfl
  generalize Document.ofForest a.source .strict _ = doc at *
  have hraws := congrArg Node.raws hroot
  rw [Node.raws_unlinked, Node.raws_unlinked] at hraws
  refine p.tracks_of_records hrecords ?_ ?_ ?_
  · rw [hraws, ← Forest.isAligned_map_unlinked, hnodes, Forest.isAligned_map_unlinked, ← hsource]
    exact htrees
  · rw [hraws, ← Forest.spell_map_unlinked, hnodes, Forest.spell_map_unlinked, hspell, hwritten]
  · rw [← hsource]
    exact (congrArg Node.origin hroot).trans horigin

/-- Processing computes the printed text and its mappings if reading and printing do not fail. -/
theorem process_of_print {dialect : Dialect} {source : Source} {mode : Mode} {doc : Document}
    (hparse : dialect.parse source mode = .ok doc) (hprint : (dialect.print doc).failure = none) :
    process dialect source mode = .ok ⟨doc, (dialect.print doc).text,
      Mapping.ofFragments doc .start (dialect.print doc).fragments⟩ := by
  unfold process
  rw [hparse]
  show ((dialect.print doc).result.mapError ProcessError.print >>= _) = _
  rw [Printed.result, hprint]
  rfl

/-- A document that strict reading makes is printed as its source, and all of its mappings are
faithful, whatever the printer is. -/
theorem mappings_of_parse {source : Source} {doc : Document}
    (h : parse source .strict = .ok doc) (p : Printer) (mode : Mode) :
    ∃ mappings, process (.cssWith p) source mode = .ok ⟨doc, source.text, mappings⟩ ∧
      ∀ m ∈ mappings, m.IsFaithful source doc := by
  have htracks := tracks_of_parse h p
  refine ⟨Mapping.ofFragments doc .start (p.print doc).fragments, ?_, htracks.faithful⟩
  rw [← htracks.prints.text_eq]
  exact process_of_print h htracks.prints.failure

/-- A declaration behind a sign is mapped to its sign, one column before it is printed, and a
brace to its own column. -/
theorem mappings_of_sign :
    ∃ doc mappings, parse ⟨"ü{*b:c}".toList, none⟩ .strict = .ok doc ∧
      process .css ⟨"ü{*b:c}".toList, none⟩ .strict = .ok ⟨doc, "ü{*b:c}".toList, mappings⟩ ∧
      (⟨⟨1, 4, 4⟩, 2, none, some ⟨1, 3, 3⟩⟩ ∈ mappings ∧
        ⟨⟨1, 7, 7⟩, 1, some .stop, some ⟨1, 7, 8⟩⟩ ∈ mappings) ∧
      ∀ m ∈ mappings, m.IsFaithful ⟨"ü{*b:c}".toList, none⟩ doc := by
  obtain ⟨doc, mappings, hdoc, hprocess, hmem⟩ :
      ∃ doc mappings, parse ⟨"ü{*b:c}".toList, none⟩ .strict = .ok doc ∧
        process .css ⟨"ü{*b:c}".toList, none⟩ .strict = .ok ⟨doc, "ü{*b:c}".toList, mappings⟩ ∧
        ⟨⟨1, 4, 4⟩, 2, none, some ⟨1, 3, 3⟩⟩ ∈ mappings ∧
        ⟨⟨1, 7, 7⟩, 1, some .stop, some ⟨1, 7, 8⟩⟩ ∈ mappings :=
    ⟨_, _, rfl, rfl, by decide +kernel⟩
  obtain ⟨others, hothers, hfaithful⟩ := mappings_of_parse hdoc {} .strict
  have hsame := congrArg (Except.map Processed.mappings) (hothers.symm.trans hprocess)
  cases hsame
  exact ⟨doc, mappings, hdoc, hprocess, hmem, hfaithful⟩

end Stylesheet
