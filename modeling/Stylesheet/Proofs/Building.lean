import Stylesheet.Print.Mapping
import Stylesheet.Proofs.Arena
import Stylesheet.Proofs.Counting

/-!
# Building a text with its mappings

A sink for printed fragments holds the text so far, a cursor at its end and the mappings of the
fragments that belong to a node. `MappingBuilder` is such a sink with numbers of 32 bits: its
cursor is a `Place`, whose line and column move on with every character and whose offset moves on
by the length of a whole fragment. Numbers of 32 bits start again from zero where they end.

`MappingBuilder.Holds` says what a sink holds behind some fragments, and `foldlM_push?` says it of
every sequence of them. `pushes_positions` compares the cursor with the places that are looked up
in the finished text: a counter and a table of lines compute the same, wherever the fragments are
cut.
-/

namespace Stylesheet

/-! ## Reading on in numbers of 32 bits -/

namespace Place

/-- The place where every text starts. -/
def start : Place := ⟨1, 1, 0⟩

/-- `p.advance c` is in the line and the column behind a character `c` that stands at `p`. -/
def advance (p : Place) (c : Char) : Place :=
  if c = '\n' then { p with line := p.line + 1, column := 1 }
    else { p with column := p.column + 1 }

/-- `p.advanceText text` is the place behind a text that starts at `p`. -/
def advanceText (p : Place) (text : Text) : Place :=
  let q := text.foldl advance p
  { q with offset := q.offset + .ofNat text.utf8Size }

end Place

namespace Position

/-- Lines and columns of a place are counted as those of a position, and the offset does not
move. -/
theorem foldl_advance_narrow (p : Position) (offset : UInt32) (text : Text) :
    text.foldl Place.advance ⟨.ofNat p.line, .ofNat p.column, offset⟩ =
      ⟨.ofNat (p.advanceText text).line, .ofNat (p.advanceText text).column, offset⟩ := by
  induction text generalizing p with
  | nil => rfl
  | cons c text ih =>
      have hstep : Place.advance ⟨.ofNat p.line, .ofNat p.column, offset⟩ c =
          ⟨.ofNat (p.advance c).line, .ofNat (p.advance c).column, offset⟩ := by
        unfold advance Place.advance
        split <;> simp
      rw [List.foldl_cons, hstep, ih, advanceText_cons]

/-- A place moves on over a text as a position does. -/
theorem narrow_advanceText (p : Position) (text : Text) :
    (p.advanceText text).narrow = p.narrow.advanceText text := by
  rw [Place.advanceText, narrow, narrow, foldl_advance_narrow, advanceText_offset,
    UInt32.ofNat_add]

end Position

/-! ## The sink -/

/-- The place where a fragment of a node was put, and the place that the node was read from. -/
structure Attribution where
  generated : Place
  node : NodeId
  boundary : Option Boundary := none
  origin : Option Place := none
  deriving Repr, DecidableEq

/-- `m.narrow` is a mapping in numbers of 32 bits. -/
def Mapping.narrow (m : Mapping) : Attribution :=
  ⟨m.generated.narrow, m.node, m.boundary, m.origin.map Position.narrow⟩

/-- A sink for the fragments of a document: their text so far, the place at its end, and an
attribution for each fragment that belongs to a node. -/
structure MappingBuilder where
  doc : Document
  text : Text := []
  cursor : Place := .start
  attributions : List Attribution := []

namespace MappingBuilder

/-- `b.attribute? fragment` are the attributions with that of a fragment behind them, if it
belongs to a node. It is `none` if the document has no such node. -/
def attribute? (b : MappingBuilder) (fragment : Fragment) : Option (List Attribution) :=
  match fragment.node with
  | some id => (b.doc.node? id).map fun node ↦
      let origin := node.origin.map fun o ↦ (o.edge fragment.boundary).narrow
      b.attributions ++ [⟨b.cursor, id, fragment.boundary, origin⟩]
  | none => some b.attributions

/-- `b.push? fragment` puts a fragment behind the text. -/
def push? (b : MappingBuilder) (fragment : Fragment) : Option MappingBuilder := do
  let attributions ← b.attribute? fragment
  return { b with
    text := b.text ++ fragment.text
    cursor := b.cursor.advanceText fragment.text
    attributions }

/-- `b.Holds doc fragments` says that a sink for `doc` holds some fragments: their text, the place
behind it, and their mappings. -/
structure Holds (b : MappingBuilder) (doc : Document) (fragments : List Fragment) : Prop where
  doc_eq : b.doc = doc
  text_eq : b.text = fragments.flatMap (·.text)
  cursor_eq : b.cursor = (Position.start.advanceText b.text).narrow
  attributions_eq : b.attributions = (Mapping.ofFragments doc .start fragments).map Mapping.narrow

variable {doc : Document} {b : MappingBuilder} {done fragments : List Fragment}
  {fragment : Fragment}

theorem holds_nil (doc : Document) : ({ doc } : MappingBuilder).Holds doc [] :=
  ⟨rfl, rfl, rfl, rfl⟩

/-- A fragment is attributed at the cursor, with what its mapping says. -/
theorem attribute?_eq (h : b.Holds doc done)
    (hnode : ∀ id, fragment.node = some id → id < doc.size) :
    b.attribute? fragment =
      some ((Mapping.ofFragments doc .start (done ++ [fragment])).map Mapping.narrow) := by
  have hplace : Position.start.advanceText (done.flatMap (·.text)) =
      Position.start.advanceText b.text := by
    rw [h.text_eq]
  rw [Mapping.ofFragments_append, hplace, List.map_append, ← h.attributions_eq,
    Mapping.ofFragments, Mapping.ofFragments, Mapping.ofFragment, attribute?,
    h.cursor_eq, h.doc_eq]
  cases hfragment : fragment.node with
  | none => simp
  | some id =>
      simp [Document.node?_of_lt (hnode id hfragment), Mapping.narrow, Function.comp_def]

/-- One more fragment is taken, and held. -/
theorem push?_holds (h : b.Holds doc done)
    (hnode : ∀ id, fragment.node = some id → id < doc.size) :
    ∃ pushed, b.push? fragment = some pushed ∧ pushed.Holds doc (done ++ [fragment]) := by
  rw [push?, attribute?_eq h hnode]
  refine ⟨_, rfl, h.doc_eq, ?_, ?_, rfl⟩
  · rw [List.flatMap_append, List.flatMap_singleton, h.text_eq]
  · rw [Position.advanceText_append, Position.narrow_advanceText, ← h.cursor_eq]

/-- A sequence of fragments is taken, and held. -/
theorem foldlM_push? (h : b.Holds doc done)
    (hnode : ∀ fragment ∈ fragments, ∀ id, fragment.node = some id → id < doc.size) :
    ∃ built, fragments.foldlM push? b = some built ∧ built.Holds doc (done ++ fragments) := by
  induction fragments generalizing b done with
  | nil => exact ⟨b, rfl, by rwa [List.append_nil]⟩
  | cons fragment fragments ih =>
      obtain ⟨pushed, hpush, hheld⟩ := push?_holds h (hnode fragment List.mem_cons_self)
      obtain ⟨built, hbuilt, hholds⟩ :=
        ih hheld fun f hf ↦ hnode f (List.mem_cons_of_mem fragment hf)
      refine ⟨built, by rw [List.foldlM_cons, hpush]; exact hbuilt, ?_⟩
      rwa [List.append_assoc, List.singleton_append] at hholds

end MappingBuilder

namespace Mapping

variable {doc : Document}

/-- There is one mapping for each fragment that belongs to a node, in order. -/
theorem map_node_ofFragments (p : Position) (fragments : List Fragment) :
    (ofFragments doc p fragments).map (fun m ↦ (m.node, m.boundary)) =
      fragments.filterMap fun f ↦ f.node.map (·, f.boundary) := by
  induction fragments generalizing p with
  | nil => rfl
  | cons fragment rest ih =>
      rw [ofFragments, List.map_append, ih, List.filterMap_cons, ofFragment]
      cases fragment.node <;> rfl

theorem length_ofFragments (p : Position) (fragments : List Fragment) :
    (ofFragments doc p fragments).length = fragments.countP (·.node.isSome) := by
  rw [← List.length_map fun m : Mapping ↦ (m.node, m.boundary), map_node_ofFragments]
  induction fragments with
  | nil => rfl
  | cons fragment rest ih =>
      rw [List.filterMap_cons, List.countP_cons]
      cases fragment.node <;> simp [ih]

/-- The mapping of a fragment is behind those of the fragments before it, at the place behind
their text. -/
theorem getElem?_ofFragments (before behind : List Fragment) {fragment : Fragment} {id : NodeId}
    (h : fragment.node = some id) :
    (ofFragments doc .start (before ++ fragment :: behind))[before.countP (·.node.isSome)]? =
      some ⟨Position.start.advanceText (before.flatMap (·.text)), id, fragment.boundary,
        (doc.node id).origin.map (·.edge fragment.boundary)⟩ := by
  have hlength : (ofFragments doc .start before).length = before.countP (·.node.isSome) :=
    length_ofFragments ..
  rw [ofFragments_append, List.getElem?_append_right (Nat.le_of_eq hlength), hlength,
    Nat.sub_self, ofFragments, ofFragment, h]
  rfl

end Mapping

/-- A sink that is given fragments of less than `2 ^ 32` bytes altogether holds their text and, in
order, an attribution for each one that belongs to a node. It is attributed where the finished
text, looked up at the length of the text in front of the fragment, has its place. -/
theorem MappingBuilder.pushes_positions (doc : Document) (fragments : List Fragment)
    (hnode : ∀ fragment ∈ fragments, ∀ id, fragment.node = some id → id < doc.size)
    (hsize : Text.utf8Size (fragments.flatMap (·.text)) < UInt32.size) :
    ∃ built, fragments.foldlM push? { doc } = some built ∧
      built.text = fragments.flatMap (·.text) ∧
      built.attributions = (Mapping.ofFragments doc .start fragments).map Mapping.narrow ∧
      built.attributions.map (fun a ↦ (a.node, a.boundary)) =
        fragments.filterMap (fun f ↦ f.node.map (·, f.boundary)) ∧
      ∀ before fragment behind id, fragments = before ++ fragment :: behind →
        fragment.node = some id → ∃ place,
        Source.place? { text := built.text } (.ofNat (Text.utf8Size (before.flatMap (·.text)))) =
          some place ∧ built.attributions[before.countP (·.node.isSome)]? = some ⟨place, id,
            fragment.boundary, (doc.node id).origin.map
            fun o ↦ (o.edge fragment.boundary).narrow⟩ := by
  obtain ⟨built, hbuilt, hholds⟩ := foldlM_push? (holds_nil doc) hnode
  rw [List.nil_append] at hholds
  refine ⟨built, hbuilt, hholds.text_eq, hholds.attributions_eq, ?_, ?_⟩
  · rw [hholds.attributions_eq, List.map_map]
    exact Mapping.map_node_ofFragments _ _
  · rintro before fragment behind id rfl hid
    -- The text in front of the fragment is a first part of the finished text.
    have htext : built.text =
        before.flatMap (·.text) ++ (fragment :: behind).flatMap (·.text) := by
      rw [hholds.text_eq, List.flatMap_append]
    have hoffset : (UInt32.ofNat (Text.utf8Size (before.flatMap (·.text)))).toNat =
        Text.utf8Size (before.flatMap (·.text)) := by
      refine UInt32.toNat_ofNat_of_lt' (Nat.lt_of_le_of_lt ?_ hsize)
      rw [List.flatMap_append, Text.utf8Size_append]
      exact Nat.le_add_right _ _
    refine ⟨(Position.start.advanceText (before.flatMap (·.text))).narrow, ?_, ?_⟩
    · rw [Source.place?_eq (by rwa [Source.size, hholds.text_eq]), hoffset,
        Source.position_utf8Size (s := { text := built.text }) htext]
    · rw [hholds.attributions_eq, List.getElem?_map,
        Mapping.getElem?_ofFragments before behind hid, Option.map_some,
        Mapping.narrow, Option.map_map]
      rfl

/-- An empty fragment and one that starts behind a line feed in another, the text cut next to a
character of two bytes. -/
theorem MappingBuilder.pushes_positions_cut :
    let note :
    Node := { kind := .comment "n".toList, origin := some ⟨⟨2, 3, 6⟩, some ⟨2, 7, 11⟩⟩ }
    let doc := Document.empty.add note
    let fragments : List Fragment := [⟨"a\n".toList, some 0, some .start⟩, ⟨[], some 1, none⟩,
      ⟨"é\n".toList, none, none⟩, ⟨"b".toList, some 1, some .stop⟩]
    (∀ fragment ∈ fragments, ∀ id, fragment.node = some id → id < doc.size) ∧
    Text.utf8Size (fragments.flatMap (·.text)) < UInt32.size ∧
    ∃ built, fragments.foldlM push? { doc } = some built ∧
      built.attributions[2]? = some ⟨⟨3, 1, 5⟩, 1, some .stop, some ⟨2, 7, 11⟩⟩ := by
  intro note doc fragments
  have hnode : ∀ fragment ∈ fragments, ∀ id, fragment.node = some id → id < doc.size := by decide
  have hsize : Text.utf8Size (fragments.flatMap (·.text)) < UInt32.size := by decide
  obtain ⟨built, hbuilt, htext, -, -, hplaces⟩ := pushes_positions doc fragments hnode hsize
  obtain ⟨place, hplace, hattribution⟩ :=
    hplaces (fragments.take 3) ⟨"b".toList, some 1, some .stop⟩ [] 1 rfl rfl
  have hlookup : Source.place? { text := fragments.flatMap (·.text) } 5 = some ⟨3, 1, 5⟩ := by
    decide
  rw [htext] at hplace
  obtain rfl := Option.some.inj (hplace.symm.trans hlookup)
  exact ⟨hnode, hsize, built, hbuilt, hattribution⟩

end Stylesheet
