import Stylesheet.Document.Json
import Stylesheet.Proofs.Replay
import Stylesheet.Proofs.Reread

/-!
# Pieces of text

`Text.Does` says that strict reading takes a text with an effect on the outline wherever the text
stands between statements, and `Text.EndsWith` is about a text that reaches to the end of its
container. Pieces are put together by `Text.Does.append` and `Text.Does.endsWith_append`, a
container is closed by `Text.EndsWith.close`, and a text that reaches to the end of a document is
read as one (`parse_of_endsWith`).
-/

namespace Stylesheet

open Assembly

namespace Text

variable {x y z : Text} {e e' all : Effect} {trees more : Forest Core}

/-! ## Between statements -/

/-- `x.Does e` says that strict reading takes a text between statements with the effect `e`,
wherever this is possible, and goes on behind it. -/
def Does (x : Text) (e : Effect) : Prop :=
  ∀ z : Text, x.IsReadAs z (Token.Does false · e)

theorem does_nil : Does [] (.adds .nil) :=
  fun _ ↦ isReadAs_nil (Token.does_nil false)

theorem Does.append (hall : e.Then e' all) (hx : x.Does e) (hy : y.Does e') :
    (x ++ y).Does all := by
  intro z
  refine ((hx (y ++ z)).append (hy z)).imp fun us hus ↦ ?_
  obtain ⟨xs, ys, rfl, hxs, hys⟩ := hus
  exact hxs.append hall hys

/-! ## At the end of a container -/

/-- `IsEnd z` says that a container ends in front of a text: nothing is left, or a closing brace
comes first. -/
def IsEnd (z : Text) : Prop :=
  z = [] ∨ ∃ more, z = '\x7d' :: more

/-- `x.EndsWith trees` says that strict reading takes a text at the end of its container and adds
these trees. -/
def EndsWith (x : Text) (trees : Forest Core) : Prop :=
  ∀ z : Text, IsEnd z → x.IsReadAs z (Token.EndsWith · trees)

theorem Does.endsWith_append (hx : x.Does (.adds trees)) (hy : y.EndsWith more) :
    (x ++ y).EndsWith (trees ++ more) := by
  intro z hz
  refine ((hx (y ++ z)).append (hy z hz)).imp fun us hus ↦ ?_
  obtain ⟨xs, ys, rfl, hxs, hys⟩ := hus
  exact .prepend hxs hys

/-- The brace behind a container closes it. -/
theorem EndsWith.close (h : x.EndsWith trees) : (x ++ ['\x7d']).Does (.closes trees) := by
  intro z
  refine ((h ('\x7d' :: z) (.inr ⟨z, rfl⟩)).append (isReadAs_brace z)).imp fun us hus ↦ ?_
  obtain ⟨xs, ys, rfl, hxs, brace, rfl, hbrace⟩ := hus
  exact hxs.block hbrace

theorem IsEnd.head?_isSpace (hz : IsEnd z) :
    z.head?.any (Classifier.stock.is .space) = false := by
  rcases hz with rfl | ⟨more, rfl⟩ <;> rfl

theorem IsEnd.isBreak (hz : IsEnd z) : Scan.IsBreak z := by
  rcases hz with rfl | ⟨more, rfl⟩
  · trivial
  · exact .inr (.inr (.inl rfl))

/-- A text that runs into what follows does so within the container. -/
theorem IsEnd.meets (hz : IsEnd z) (h : Scan.meets x y = true) :
    Scan.meets x (y ++ z) = true := by
  cases y with
  | cons c y => exact h
  | nil =>
      have hspace : z.head? ≠ some ' ' := by
        rcases hz with rfl | ⟨more, rfl⟩
        · exact nofun
        · intro h
          cases h
      simp only [Scan.meets, List.nil_append, hz.head?_isSpace, Bool.and_false, Bool.not_false,
        Bool.and_true, beq_eq_false_iff_ne.mpr hspace] at h ⊢
      exact (Bool.and_eq_true_iff.mp (Bool.and_eq_true_iff.mp h).1).1

/-- White space and semicolons add nothing at the end of a container. -/
theorem endsWith_gap (hx : x.all isGap = true) : x.EndsWith .nil :=
  fun _ hz ↦ (isReadAs_gap (List.all_eq_true.mp hx) hz.head?_isSpace).imp fun _ hus ↦
    .of_does (Token.does_of_blank hus.1)

/-- `x.AddsLast trails core` says that strict reading takes a text without a semicolon at its end
for a leaf at the end of a container. `trails` says which tokens may follow it there, and what
they add. -/
def AddsLast (x : Text) (trails : List Token → Forest Core → Prop) (core : Core) : Prop :=
  ∀ z : Text, Scan.IsBreak z → Scan.meets x z = true → x.IsReadAs z fun us ↦
    ∀ tail trees, trails tail trees → Token.EndsWith (us ++ tail) (.cons core .nil trees)

theorem AddsLast.endsWith_append {trails : List Token → Forest Core → Prop} {core : Core}
    (hx : x.AddsLast trails core) (hmeets : Scan.meets x y = true)
    (hbreak : ∀ z, IsEnd z → Scan.IsBreak (y ++ z))
    (hy : ∀ z, IsEnd z → y.IsReadAs z (trails · trees)) :
    (x ++ y).EndsWith (.cons core .nil trees) := by
  intro z hz
  refine ((hx _ (hbreak z hz) (hz.meets hmeets)).append (hy z hz)).imp fun us hus ↦ ?_
  obtain ⟨xs, ys, rfl, hxs, hys⟩ := hus
  exact hxs ys trees hys

end Text

/-! ## Documents -/

namespace Document

/-- The outline of a document has the kinds of its attached nodes, and says which of them have a
block. -/
def outline (doc : Document) : Forest Core :=
  (doc.treeAt root).map Node.core

/-- A document that is made from a tree has its outline. -/
theorem outline_ofForest (source : Source) (mode : Mode) {top : Node} {below : Forest Node}
    (hblock : top.hasBlock = true) (hbelow : below.IsBlocked) :
    (ofForest source mode (.cons top below .nil)).outline =
      .cons top.core (below.map Node.core) .nil := by
  obtain ⟨hunfolds, hroot, hnodes⟩ := unfolds_ofForest source mode (.inr hblock) hbelow
  generalize hdoc : ofForest source mode (.cons top below .nil) = doc at *
  have hsize : (below.numbers 1).size ≤ doc.size := by
    rw [← hdoc, size_ofForest, Forest.size_numbers, Forest.size]
    omega
  have hcore (n : Node) : n.unlinked.core = n.core := by
    rw [Node.core, Node.core, Node.hasBlock_unlinked, Node.kind_unlinked]
  have hcores (f : Forest Node) : (f.map Node.unlinked).map Node.core = f.map Node.core := by
    rw [Forest.map_map]
    exact congrArg (f.map ·) (funext hcore)
  rw [outline, treeAt, below_eq_of_unfolds hunfolds hsize, Forest.map, ← hcore, hroot, hcore,
    ← hcores, hnodes, hcores]
  rfl

/-- What the nodes of a forest mean can be read off its outline. -/
theorem forestJson_of_core {doc other : Document} {f g : Forest NodeId}
    (h : (f.map doc.node).map Node.core = (g.map other.node).map Node.core) :
    doc.forestJson false f = other.forestJson false g := by
  induction f generalizing g with
  | nil =>
      cases g with
      | nil => rfl
      | cons => cases h
  | cons id below rest ihBelow ihRest =>
      cases g with
      | nil => cases h
      | cons id' below' rest' =>
          obtain ⟨hcore, hbelow, hrest⟩ := Forest.cons.inj h
          obtain ⟨hkind, hblock⟩ := Prod.mk.inj hcore
          simp only [forestJson, nodeJson, Node.type, hkind, hblock, ihBelow hbelow, ihRest hrest]
          rfl

/-- Documents with the same outline mean the same. -/
theorem toSemanticJson_of_outline {doc other : Document} (h : doc.outline = other.outline) :
    doc.toSemanticJson root = other.toSemanticJson root := by
  have htree : doc.forestJson false (.cons root (doc.below root) .nil) =
      other.forestJson false (.cons root (other.below root) .nil) := forestJson_of_core h
  exact (List.cons.inj htree).1

end Document

theorem Assembly.outline_document_ended {a : Assembly} (h : a.IsWhole)
    (hopen : a.enclosing = []) :
    a.ended.document.outline = .cons (.root, true) a.current.outline .nil := by
  obtain ⟨top, hdocument, hkind, hblock, hbelow, -⟩ := h.document_ended hopen
  have hblocked : (Forest.ofRev a.current.earlier).IsBlocked := hbelow.imp fun n f hn ↦ by
    by_cases hnil : f = .nil
    · exact .inl hnil
    · exact .inr (hn.block hnil)
  rw [hdocument, Document.outline_ofForest _ _ hblock hblocked, Node.core, hkind, hblock]
  rfl

/-- What strict reading computes is what is taken outside all blocks. -/
theorem parse_strict_eq_ok {source : Source} {doc : Document} :
    parse source .strict = .ok doc ↔
      ∃ a, (Token.run source.text .fail).failure = none ∧
        TakesRun source.size (start source .strict) (Token.run source.text .fail).tokens a ∧
        a.enclosing = [] ∧ a.ended.document = doc := by
  rw [parse_eq_ok]
  constructor
  · rintro ⟨final, hassemble, hdocument⟩
    obtain ⟨a, hfailure, hruns, hopen, rfl⟩ := assemble_strict_eq_ok hassemble
    exact ⟨a, hfailure, hruns, hopen, hdocument⟩
  · rintro ⟨a, hfailure, hruns, hopen, hdocument⟩
    refine ⟨a.ended, ?_, hdocument⟩
    unfold assemble Statement.ofRun
    dsimp only
    rw [show Mode.openPolicy .strict = .fail from rfl, hfailure]
    show (List.foldlM Assembly.add (start source .strict) _ >>= _) = _
    rw [hruns.foldlM_add rfl (Nat.lt_succ_self _)]
    show a.finish _ = _
    rw [finish_of_enclosing hopen]
    unfold reportHealed
    split
    · next t ht =>
        rw [Token.healed_of_mem_run hfailure (List.mem_of_getLast? ht)]
        rfl
    · rfl

/-- A run of the source that strict assembly takes has recorded all of it. -/
theorem Assembly.TakesRun.isWhole {source : Source} {a : Assembly}
    (hfailure : (Token.run source.text .fail).failure = none)
    (h : TakesRun source.size (start source .strict) (Token.run source.text .fail).tokens a) :
    a.IsWhole :=
  ((isWhole_start source).extends_run (.inl rfl) (fun _ hu ↦
    ⟨Token.isFormed_of_mem_run hfailure hu, Token.healed_of_mem_run hfailure hu⟩) h).1

/-- A text that reaches to the end of a document is read as one with the trees that it adds. -/
theorem parse_of_endsWith {text : Text} {trees : Forest Core} (h : text.EndsWith trees)
    (file : Option String) :
    ∃ doc, parse ⟨text, file⟩ .strict = .ok doc ∧
      doc.outline = .cons (.root, true) trees .nil := by
  have hready : (Lexer.ofText text .fail).IsReady (text ++ []) :=
    ⟨(List.append_nil text).symm, rfl, rfl, nofun⟩
  obtain ⟨us, after, hus, hdoes, hafter⟩ := h [] (.inl rfl) _ hready
  have hrun : Token.run text .fail = ⟨us, none⟩ := congrArg Prod.fst
    ((Lexer.run_eq_iff_reads (Lexer.isPlain_ofText text .fail .stock)).mpr ⟨hus, hafter.rest⟩)
  have hfailure : (Token.run text .fail).failure = none := by rw [hrun]
  obtain ⟨a, hholds, htakes⟩ := hdoes.text (Source.size ⟨text, file⟩)
    (start ⟨text, file⟩ .strict) [] (fun _ ↦ rfl) trivial
  have hruns := htakes a (.nil a)
  rw [List.append_nil, show us = (Token.run text .fail).tokens by rw [hrun]] at hruns
  refine ⟨_, parse_strict_eq_ok.mpr ⟨a, hfailure, hruns, hholds.1, rfl⟩, ?_⟩
  have hwhole : a.IsWhole := TakesRun.isWhole hfailure hruns
  rw [outline_document_ended hwhole hholds.1, hholds.2.2]
  rfl

end Stylesheet
