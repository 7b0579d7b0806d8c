import Stylesheet.Print.Printer
import Stylesheet.Proofs.Blocks

/-!
# What an inferred text is made of

A node that has not recorded a part of its layout is laid out like other nodes, but their text is
not to be copied: all that is taken over is blank. `Style.collect_eq_scan` says that a style holds
what the first node to show an aspect shows, and from this each way to infer a text is followed in
turn. The body of a block without children is the one text that is copied as it is, so that what
is inferred is blank if and only if the block that it is copied from has recorded a blank body
(`infersBlank_iff`).
-/

namespace Stylesheet

/-! ## Blank texts -/

namespace Text

/-- `text.IsBlank` says that a text has no character that is not blank. -/
def IsBlank (text : Text) : Prop := ∀ c ∈ text, c.isBlank = true

variable {first second text : Text}

theorem isBlank_nil : IsBlank [] := nofun

theorem IsBlank.append (h : first.IsBlank) (hsecond : second.IsBlank) :
    IsBlank (first ++ second) := by
  intro c hc
  rcases List.mem_append.mp hc with hc | hc
  · exact h c hc
  · exact hsecond c hc

/-- A line feed does not end a blank text. -/
theorem IsBlank.line (h : text.IsBlank) : IsBlank ('\n' :: text) := by
  intro c hc
  rcases List.mem_cons.mp hc with rfl | hc
  · decide
  · exact h c hc

theorem isBlank_blanks (text : Text) : (blanks text).IsBlank := fun _ ↦ isBlank_of_mem_blanks

theorem isBlank_of_splitLastLine {lines last : Text} (h : splitLastLine text = some (lines, last))
    (htext : text.IsBlank) : lines.IsBlank := by
  rw [← append_of_splitLastLine h] at htext
  exact fun c hc ↦ htext c (List.mem_append_left last hc)

theorem isBlank_newlinePart (text : Text) : (newlinePart text).IsBlank := by
  unfold newlinePart throughLastNewline
  split
  · next hsplit => exact isBlank_of_splitLastLine hsplit (isBlank_blanks text)
  · exact isBlank_blanks text

theorem isBlank_of_lineIndent {indent : Text} (h : lineIndent text = some indent) :
    indent.IsBlank := by
  obtain ⟨cut, _, rfl⟩ := Option.map_eq_some_iff.mp h
  exact isBlank_blanks cut.2

end Text

/-! ## Styles -/

namespace Findings

variable {doc : Document}

theorem text_cons (f : Findings) (noted aspect : Aspect) (sample : Text) :
    text { f with texts := (noted, sample) :: f.texts } aspect =
      if aspect = noted then some sample else f.text aspect := by
  by_cases heq : aspect = noted
  · simp [heq, text]
  · simp [heq, text, List.lookup_cons, beq_false_of_ne heq]

theorem text_note (f : Findings) (noted aspect : Aspect) (sample : Option Text) :
    (f.note noted sample).text aspect =
      if aspect = noted then f.text aspect <|> sample else f.text aspect := by
  unfold note
  cases hfound : f.text noted with
  | some found =>
      dsimp only
      split
      · next heq => rw [heq, hfound]; rfl
      · rfl
  | none =>
      cases sample with
      | some sample =>
          dsimp only
          rw [text_cons]
          split
          · next heq => rw [heq, hfound]; rfl
          · rfl
      | none => simp

theorem text_foldl_note (f : Findings) (aspects : List Aspect) (sample : Aspect → Option Text)
    (aspect : Aspect) :
    (aspects.foldl (fun f aspect ↦ f.note aspect (sample aspect)) f).text aspect =
      if aspect ∈ aspects then f.text aspect <|> sample aspect else f.text aspect := by
  induction aspects generalizing f with
  | nil => rfl
  | cons noted aspects ih =>
      rw [List.foldl_cons, ih, text_note]
      by_cases hnoted : aspect = noted
      · -- A sample that is noted twice adds nothing the second time.
        subst hnoted
        rw [if_pos rfl, if_pos List.mem_cons_self]
        cases f.text aspect <;> cases sample aspect <;> simp
      · simp [hnoted]

theorem semicolon_foldl_note (f : Findings) (aspects : List Aspect)
    (sample : Aspect → Option Text) :
    (aspects.foldl (fun f aspect ↦ f.note aspect (sample aspect)) f).semicolon = f.semicolon := by
  induction aspects generalizing f with
  | nil => rfl
  | cons noted aspects ih =>
      rw [List.foldl_cons, ih]
      unfold note
      split <;> rfl

theorem text_withSemicolon (f : Findings) (semicolon : Option Bool) (aspect : Aspect) :
    text { f with semicolon } aspect = f.text aspect := rfl

theorem text_noteNode (f : Findings) (id : NodeId) (aspect : Aspect) :
    (f.noteNode doc id).text aspect = (f.text aspect <|> doc.sample aspect id) := by
  have hall : aspect ∈ Aspect.all := by cases aspect <;> decide
  unfold noteNode
  rw [text_withSemicolon, text_foldl_note f Aspect.all (doc.sample · id), if_pos hall]

theorem semicolon_noteNode (f : Findings) (id : NodeId) :
    (f.noteNode doc id).semicolon = (f.semicolon <|> doc.semicolonSample id) :=
  congrArg (· <|> doc.semicolonSample id) (semicolon_foldl_note f Aspect.all (doc.sample · id))

theorem text_foldl_noteNode (f : Findings) (ids : List NodeId) (aspect : Aspect) :
    (ids.foldl (noteNode doc) f).text aspect =
      (f.text aspect <|> ids.findSome? (doc.sample aspect)) := by
  induction ids generalizing f with
  | nil => cases h : f.text aspect <;> simp [h]
  | cons id ids ih =>
      rw [List.foldl_cons, ih, text_noteNode, List.findSome?_cons]
      cases f.text aspect <;> cases doc.sample aspect id <;> simp

theorem semicolon_foldl_noteNode (f : Findings) (ids : List NodeId) :
    (ids.foldl (noteNode doc) f).semicolon =
      (f.semicolon <|> ids.findSome? doc.semicolonSample) := by
  induction ids generalizing f with
  | nil => cases h : f.semicolon <;> simp [h]
  | cons id ids ih =>
      rw [List.foldl_cons, ih, semicolon_noteNode, List.findSome?_cons]
      cases f.semicolon <;> cases doc.semicolonSample id <;> simp

end Findings

/-- The style that is kept from one pass is the one that is looked up whenever it is asked for. -/
theorem Style.collect_eq_scan (doc : Document) (top : NodeId) :
    collect doc top = scan doc top := by
  unfold collect scan
  rw [Style.mk.injEq]
  exact ⟨funext fun aspect ↦ Findings.text_foldl_noteNode {} (doc.walk top) aspect,
    Findings.semicolon_foldl_noteNode {} (doc.walk top)⟩

/-! ## Blank samples -/

/-- `aspect.IsBlank` says that a sample of an aspect is blank, whatever the node has recorded. -/
def Aspect.IsBlank (aspect : Aspect) : Prop := aspect ≠ .emptyBody ∧ aspect ≠ .colon

theorem Aspect.isBlank_before (type : NodeType) : (before type).IsBlank := by
  cases type <;> exact ⟨by decide, by decide⟩

theorem Document.isBlank_sample {doc : Document} {aspect : Aspect} {id : NodeId} {text : Text}
    (haspect : aspect.IsBlank) (h : doc.sample aspect id = some text) : text.IsBlank := by
  cases aspect with
  | beforeDeclaration | beforeComment | beforeRule | beforeClose =>
      simp only [sample, beforeSample] at h
      split at h
      · cases h
      · obtain ⟨_, _, rfl⟩ := Option.map_eq_some_iff.mp h
        exact Text.isBlank_newlinePart _
  | emptyBody => exact absurd rfl haspect.1
  | colon => exact absurd rfl haspect.2
  | beforeOpen | commentLeft | commentRight =>
      simp only [sample] at h
      split at h
      · obtain ⟨_, _, rfl⟩ := Option.map_eq_some_iff.mp h
        exact Text.isBlank_blanks _
      · cases h
  | indent =>
      simp only [sample] at h
      split at h
      · obtain ⟨_, _, hindent⟩ := Option.bind_eq_some_iff.mp h
        exact Text.isBlank_of_lineIndent hindent
      · cases h

/-- The texts of these defaults are blank, apart from the colon. -/
structure Defaults.IsBlank (d : Defaults) : Prop where
  indent : d.indent.IsBlank
  beforeOpen : d.beforeOpen.IsBlank
  emptyBody : d.emptyBody.IsBlank
  commentLeft : d.commentLeft.IsBlank
  commentRight : d.commentRight.IsBlank

theorem Defaults.isBlank_default : ({} : Defaults).IsBlank where
  indent := List.all_eq_true.mp rfl
  beforeOpen := List.all_eq_true.mp rfl
  emptyBody := Text.isBlank_nil
  commentLeft := List.all_eq_true.mp rfl
  commentRight := List.all_eq_true.mp rfl

/-! ## Inferred texts -/

namespace Layout

/-- `l.IsBlank` says that a layout adds blank text only to what nodes have recorded. -/
structure IsBlank (l : Layout) : Prop where
  defaults : l.defaults.IsBlank
  style : ∀ {aspect text}, Aspect.IsBlank aspect → l.style.text aspect = some text → text.IsBlank

variable {l : Layout} {id : NodeId}

theorem isBlank_of_fromSibling {pick : NodeId → Option Text} {text : Text}
    (hpick : ∀ {s text}, pick s = some text → text.IsBlank)
    (h : l.fromSibling id pick = some text) : text.IsBlank := by
  obtain ⟨s, _, htext⟩ := List.exists_of_findSome?_eq_some h
  exact hpick htext

/-- A sibling that shows the blank part of what it has recorded shows blank text. -/
theorem isBlank_of_map_blanks {recorded : Option Text} {text : Text}
    (h : recorded.map Text.blanks = some text) : text.IsBlank := by
  obtain ⟨_, _, rfl⟩ := Option.map_eq_some_iff.mp h
  exact Text.isBlank_blanks _

/-- Some siblings are passed over. -/
theorem isBlank_of_unless {skipped : Bool} {recorded : Option Text} {text : Text}
    (h : (if skipped then none else recorded.map Text.blanks) = some text) : text.IsBlank := by
  cases skipped with
  | true => cases h
  | false => exact isBlank_of_map_blanks h

theorem isBlank_of_lineIndent {indent : Text} (h : l.lineIndent id = some indent) :
    indent.IsBlank := by
  obtain ⟨_, _, hindent⟩ := Option.bind_eq_some_iff.mp h
  exact Text.isBlank_of_lineIndent hindent

namespace IsBlank

variable (h : l.IsBlank)
include h

theorem indent : l.indent.IsBlank := by
  have haspect : Aspect.IsBlank .indent := ⟨by decide, by decide⟩
  unfold Layout.indent
  cases htext : l.style.text .indent with
  | some text => exact h.style haspect htext
  | none => exact h.defaults.indent

theorem indentation (depth : Nat) : (l.indentation depth).IsBlank := by
  intro c hc
  obtain ⟨text, htext, hc⟩ := List.mem_flatten.mp hc
  rw [List.eq_of_mem_replicate htext] at hc
  exact h.indent c hc

theorem reindent {text : Text} (htext : text.IsBlank) (depth : Nat) :
    (l.reindent text depth).IsBlank := by
  unfold Layout.reindent
  split
  · next hsplit => exact (Text.isBlank_of_splitLastLine hsplit htext).append (h.indentation depth)
  · exact htext

theorem newline {aspect : Aspect} (haspect : aspect.IsBlank) (depth : Nat) :
    (l.newline aspect depth).IsBlank := by
  apply h.reindent
  cases htext : l.style.text aspect with
  | some text => exact h.style haspect htext
  | none => exact Text.isBlank_nil.line

/-- What is picked from a sibling, from the style or from the defaults is blank if each of them
is. -/
theorem choice {pick : NodeId → Option Text} {aspect : Aspect} {fallback : Text}
    (hpick : ∀ {s text}, pick s = some text → text.IsBlank) (haspect : aspect.IsBlank)
    (hfallback : fallback.IsBlank) :
    ((l.fromSibling id pick <|> l.style.text aspect).getD fallback).IsBlank := by
  cases hsibling : l.fromSibling id pick with
  | some text => exact isBlank_of_fromSibling hpick hsibling
  | none =>
      cases hstyle : l.style.text aspect with
      | some text => exact h.style haspect hstyle
      | none => exact hfallback

theorem inferBefore (id : NodeId) : (l.inferBefore id).IsBlank := by
  unfold Layout.inferBefore
  split
  · exact Text.isBlank_nil
  · split
    · exact Text.isBlank_nil
    · split
      · next hsibling =>
          exact isBlank_of_fromSibling (fun hpick ↦ isBlank_of_unless hpick) hsibling
      · next outer _ houter => exact (isBlank_of_lineIndent houter).line.append h.indent
      · exact h.newline (Aspect.isBlank_before _) _

theorem inferBeforeClose (id : NodeId) : (l.inferBeforeClose id).IsBlank := by
  unfold Layout.inferBeforeClose
  split
  · next hsibling => exact isBlank_of_fromSibling (fun hpick ↦ isBlank_of_unless hpick) hsibling
  · next own => exact (isBlank_of_lineIndent own).line
  · exact h.newline (show Aspect.IsBlank .beforeClose from ⟨by decide, by decide⟩) _

theorem inferBeforeOpen (id : NodeId) : (l.inferBeforeOpen id).IsBlank := by
  refine h.choice (fun {s text} hpick ↦ ?_) ⟨by decide, by decide⟩ h.defaults.beforeOpen
  unfold Document.shownBeforeOpen at hpick
  split at hpick
  · exact isBlank_of_map_blanks hpick
  · cases hpick

theorem commentLeft (hnone : (l.raws id).left = none) : (l.commentLeft id).IsBlank := by
  rw [Layout.commentLeft, Layout.edge, hnone, Option.getD_none]
  exact h.choice isBlank_of_map_blanks ⟨by decide, by decide⟩ h.defaults.commentLeft

theorem commentRight (hnone : (l.raws id).right = none) : (l.commentRight id).IsBlank := by
  rw [Layout.commentRight, Layout.edge, hnone, Option.getD_none]
  exact h.choice isBlank_of_map_blanks ⟨by decide, by decide⟩ h.defaults.commentRight

theorem before (hnone : (l.raws id).before = none) : (l.before id).IsBlank := by
  rw [Layout.before, hnone, Option.getD_none]
  exact h.inferBefore id

theorem between (hnone : (l.raws id).between = none) (htype : l.document.type id ≠ .declaration) :
    (l.between id).IsBlank := by
  rw [Layout.between, hnone]
  dsimp only
  split
  · exact Text.isBlank_nil
  · exact Text.isBlank_nil
  · next hdeclaration => exact absurd hdeclaration htype
  · split
    · exact h.inferBeforeOpen id
    · exact Text.isBlank_nil

end IsBlank

theorem after_eq_of_none (hnone : (l.raws id).after = none) :
    l.after id =
      if l.document.type id = .root then []
      else if (l.document.children id).isEmpty then l.inferEmptyBody id
      else l.inferBeforeClose id := by
  rw [after, hnone]

end Layout

/-! ## Donors -/

namespace Document

variable {doc : Document}

/-- `doc.donor? aspect top id` is the node that a node which has not recorded an aspect takes it
from: the nearest sibling before it that is of the same sort and shows the aspect, or else the
first node below `top` that shows it. -/
def donor? (doc : Document) (aspect : Aspect) (top id : NodeId) : Option NodeId :=
  ((doc.earlier id).filter (doc.type · == doc.type id) ++ doc.walk top).find? fun other ↦
    (doc.sample aspect other).isSome

/-- The first sample that is found is that of the first node that has one. -/
theorem findSome?_sample (aspect : Aspect) (ids : List NodeId) :
    ids.findSome? (doc.sample aspect) =
      (ids.find? fun id ↦ (doc.sample aspect id).isSome).bind (doc.sample aspect) := by
  induction ids with
  | nil => rfl
  | cons id ids ih =>
      rw [List.findSome?_cons, List.find?_cons]
      cases hsample : doc.sample aspect id with
      | some text => exact hsample.symm
      | none => exact ih

end Document

namespace Printer

variable {p : Printer}

/-- With blank defaults a printer adds blank text only. -/
theorem isBlank_layout (hdefaults : p.defaults.IsBlank) (doc : Document) (printed : NodeId) :
    (p.layout doc printed).IsBlank where
  defaults := hdefaults
  style := by
    intro aspect text haspect htext
    rw [layout, Style.collect_eq_scan] at htext
    obtain ⟨_, _, hsample⟩ := List.exists_of_findSome?_eq_some htext
    exact Document.isBlank_sample haspect hsample

/-- What siblings or the document show of an aspect is what the donor shows. -/
theorem sample_donor? (p : Printer) (doc : Document) (aspect : Aspect) (printed id : NodeId) :
    ((p.layout doc printed).fromSibling id (doc.sample aspect) <|>
        (p.layout doc printed).style.text aspect) =
      (doc.donor? aspect (doc.top printed) id).bind (doc.sample aspect) := by
  have hchoice (first second : Option Text) : first.or second = (first <|> second) := by
    cases first <;> rfl
  rw [Document.donor?, ← Document.findSome?_sample, List.findSome?_append, hchoice, layout,
    Style.collect_eq_scan]
  rfl

/-- The body of a block is taken over from its donor as it is. -/
theorem inferEmptyBody_layout (p : Printer) (doc : Document) (printed id : NodeId) :
    (p.layout doc printed).inferEmptyBody id =
      ((doc.donor? .emptyBody (doc.top printed) id).bind (doc.sample .emptyBody)).getD
        p.defaults.emptyBody := by
  rw [← sample_donor?]
  rfl

end Printer

/-- `l.InfersBlank id` says that whatever is inferred for a node that has not recorded it is
blank: the text before it, before its end, between its head and its block, and at the edges of a
comment. -/
structure Layout.InfersBlank (l : Layout) (id : NodeId) : Prop where
  before : (l.raws id).before = none → (l.before id).IsBlank
  after : (l.raws id).after = none → (l.after id).IsBlank
  between : (l.raws id).between = none → l.document.type id ≠ .declaration →
    (l.between id).IsBlank
  left : (l.raws id).left = none → (l.commentLeft id).IsBlank
  right : (l.raws id).right = none → (l.commentRight id).IsBlank

/-- What is inferred is blank, whatever other nodes have recorded, with one exception: a node
without children and without a recorded body is given that of another block, which has to be
blank. -/
theorem infersBlank_iff (p : Printer) (hdefaults : p.defaults.IsBlank) (doc : Document)
    (printed id : NodeId) :
    (p.layout doc printed).InfersBlank id ↔
      ((doc.node id).raws.after = none → doc.type id ≠ .root → doc.children id = [] →
        ∀ donor body, doc.donor? .emptyBody (doc.top printed) id = some donor →
          doc.sample .emptyBody donor = some body → body.IsBlank) := by
  have hlayout := Printer.isBlank_layout hdefaults doc printed
  have hnone (hafter : (doc.node id).raws.after = none) : (p.layout doc printed).after id =
      if doc.type id = .root then []
      else if (doc.children id).isEmpty then (p.layout doc printed).inferEmptyBody id
      else (p.layout doc printed).inferBeforeClose id := Layout.after_eq_of_none hafter
  constructor
  · intro h hafter htype hchildren donor body hdonor hbody
    have hblank := h.after hafter
    rwa [hnone hafter, if_neg htype, if_pos (List.isEmpty_iff.mpr hchildren),
      Printer.inferEmptyBody_layout, hdonor, Option.bind_some, hbody, Option.getD_some] at hblank
  · intro hdonor
    refine ⟨hlayout.before, fun hafter ↦ ?_, hlayout.between, hlayout.commentLeft,
      hlayout.commentRight⟩
    rw [hnone hafter]
    split
    · exact Text.isBlank_nil
    · next htype =>
        split
        · next hchildren =>
            rw [Printer.inferEmptyBody_layout]
            cases hbody : (doc.donor? .emptyBody (doc.top printed) id).bind
                (doc.sample .emptyBody) with
            | none => exact hdefaults.emptyBody
            | some body =>
                obtain ⟨donor, hfound, hsample⟩ := Option.bind_eq_some_iff.mp hbody
                exact hdonor hafter htype
                  (List.isEmpty_iff.mp hchildren) donor body hfound hsample
        · exact hlayout.inferBeforeClose id

/-- The blank body of a block is given to a block behind it. -/
theorem infersBlank_of_blank_body :
    ∃ start, parse ⟨"a{ }".toList, none⟩ .strict = .ok start ∧
      ({} : Printer).defaults.IsBlank ∧
      (({} : Printer).print (Command.run [.create (.rule ['b']), .append 0 2] start)).text =
        "a{ }\nb{ }".toList ∧
      (({} : Printer).layout (Command.run [.create (.rule ['b']), .append 0 2] start)
        Document.root).InfersBlank 2 := by
  refine ⟨_, rfl, Defaults.isBlank_default, rfl,
    (infersBlank_iff {} Defaults.isBlank_default _ Document.root 2).mpr ?_⟩
  intro _ _ _ donor body hdonor hbody
  cases hdonor
  cases hbody
  exact List.all_eq_true.mp rfl

/-- A block that holds a stray semicolon gives it to a block behind it. -/
theorem not_infersBlank_of_stray_semicolon :
    ∃ start, parse ⟨"a{;}".toList, none⟩ .strict = .ok start ∧
      ({} : Printer).defaults.IsBlank ∧
      (Command.run [.create (.rule ['b']), .append 0 2] start).isAttached 2 = true ∧
      (({} : Printer).print (Command.run [.create (.rule ['b']), .append 0 2] start)).text =
        "a{;}\nb{;}".toList ∧
      ¬(({} : Printer).layout (Command.run [.create (.rule ['b']), .append 0 2] start)
        Document.root).InfersBlank 2 := by
  refine ⟨_, rfl, Defaults.isBlank_default, rfl, rfl, fun h ↦ ?_⟩
  have hsemicolon : Char.isBlank ';' = true := h.after rfl ';' (by decide)
  exact absurd hsemicolon (by decide)

end Stylesheet
