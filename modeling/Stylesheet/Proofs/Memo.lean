import Stylesheet.Proofs.Inference

/-!
# A style that is looked up on demand

A printer finds the style of a document in one pass, before it lays out any node. The style can as
well be looked up piece by piece, each piece when a node is first laid out that has to know it,
and be kept in a `Memo` for the nodes behind. A `Recall` is a computation that does so, and
`Layout.recallAnswer` answers a `Query` about the layout of a node in this way; one query can look
up several pieces, as what starts a line needs the indentation too.

Every entry of a memo is what the style says (`Memo.IsTrue`). No query breaks this, and with any
such memo it gets the same answer (`Recall.Tells`). So a sequence of queries is answered as if
each of them had been the first one (`recall_sequence`), and as the printer would answer it.
-/

namespace Stylesheet

/-- What has been looked up of a style. Of an aspect that the document does not show, this is kept
too. -/
structure Memo where
  texts : List (Aspect × Option Text) := []
  semicolon : Option (Option Bool) := none
  deriving Repr, DecidableEq

/-- A computation that looks a style up where it has to and remembers what it has found. -/
abbrev Recall := StateM Memo

/-! ## Layouts on demand -/

namespace Layout

/-- `l.recallText aspect` is what the style says about an aspect. It is looked up unless it is
remembered. -/
def recallText (l : Layout) (aspect : Aspect) : Recall (Option Text) := do
  let memo ← get
  match memo.texts.lookup aspect with
  | some found => return found
  | none =>
      let found := l.style.text aspect
      set { memo with texts := (aspect, found) :: memo.texts }
      return found

/-- `l.recallFlag` is what the style says about the semicolon behind a last declaration. -/
def recallFlag (l : Layout) : Recall (Option Bool) := do
  let memo ← get
  match memo.semicolon with
  | some found => return found
  | none =>
      let found := l.style.semicolon
      set { memo with semicolon := some found }
      return found

/-- The text that one level is indented by. -/
def recallIndent (l : Layout) : Recall Text := do
  return (← l.recallText .indent).getD l.defaults.indent

/-- `l.recallReindent text depth` replaces what follows the last line feed by the indentation of a
depth. -/
def recallReindent (l : Layout) (text : Text) (depth : Nat) : Recall Text :=
  match Text.splitLastLine text with
  | some (lines, _) => return lines ++ (List.replicate depth (← l.recallIndent)).flatten
  | none => return text

/-- `l.recallNewline aspect depth` is the text that starts a line at a depth, as the document
shows it. -/
def recallNewline (l : Layout) (aspect : Aspect) (depth : Nat) : Recall Text := do
  l.recallReindent ((← l.recallText aspect).getD ['\n']) depth

/-- `l.recallChoice id pick aspect fallback` is what `pick` takes from a sibling before the node,
or else what the style says about an aspect, or else the fallback. -/
def recallChoice (l : Layout) (id : NodeId) (pick : NodeId → Option Text) (aspect : Aspect)
    (fallback : Text) : Recall Text :=
  match l.fromSibling id pick with
  | some text => return text
  | none => return (← l.recallText aspect).getD fallback

/-- `l.recallBefore id` is the text before a node. -/
def recallBefore (l : Layout) (id : NodeId) : Recall Text :=
  match (l.raws id).before with
  | some text => return text
  | none =>
      match l.document.parent id with
      | none => return []
      | some parent =>
          if l.document.isFirstOfRoot id then return []
          else
            match l.fromSibling id l.document.shownBefore, l.lineIndent parent with
            | some text, _ => return text
            | none, some outer => return '\n' :: outer ++ (← l.recallIndent)
            | none, none => l.recallNewline (.before (l.document.type id)) (l.document.depth id)

/-- `l.recallAfter id` is the text before the end of a block. -/
def recallAfter (l : Layout) (id : NodeId) : Recall Text :=
  match (l.raws id).after with
  | some text => return text
  | none =>
      if l.document.type id = .root then return []
      else if (l.document.children id).isEmpty then
        l.recallChoice id l.document.shownEmptyBody .emptyBody l.defaults.emptyBody
      else
        match l.fromSibling id l.document.shownBeforeClose, l.lineIndent id with
        | some text, _ => return text
        | none, some own => return '\n' :: own
        | none, none => l.recallNewline .beforeClose (l.document.depth id)

/-- `l.recallBetween id` is the text between the head of a node and its block or value. -/
def recallBetween (l : Layout) (id : NodeId) : Recall Text :=
  match (l.raws id).between with
  | some text => return text
  | none =>
      match l.document.type id with
      | .root | .comment => return []
      | .declaration =>
          l.recallChoice id l.document.shownColon .colon l.defaults.colon
      | _ =>
          if (l.document.node id).hasBlock then
            l.recallChoice id l.document.shownBeforeOpen .beforeOpen l.defaults.beforeOpen
          else return []

/-- `l.recallSemicolon id` says that the last child of a node ends with a semicolon if it can have
one. -/
def recallSemicolon (l : Layout) (id : NodeId) : Recall Bool :=
  match (l.raws id).semicolon with
  | some flag => return flag
  | none =>
      if l.document.type id = .root then return l.defaults.semicolon
      else
        match l.fromSibling id l.document.semicolonSample with
        | some flag => return flag
        | none => return (← l.recallFlag).getD l.defaults.semicolon

/-- `l.recallSide id side aspect fallback` is the text at one edge of a comment. -/
def recallSide (l : Layout) (id : NodeId) (side : Raws → Option Text) (aspect : Aspect)
    (fallback : Text) : Recall Text :=
  match side (l.raws id) with
  | some text => return text
  | none => l.recallChoice id (l.document.shownEdge side) aspect fallback

/-- `l.recallLeft id` is the text at the start of a comment. -/
def recallLeft (l : Layout) (id : NodeId) : Recall Text :=
  l.recallSide id Raws.left .commentLeft l.defaults.commentLeft

/-- `l.recallRight id` is the text at the end of a comment. -/
def recallRight (l : Layout) (id : NodeId) : Recall Text :=
  l.recallSide id Raws.right .commentRight l.defaults.commentRight

end Layout

/-- A question about the layout of a node. -/
inductive Query where
  | before (id : NodeId)
  | between (id : NodeId)
  | after (id : NodeId)
  | semicolon (id : NodeId)
  | commentLeft (id : NodeId)
  | commentRight (id : NodeId)
  deriving Repr, DecidableEq

/-- The answer to a query. -/
inductive Answer where
  | text (text : Text)
  | flag (flag : Bool)
  deriving Repr, DecidableEq

namespace Layout

/-- `l.answer query` is the answer of a layout whose style is known. -/
def answer (l : Layout) : Query → Answer
  | .before id => .text (l.before id)
  | .between id => .text (l.between id)
  | .after id => .text (l.after id)
  | .semicolon id => .flag (l.semicolon id)
  | .commentLeft id => .text (l.commentLeft id)
  | .commentRight id => .text (l.commentRight id)

/-- `l.recallAnswer query` answers a query with what is remembered of the style. -/
def recallAnswer (l : Layout) : Query → Recall Answer
  | .before id => .text <$> l.recallBefore id
  | .between id => .text <$> l.recallBetween id
  | .after id => .text <$> l.recallAfter id
  | .semicolon id => .flag <$> l.recallSemicolon id
  | .commentLeft id => .text <$> l.recallLeft id
  | .commentRight id => .text <$> l.recallRight id

end Layout

/-! ## What is remembered is true -/

/-- `memo.IsTrue style` says that every entry of a memo is what the style says. -/
structure Memo.IsTrue (memo : Memo) (style : Style) : Prop where
  texts : ∀ {aspect found}, memo.texts.lookup aspect = some found → found = style.text aspect
  semicolon : ∀ {found}, memo.semicolon = some found → found = style.semicolon

theorem Memo.isTrue_empty (style : Style) : Memo.IsTrue {} style := ⟨nofun, nofun⟩

/-- A memo stays true when a piece of the style is added to it. -/
theorem Memo.IsTrue.keep {memo : Memo} {style : Style} (h : memo.IsTrue style) (aspect : Aspect) :
    Memo.IsTrue { memo with texts := (aspect, style.text aspect) :: memo.texts } style := by
  refine ⟨fun {other found} hother ↦ ?_, h.semicolon⟩
  rw [List.lookup_cons] at hother
  split at hother
  · next heq =>
      rw [eq_of_beq heq]
      exact (Option.some.inj hother).symm
  · exact h.texts hother

namespace Recall

variable {α β : Type} {style : Style} {a : α} {b : β}

/-- `r.Tells style a` says that `r` computes `a` with any true memo of a style, and leaves a true
one. -/
def Tells (r : Recall α) (style : Style) (a : α) : Prop :=
  ∀ memo : Memo, memo.IsTrue style → (r.run memo).1 = a ∧ Memo.IsTrue (r.run memo).2 style

theorem tells_pure (style : Style) (a : α) : Tells (pure a) style a := fun _ h ↦ ⟨rfl, h⟩

theorem Tells.bind {r : Recall α} {next : α → Recall β} (hr : r.Tells style a)
    (hnext : (next a).Tells style b) : (r >>= next).Tells style b := by
  intro memo hmemo
  obtain ⟨hanswer, hleft⟩ := hr memo hmemo
  have hrun := hnext (r.run memo).2 hleft
  rw [← hanswer] at hrun
  exact hrun

theorem Tells.map {r : Recall α} (hr : r.Tells style a) (f : α → β) :
    (f <$> r).Tells style (f a) := by
  rw [map_eq_pure_bind]
  exact hr.bind (tells_pure style (f a))

/-- The queries of a sequence are answered one by one. -/
theorem tells_mapM {ask : α → Recall β} {answer : α → β}
    (h : ∀ query, (ask query).Tells style (answer query)) (queries : List α) :
    Tells (queries.mapM ask) style (queries.map answer) := by
  induction queries with
  | nil => exact tells_pure style []
  | cons query queries ih =>
      rw [List.mapM_cons]
      exact (h query).bind (ih.bind (tells_pure style _))

end Recall

/-! ## What is recalled is the layout -/

namespace Layout

open Recall

variable (l : Layout) (id : NodeId)

theorem tells_text (aspect : Aspect) :
    (l.recallText aspect).Tells l.style (l.style.text aspect) := by
  intro memo hmemo
  cases hfound : memo.texts.lookup aspect with
  | some found =>
      have hrun : (l.recallText aspect).run memo = pure (found, memo) := by
        simp [recallText, hfound]
      rw [hrun]
      exact ⟨hmemo.texts hfound, hmemo⟩
  | none =>
      have hrun : (l.recallText aspect).run memo =
          pure (l.style.text aspect,
            { memo with texts := (aspect, l.style.text aspect) :: memo.texts }) := by
        simp [recallText, hfound]
      rw [hrun]
      exact ⟨rfl, hmemo.keep aspect⟩

theorem tells_flag : l.recallFlag.Tells l.style l.style.semicolon := by
  intro memo hmemo
  cases hfound : memo.semicolon with
  | some found =>
      have hrun : l.recallFlag.run memo = pure (found, memo) := by simp [recallFlag, hfound]
      rw [hrun]
      exact ⟨hmemo.semicolon hfound, hmemo⟩
  | none =>
      have hrun : l.recallFlag.run memo =
          pure (l.style.semicolon, { memo with semicolon := some l.style.semicolon }) := by
        simp [recallFlag, hfound]
      rw [hrun]
      exact ⟨rfl, hmemo.texts, fun hother ↦ (Option.some.inj hother).symm⟩

theorem tells_indent : l.recallIndent.Tells l.style l.indent :=
  (l.tells_text .indent).bind (tells_pure _ _)

theorem tells_reindent (text : Text) (depth : Nat) :
    (l.recallReindent text depth).Tells l.style (l.reindent text depth) := by
  unfold recallReindent reindent
  cases Text.splitLastLine text with
  | some cut => exact l.tells_indent.bind (tells_pure _ _)
  | none => exact tells_pure _ _

theorem tells_newline (aspect : Aspect) (depth : Nat) :
    (l.recallNewline aspect depth).Tells l.style (l.newline aspect depth) :=
  (l.tells_text aspect).bind (l.tells_reindent _ depth)

theorem tells_choice (pick : NodeId → Option Text) (aspect : Aspect) (fallback : Text) :
    (l.recallChoice id pick aspect fallback).Tells l.style
      ((l.fromSibling id pick <|> l.style.text aspect).getD fallback) := by
  unfold recallChoice
  cases l.fromSibling id pick with
  | some text => exact tells_pure _ _
  | none => exact (l.tells_text aspect).bind (tells_pure _ _)

theorem tells_before : (l.recallBefore id).Tells l.style (l.before id) := by
  unfold recallBefore before inferBefore
  cases (l.raws id).before with
  | some text => exact tells_pure _ _
  | none =>
      rw [Option.getD_none]
      cases l.document.parent id with
      | none => exact tells_pure _ _
      | some parent =>
          dsimp only
          split
          · exact tells_pure _ _
          · cases l.fromSibling id l.document.shownBefore with
            | some text => exact tells_pure _ _
            | none =>
                cases l.lineIndent parent with
                | some outer => exact l.tells_indent.bind (tells_pure _ _)
                | none => exact l.tells_newline _ _

theorem tells_after : (l.recallAfter id).Tells l.style (l.after id) := by
  unfold recallAfter after
  cases (l.raws id).after with
  | some text => exact tells_pure _ _
  | none =>
      dsimp only
      split
      · exact tells_pure _ _
      · split
        · exact l.tells_choice id _ _ _
        · unfold inferBeforeClose
          cases l.fromSibling id l.document.shownBeforeClose with
          | some text => exact tells_pure _ _
          | none =>
              cases l.lineIndent id with
              | some own => exact tells_pure _ _
              | none => exact l.tells_newline _ _

theorem tells_between : (l.recallBetween id).Tells l.style (l.between id) := by
  unfold recallBetween between
  cases (l.raws id).between with
  | some text => exact tells_pure _ _
  | none =>
      cases l.document.type id with
      | root | comment => exact tells_pure _ _
      | declaration => exact l.tells_choice id _ _ _
      | atRule | rule | other =>
          dsimp only
          split
          · exact l.tells_choice id _ _ _
          · exact tells_pure _ _

theorem tells_semicolon : (l.recallSemicolon id).Tells l.style (l.semicolon id) := by
  unfold recallSemicolon semicolon
  cases (l.raws id).semicolon with
  | some flag => exact tells_pure _ _
  | none =>
      dsimp only
      split
      · exact tells_pure _ _
      · cases l.fromSibling id l.document.semicolonSample with
        | some flag => exact tells_pure _ _
        | none => exact l.tells_flag.bind (tells_pure _ _)

theorem tells_side (side : Raws → Option Text) (aspect : Aspect) (fallback : Text) :
    (l.recallSide id side aspect fallback).Tells l.style (l.edge side aspect fallback id) := by
  unfold recallSide edge
  cases side (l.raws id) with
  | some text => exact tells_pure _ _
  | none => exact l.tells_choice id _ _ _

/-- A query gets the answer of the layout, whatever is remembered of its style. -/
theorem tells_recall (query : Query) : (l.recallAnswer query).Tells l.style (l.answer query) := by
  cases query with
  | before id => exact (l.tells_before id).map Answer.text
  | between id => exact (l.tells_between id).map Answer.text
  | after id => exact (l.tells_after id).map Answer.text
  | semicolon id => exact (l.tells_semicolon id).map Answer.flag
  | commentLeft id => exact (l.tells_side id Raws.left _ _).map Answer.text
  | commentRight id => exact (l.tells_side id Raws.right _ _).map Answer.text

end Layout

/-- What is remembered does not show in the answers. Queries that are made one after the other,
about any nodes and in any order, are answered as each of them would be with nothing remembered,
and as a layout answers them whose style was found in one pass. -/
theorem recall_sequence (doc : Document) (defaults : Defaults) (top : NodeId)
    (queries : List Query) :
    let l : Layout := ⟨doc, defaults, .scan doc top⟩
    ((queries.mapM l.recallAnswer).run {}).1 =
      queries.map (fun query ↦ ((l.recallAnswer query).run {}).1) ∧
      ∀ query, ((l.recallAnswer query).run {}).1 =
        Layout.answer ⟨doc, defaults, .collect doc top⟩ query := by
  intro l
  have hempty : Memo.IsTrue {} l.style := Memo.isTrue_empty l.style
  have hfresh (query : Query) : ((l.recallAnswer query).run {}).1 = l.answer query :=
    (l.tells_recall query {} hempty).1
  constructor
  · simp only [hfresh]
    exact (Recall.tells_mapM l.tells_recall queries {} hempty).1
  · intro query
    rw [hfresh, Style.collect_eq_scan]

end Stylesheet
