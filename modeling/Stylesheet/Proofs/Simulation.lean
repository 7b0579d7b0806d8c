import Stylesheet.Proofs.Draft
import Stylesheet.Proofs.Notes

/-!
# Drafts of assemblies

`Assembly.draft` is the draft that stands for what has been assembled: the array of its nodes, and
the number of its innermost container. `Simulates x y` says that a computation on drafts stays
within all its bounds, and ends in the draft of what assembly ends in, or with the same defect.
The relation composes along `bind`, so that each step of a draft is compared with the step of
assembly once, and runs of steps follow.

This file compares the steps up to those of at-rules. What a step does to the array comes from the
`_arena` lemmas, and what the cuts of the tokens are from those on indices.
-/

namespace Stylesheet

/-- `a.draft` is the draft of what has been assembled. -/
def Assembly.draft (a : Assembly) : Draft where
  doc := a.arena
  current := a.current.id
  last := if a.created = 1 then none else some (a.created - 1)
  spaces := a.spaces
  semicolon := a.semicolon

@[simp] theorem Assembly.doc_draft (a : Assembly) : a.draft.doc = a.arena := rfl

@[simp] theorem Assembly.current_draft (a : Assembly) : a.draft.current = a.current.id := rfl

@[simp] theorem Assembly.spaces_draft (a : Assembly) : a.draft.spaces = a.spaces := rfl

@[simp] theorem Assembly.semicolon_draft (a : Assembly) : a.draft.semicolon = a.semicolon := rfl

/-- `Simulates x y` says that `x` uses no index that is out of range, and computes the draft of
what `y` computes, or finds the defect that `y` finds. -/
def Simulates (x : Checked Draft) (y : Except ParseError Assembly) : Prop :=
  match y with
  | .ok a => x = pure a.draft ∧ a.IsArranged
  | .error e => x = throw e

namespace Simulates

variable {x : Checked Draft} {y : Except ParseError Assembly} {a : Assembly}

theorem ok (h : a.IsArranged) : Simulates (pure a.draft) (.ok a) := ⟨rfl, h⟩

/-- What comes behind is only done with a draft of an assembly. -/
theorem bind (h : Simulates x y) {f : Draft → Checked Draft}
    {g : Assembly → Except ParseError Assembly}
    (hnext : ∀ b, y = .ok b → b.IsArranged → Simulates (f b.draft) (g b)) :
    Simulates (x >>= f) (y >>= g) := by
  cases y with
  | error e =>
      rw [show x = throw e from h]
      rfl
  | ok b =>
      obtain ⟨hx, hb⟩ := h
      have hnext := hnext b rfl hb
      rw [hx]
      exact hnext

end Simulates

@[simp] theorem Checked.lift_bind {α β : Type} (x : α) (f : α → Checked β) :
    ((liftM (some x) : Checked α) >>= f) = f x := rfl

theorem Draft.change?_of_modify? {b : Draft} {id : NodeId} {f : Node → Node} {doc : Document}
    (h : b.doc.modify? id f = some doc) : b.change? id f = some { b with doc } := by
  rw [change?, h]
  rfl

namespace Assembly

variable {a : Assembly}

namespace IsArranged

theorem created_pos (h : a.IsArranged) : 0 < a.created :=
  Nat.lt_of_le_of_lt (Nat.zero_le _) h.current_lt

theorem report_draft (h : a.IsArranged) (defect : Defect) (span : Span) {node : Option NodeId}
    (hnode : ∀ id ∈ node, id < a.created) :
    Simulates (a.draft.report defect span node) (a.report defect span node) := by
  unfold Draft.report Assembly.report
  simp only [draft, source_arena, mode_arena, Source.position?_eq, Checked.lift_bind]
  cases hmode : a.mode with
  | strict => rfl
  | tolerant =>
      dsimp only
      rw [h.recover_arena hnode, ← hmode]
      exact ⟨rfl, h.repair hnode⟩

/-- A defect that concerns no node can always be reported. -/
theorem reportNowhere_draft (h : a.IsArranged) (defect : Defect) (span : Span) :
    Simulates (a.draft.report defect span none) (a.report defect span none) :=
  h.report_draft defect span fun _ hid ↦ nomatch hid

theorem reportAt_draft (h : a.IsArranged) {id : NodeId} (hid : id < a.created) (defect : Defect)
    (span : Span) :
    Simulates (a.draft.report defect span (some id)) (a.report defect span (some id)) :=
  h.report_draft defect span fun _ heq ↦ Option.some.inj heq ▸ hid

end IsArranged

@[simp] theorem newNode?_draft (a : Assembly) (kind : Kind) (offset : Nat) :
    a.draft.newNode? kind offset = some (a.newNode kind offset) := by
  simp [Draft.newNode?, draft, newNode]

@[simp] theorem stopNode?_draft (a : Assembly) (stop : Nat) (node : Node) :
    a.draft.stopNode? stop node = some (a.stopNode stop node) := by
  simp [Draft.stopNode?, draft, stopNode]

end Assembly

/-- A new node that can be put into a document: nothing links to it, and it is no root. -/
structure Node.IsFresh (n : Node) : Prop where
  childList : n.childList = []
  parent : n.parent = none
  type : n.type ≠ .root

theorem Node.childList_ofKind (kind : Kind) : (Node.ofKind kind).childList = [] := by
  unfold Node.ofKind Node.childList
  dsimp only
  split <;> rfl

namespace Node.IsFresh

variable {n : Node}

theorem withRaws (h : n.IsFresh) (raws : Raws) : Node.IsFresh { n with raws } :=
  ⟨h.childList, h.parent, h.type⟩

theorem stopAt (h : n.IsFresh) (stop : Position) : (n.stopAt stop).IsFresh :=
  ⟨h.childList, h.parent, h.type⟩

theorem newNode (a : Assembly) {kind : Kind} (offset : Nat) (h : kind.type ≠ .root) :
    (a.newNode kind offset).IsFresh :=
  ⟨childList_ofKind kind, rfl, h⟩

end Node.IsFresh

namespace Assembly.IsArranged

variable {a : Assembly}

/-- A new leaf can be changed at its number. -/
theorem changeLeaf_draft (h : a.IsArranged) {node : Node} (hleaf : node.childList = [])
    (change : Node → Node)
    (hparent : ∀ (n : Node) parent, change { n with parent } = { change n with parent })
    (hchanged : (change node).childList = []) (semicolon : Bool) :
    (a.addLeaf node semicolon).arena.modify? a.created change =
      some (a.addLeaf (change node) semicolon).arena := by
  have hlt : a.created < (a.addLeaf node semicolon).arena.size := by
    rw [(h.addLeaf node semicolon).size_arena]
    exact Nat.lt_succ_self a.created
  rw [Document.modify?_of_lt hlt, h.modify_arena_leaf hleaf hparent hchanged]

/-- A node is added bare and filled in at its number, which comes to adding it as it is. -/
theorem addLeaf_draft (h : a.IsArranged) {node : Node} (hnode : node.IsFresh) (semicolon : Bool) :
    a.draft.addLeaf? node semicolon = some (a.addLeaf node semicolon).draft := by
  have hbare : (Node.ofKind node.kind).childList = [] := Node.childList_ofKind node.kind
  have happend := h.append_arena hbare rfl hnode.type semicolon
  have hfill := h.changeLeaf_draft hbare (fun n ↦ { node with parent := n.parent })
    (fun _ _ ↦ rfl)
    hnode.childList semicolon
  -- Filling the node in keeps the parent that it has got, and has no other one to bring.
  have hnone : { node with parent := (Node.ofKind node.kind).parent } = node := by
    rw [show (Node.ofKind node.kind).parent = none from rfl, ← hnode.parent]
  have hlast : some a.created = (a.addLeaf node semicolon).draft.last :=
    (if_neg (Nat.ne_of_gt (Nat.lt_add_of_pos_left h.created_pos))).symm
  rw [h.size_arena] at happend
  simp only [Draft.addLeaf?, draft, h.size_arena, happend, hfill, hnone, Option.bind_eq_bind,
    Option.bind_some]
  rw [hlast]
  rfl

/-- The text that waits and the semicolon before it have no place in the array. -/
theorem mark (h : a.IsArranged) (spaces : Text) (semicolon : Bool) :
    { a with spaces, semicolon }.IsArranged :=
  ⟨h.numbered, h.created, h.container, h.repairs⟩

/-- A container that is opened is a leaf that is the container then. -/
theorem openFrame_draft (h : a.IsArranged) (node : Node) :
    (a.openFrame node).draft = { (a.addLeaf node false).draft with current := a.created } := by
  simp only [draft, h.openFrame_arena node false]
  rfl

/-- A container that is closed is one that is not the container any more. -/
theorem close_draft (h : a.IsArranged) {outer : Frame} {enclosing : List Frame}
    (henclosing : a.enclosing = outer :: enclosing) :
    { a with current := outer.adopt a.current.tree, enclosing }.draft =
      { a.draft with current := outer.id } := by
  simp only [draft, h.close_arena henclosing]
  rfl

/-! ### Changes of the container -/

theorem change_draft (h : a.IsArranged) {change : Node → Node} (hchange : Node.IsLocal change) :
    a.draft.change? a.current.id change =
      some { a with current := a.current.mapNode change }.draft := by
  have hmodify := Document.modify?_of_lt (h.size_arena ▸ h.current_lt) change
  rw [h.modify_arena hchange] at hmodify
  exact Draft.change?_of_modify? hmodify

theorem addAfter_draft (h : a.IsArranged) (text : Text) :
    a.draft.addAfter? a.current.id text =
      some { a with current := a.current.addAfter text }.draft :=
  h.change_draft (Node.isLocal_mapRaws fun _ _ ↦ rfl)

theorem addAfter (h : a.IsArranged) (text : Text) :
    { a with current := a.current.addAfter text }.IsArranged :=
  h.mapNode (Node.isLocal_mapRaws fun _ _ ↦ rfl)

theorem node_draft (h : a.IsArranged) : a.arena.node? a.current.id =
    some (a.arena.node a.current.id) :=
  Document.node?_of_lt (h.size_arena ▸ h.current_lt)

theorem isEmpty_childList (h : a.IsArranged) :
    (a.arena.node a.current.id).childList.isEmpty = a.current.earlier.isEmpty := by
  cases hearlier : a.current.earlier with
  | nil =>
      rw [h.childList_arena, Frame.below, hearlier]
      rfl
  | cons tree earlier =>
      have hlast := (h.last_arena hearlier).1
      generalize (a.arena.node a.current.id).childList = children at hlast
      cases children with
      | nil => cases hlast
      | cons => rfl

/-- Ending the contents of the container changes its node. -/
theorem settle_draft (h : a.IsArranged) :
    let settled := { a with current := a.current.settle a.semicolon a.spaces, spaces := [] }
    a.draft.settle? = some settled.draft ∧ settled.IsArranged := by
  have hmark :
      Node.IsLocal (Node.mapRaws fun raws ↦ { raws with semicolon := some a.semicolon }) :=
    Node.isLocal_mapRaws fun _ _ ↦ rfl
  simp only [Draft.settle?, doc_draft, current_draft, spaces_draft, semicolon_draft, h.node_draft,
    Option.bind_eq_bind, Option.bind_some, h.isEmpty_childList, Frame.settle]
  cases a.current.earlier.isEmpty with
  | true =>
      have hafter := h.addAfter_draft a.spaces
      refine ⟨?_, (h.addAfter a.spaces).mark [] a.semicolon⟩
      exact congrArg (Option.bind · fun b ↦ some { b with spaces := [] }) hafter
  | false =>
      have hafter := (h.mapNode hmark).addAfter_draft a.spaces
      have hchange := h.change_draft hmark
      refine ⟨?_, ((h.mapNode hmark).addAfter a.spaces).mark [] a.semicolon⟩
      rw [if_neg Bool.false_ne_true, hchange, if_neg Bool.false_ne_true]
      exact congrArg (Option.bind · fun b ↦ some { b with spaces := [] }) hafter

/-! ### Statements -/

theorem comment_draft (h : a.IsArranged) (t : Token) :
    a.draft.comment? t = some (a.comment t).draft := by
  have hcomment : (commentKind t.text t.healed).1.type = .comment := by
    unfold commentKind
    dsimp only
    generalize (if t.healed = true then _ else _ : Text) = inner
    split <;> rfl
  have hkind : (commentKind t.text t.healed).1.type ≠ .root := hcomment ▸ nofun
  simp only [Draft.comment?, commentKind?_eq, newNode?_draft, stopNode?_draft,
    Option.bind_eq_bind, Option.bind_some, semicolon_draft]
  exact h.addLeaf_draft (((Node.IsFresh.newNode a t.span.start hkind).stopAt _).withRaws _)
    a.semicolon

theorem comment (h : a.IsArranged) (t : Token) : (a.comment t).IsArranged :=
  h.addLeaf _ _

/-- A rule is opened by adding its node, which is the container then. -/
theorem rule_draft (h : a.IsArranged) (head : List Token) (brace : Token) :
    a.draft.rule? head brace = some (a.rule head brace).draft ∧
      (a.rule head brace).IsArranged := by
  let selector := Value.ofTokens false (Token.splitTrailing Token.isTrivia head).1
  let start := (head.head?.getD brace).span.start
  let node := a.newNode (.rule selector.text) start
  let written := { node with
    raws := { node.raws with
      between := some (Token.spelling (Token.splitTrailing Token.isTrivia head).2)
      selector := selector.raw } }
  have hfresh : node.IsFresh := .newNode a start nofun
  have hadd := h.addLeaf_draft (hfresh.withRaws written.raws) false
  refine ⟨?_, h.openFrame rfl rfl⟩
  simp only [Draft.rule?, Token.cutTrailing?_eq, Value.ofIndices?_eq, newNode?_draft,
    Option.bind_eq_bind, Option.bind_some, doc_draft, h.size_arena]
  have hopen := congrArg (Option.bind · fun b ↦ some { b with current := a.created }) hadd
  exact hopen.trans (congrArg some (h.openFrame_draft written).symm)

/-- The last child of the container is found at its number, and asked there whether it is a rule
without a semicolon of its own. -/
theorem last_draft (h : a.IsArranged) {tree : Node × Forest Node}
    {earlier : List (Node × Forest Node)} (hearlier : a.current.earlier = tree :: earlier) :
    ∃ node, a.arena.node? { a.current with earlier }.next = some node ∧
      (node.type == .rule && node.raws.ownSemicolon.isNone) = ownsSemicolon tree := by
  obtain ⟨-, hlt, children, hnode⟩ := h.last_arena hearlier
  refine ⟨_, Document.node?_of_lt hlt, ?_⟩
  have htype := congrArg Node.type hnode
  have hraw := congrArg (·.raws.ownSemicolon) hnode
  change _ = tree.1.type at htype
  change _ = tree.1.raws.ownSemicolon at hraw
  rw [ownsSemicolon, ← htype, ← hraw]
  rfl

/-- A semicolon between statements belongs to the rule that is the last child, or waits. -/
theorem freeSemicolon_draft (h : a.IsArranged) (t : Token) :
    a.draft.freeSemicolon? t = some (a.freeSemicolon t).draft ∧
      (a.freeSemicolon t).IsArranged := by
  unfold Draft.freeSemicolon? freeSemicolon
  simp only [doc_draft, current_draft, spaces_draft, h.node_draft, Option.bind_eq_bind,
    Option.bind_some]
  cases hearlier : a.current.earlier with
  | nil =>
      have hnone : (a.arena.node a.current.id).childList.getLast? = none := by
        rw [h.childList_arena, Frame.below, hearlier]
        rfl
      rw [hnone]
      exact ⟨rfl, h.mark _ a.semicolon⟩
  | cons tree earlier =>
      obtain ⟨hlast, hlt, -⟩ := h.last_arena hearlier
      obtain ⟨node, hnode, howns⟩ := h.last_draft hearlier
      rw [hlast]
      simp only [hnode, Option.bind_some, howns]
      cases ownsSemicolon tree with
      | false => exact ⟨rfl, h.mark _ a.semicolon⟩
      | true =>
          let change : Node → Node :=
            Node.mapRaws fun raws ↦ { raws with ownSemicolon := some (a.spaces ++ t.text) }
          have hchange : Node.IsLocal change := Node.isLocal_mapRaws fun _ _ ↦ rfl
          have hmodify := Document.modify?_of_lt hlt change
          rw [h.modify_arena_last hearlier hchange] at hmodify
          refine ⟨?_, (h.relayout hearlier (change tree.1)).mark [] a.semicolon⟩
          have hdraft := Draft.change?_of_modify? (b := a.draft) hmodify
          rw [if_pos rfl, if_pos rfl]
          exact congrArg (Option.bind · fun b ↦ some { b with spaces := [] }) hdraft

/-- Behind the container is the one around it, if there is one. -/
theorem leave_draft (h : a.IsArranged) (t : Token) :
    Simulates (a.draft.leave t) (match a.enclosing with
      | outer :: enclosing =>
          .ok { a with
            current := outer.adopt (a.current.mapNode (a.stopNode t.span.stop)).tree
            enclosing }
      | [] => do
          let a ← a.report .unexpectedClose t.span (some a.current.id)
          return { a with current := a.current.addAfter t.text }) := by
  unfold Draft.leave
  simp only [doc_draft, current_draft, h.node_draft, Checked.lift_bind, h.parent_arena,
    source_arena, Source.endPosition?_eq]
  cases henclosing : a.enclosing with
  | nil =>
      refine (h.reportAt_draft h.current_lt _ _).bind fun b _ harranged ↦ ?_
      have hafter := harranged.addAfter_draft t.text
      simp only [current_draft, hafter]
      exact .ok (harranged.addAfter t.text)
  | cons outer enclosing =>
      have hstop : Node.IsLocal (a.stopNode t.span.stop) := Node.isLocal_stopAt _
      have hchange := h.change_draft hstop
      have hclosed := (h.mapNode hstop).close henclosing
      have hdraft := (h.mapNode hstop).close_draft henclosing
      change Simulates
        (liftM (a.draft.change? a.current.id (a.stopNode t.span.stop)) >>= fun closed ↦ _) _
      rw [hchange, Checked.lift_bind, ← hdraft]
      exact .ok hclosed

/-- A closing brace closes the container, or waits if that is the outermost one. -/
theorem closeBlock_draft (h : a.IsArranged) (t : Token) :
    Simulates (a.draft.closeBlock t) (a.closeBlock t) := by
  obtain ⟨hdraft, hsettled⟩ := h.settle_draft
  unfold Draft.closeBlock
  rw [hdraft, Checked.lift_bind]
  exact (hsettled.mark [] false).leave_draft t

theorem throwOpen_draft (a : Assembly) (e : TokenizeError) :
    Simulates (throwOpen a.draft.doc.source e)
      (.error (ParseError.ofTokenizeError a.source e)) := by
  rw [throwOpen, doc_draft, source_arena, Source.position?_eq]
  rfl

theorem stray_draft (h : a.IsArranged) (tokens : List Token) :
    Simulates (a.draft.stray tokens) (a.stray tokens) := by
  cases tokens with
  | nil => exact .ok h
  | cons t rest =>
      refine (h.reportNowhere_draft _ _).bind fun b _ hb ↦ ?_
      exact .ok (a := b.wait (Token.spelling (t :: rest))) (hb.mark _ b.semicolon)

/-! ### At-rules -/

theorem reportName_draft (h : a.IsArranged) (word : Token) {id : NodeId} (hid : id < a.created) :
    Simulates (a.draft.reportName word (word.text.drop 1) id) (a.reportName word id) := by
  unfold Draft.reportName reportName
  split
  · exact h.reportAt_draft hid _ _
  · exact .ok h

theorem isFresh_atRuleNode (a : Assembly) (word : Token) (params : List Token) (between : Text) :
    (a.atRuleNode word params between).IsFresh :=
  (Node.IsFresh.newNode a _ (nofun : (Kind.atRule _ _).type ≠ .root)).withRaws _

theorem atRuleNode?_draft (a : Assembly) (word : Token) (params : List Token) (between : Text) :
    a.draft.atRuleNode? word (.ofTokens word params) between =
      some (a.atRuleNode word params between) := by
  simp only [Draft.atRuleNode?, Value.ofIndices?_eq, newNode?_draft, Option.bind_eq_bind,
    Option.bind_some]
  rfl

/-- A block is opened behind the other nodes. -/
theorem openBlock_draft (h : a.IsArranged) {node : Node} (hnode : node.IsFresh) :
    (a.addLeaf node false).draft.change? a.created Node.openBlock =
      some (a.addLeaf node.openBlock false).draft := by
  have hmodify := h.changeLeaf_draft hnode.childList Node.openBlock
    (fun _ _ ↦ rfl) hnode.childList false
  exact Draft.change?_of_modify? hmodify

theorem addAtRule_draft (h : a.IsArranged) (word : Token) (params : List Token)
    (ending : AtRuleEnd) :
    a.draft.addAtRule? word params (.ofTokens word params) ending =
        some (a.addAtRule word params ending).draft ∧
      (a.addAtRule word params ending).IsArranged := by
  have hfresh := isFresh_atRuleNode a word params
  simp only [Draft.addAtRule?, atRuleNode?_draft, stopNode?_draft, Option.bind_eq_bind,
    Option.bind_some, doc_draft, h.size_arena]
  cases ending with
  | semicolon t => exact ⟨h.addLeaf_draft ((hfresh _).stopAt _) true, h.addLeaf _ _⟩
  | block t =>
      -- Its block is opened only when the node is there.
      refine ⟨?_, h.openFrame rfl rfl⟩
      have hwhole := hfresh (Token.spelling (Token.splitTrailing Token.isTrivia params).2)
      have hadd := h.addLeaf_draft hwhole false
      have hopen := h.openBlock_draft hwhole
      have hcurrent := h.openFrame_draft (a.atRuleWhole word params).openBlock
      refine Eq.trans ?_ (congrArg some hcurrent.symm)
      refine (congrArg (Option.bind · _) hadd).trans ?_
      exact congrArg (Option.bind · fun b ↦ some { b with current := a.created }) hopen
  | close t => exact ⟨h.addLeaf_draft ((hfresh _).stopAt _) false, h.addLeaf _ _⟩
  | input => exact ⟨h.addLeaf_draft ((hfresh _).stopAt _) false, h.addLeaf _ _⟩
  | failure e => exact ⟨h.addLeaf_draft (hfresh _) false, h.addLeaf _ _⟩

theorem leaveAtRule_draft (h : a.IsArranged) (word : Token) (params : List Token)
    (ending : AtRuleEnd) :
    Simulates (a.draft.leaveAtRule (.ofTokens word params) ending)
      (a.leaveAtRule params ending) := by
  cases ending with
  | semicolon t => exact .ok h
  | block t => exact .ok h
  | close t => exact h.closeBlock_draft t
  | input =>
      unfold Draft.leaveAtRule leaveAtRule
      change Simulates (if (atRuleCore params).isEmpty then _ else _) _
      split
      · exact .ok h
      · exact .ok (a := a.wait _) (h.mark _ a.semicolon)
  | failure e => exact throwOpen_draft a e

theorem atRule_draft (h : a.IsArranged) {word : Token} {name : Text}
    (hword : word.text = '@' :: name) (params : List Token) (ending : AtRuleEnd) :
    Simulates (a.draft.atRule word params ending) (a.atRule word params ending) := by
  obtain ⟨hadd, hadded⟩ := h.addAtRule_draft word params ending
  have hid : a.created < (a.addAtRule word params ending).created := by
    cases ending <;> exact Nat.lt_succ_self a.created
  rw [atRule_eq_reportName, Draft.atRule, AtRuleParts.ofIndices?_eq hword,
    Checked.lift_bind, hadd, Checked.lift_bind, doc_draft, h.size_arena]
  exact (hadded.reportName_draft word hid).bind
    fun b _ hb ↦ hb.leaveAtRule_draft word params ending

end Assembly.IsArranged

end Stylesheet
