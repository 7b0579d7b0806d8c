import Mathlib.Data.List.TakeDrop
import Stylesheet.Proofs.Rescan
import Stylesheet.Proofs.Scanners
import Stylesheet.Proofs.Simulation
import Stylesheet.Proofs.Tokens
import Stylesheet.Proofs.Totality

/-!
# Reading in place computes what is read token by token

The declarations of a run of tokens are read in place as assembly reads them, by induction on the
number of cuts that are left. Where assembly reports a defect before it adds a node,
`Stylesheet.Proofs.Notes` turns the two round. Of the tokens only a little has to be known:
`Statement.IsScanned` holds of all statements that a text is grouped into, since each of its
tokens starts as its kind promises.

`readInPlace_total` is the result for whole texts: no index is out of range, no difference is
below zero and no bound is reached, so that reading ends with a document or a defect, and tolerant
reading ends with a document.
-/

namespace Stylesheet

namespace Assembly.IsArranged

variable {a : Assembly} {id : NodeId}

/-! ## Declarations -/

theorem reportColon_draft (h : a.IsArranged) (hid : id < a.created) (value : List Token) :
    Simulates (a.draft.reportColon value id) (a.reportColon value id) := by
  unfold Draft.reportColon reportColon
  cases leadingColon value with
  | some t => exact h.reportAt_draft hid _ _
  | none => exact .ok h

theorem reportWords_draft (h : a.IsArranged) (hid : id < a.created) (words : List Token) :
    Simulates (words.foldlM (fun b t ↦ b.report (.unknownWord t.text) t.span (some id)) a.draft)
      (a.reportWords words id) := by
  induction words generalizing a with
  | nil => exact .ok h
  | cons t words ih =>
      rw [List.foldlM_cons]
      refine (h.reportAt_draft hid _ _).bind fun b hb harranged ↦ ?_
      obtain ⟨recovery, rfl⟩ := report_eq_ok hb
      exact ih harranged hid

theorem cutValue?_eq (mode : Mode) (value : List Token) :
    Draft.cutValue? mode value = some ((cutValue mode value).map Missed.placed) := by
  cases mode with
  | strict => rfl
  | tolerant => exact Missed.ofIndices?_eq value

theorem reportMissed_draft (h : a.IsArranged) (hid : id < a.created) {value : List Token}
    {missed : Option Missed} (hmissed : cutValue a.mode value = missed) :
    Simulates (a.draft.reportMissed value (missed.map Missed.placed) id)
      (a.reportMissed value id) := by
  subst hmissed
  unfold Draft.reportMissed reportMissed
  rw [doc_draft, mode_arena]
  cases hmode : a.mode with
  | strict => exact .ok h
  | tolerant =>
      refine (h.reportColon_draft hid value).bind fun b hb harranged ↦ ?_
      obtain ⟨more, rfl⟩ := (isReport_reportColon value id).eq_note hb
      dsimp only [cutValue]
      cases Missed.ofValue? value with
      | none => exact .ok harranged
      | some missed => exact harranged.reportAt_draft hid _ _

theorem checkColons_draft (h : a.IsArranged) (hid : id < a.created) (custom : Bool) (value : Text)
    (tokens : List Token) :
    Simulates (a.draft.checkColons custom value tokens id)
      (a.checkColons custom value tokens id) := by
  unfold Draft.checkColons checkColons
  rw [doc_draft, mode_arena]
  split
  · refine (h.reportColon_draft hid tokens).bind fun b hb harranged ↦ ?_
    obtain ⟨more, rfl⟩ := (isReport_reportColon tokens id).eq_note hb
    rw [colonIndex?_eq]
    cases hsecond : secondColon tokens with
    | none => exact .ok harranged
    | some cut =>
        obtain ⟨before, behind⟩ := cut
        dsimp only [Option.map_some]
        rw [missedFrom?_eq hsecond]
        exact harranged.reportAt_draft hid _ _
  · exact .ok h

theorem checkValue_draft (h : a.IsArranged) (hid : id < a.created) (custom : Bool) (value : Text)
    (terminator : Nat) :
    Simulates (a.draft.checkValue custom value terminator id)
      (a.checkValue custom value terminator id) := by
  unfold Draft.checkValue checkValue
  split
  · exact h.reportAt_draft hid _ _
  · exact .ok h

theorem declarationNode?_draft (a : Assembly) (custom : Bool) {tokens : List Token} {last : Token}
    (hlast : tokens.getLast? = some last) (parts : Parts) (marked : Marked) :
    a.draft.declarationNode? custom last parts parts.start marked =
      some (a.declarationNode custom tokens parts marked) := by
  simp only [Draft.declarationNode?, hackSign?_eq, Value.ofIndices?_eq, newNode?_draft,
    stopNode?_draft, Option.bind_eq_bind, Option.bind_some]
  have hstop : Token.stopOr tokens 0 = last.span.stop := by rw [Token.stopOr, hlast]; rfl
  rw [declarationNode, hstop]
  rfl

theorem isFresh_declarationNode (a : Assembly) (custom : Bool) (tokens : List Token)
    (parts : Parts) (marked : Marked) : (a.declarationNode custom tokens parts marked).IsFresh :=
  ((Node.IsFresh.newNode a _ (nofun : (Kind.declaration _ _ _).type ≠ .root)).withRaws _).stopAt _

theorem isFresh_declaredNode (a : Assembly) (custom : Bool) (tokens : List Token) (parts : Parts)
    (missed : Option Missed) : (a.declaredNode custom tokens parts missed).IsFresh := by
  cases missed with
  | none => exact isFresh_declarationNode a custom tokens parts _
  | some missed =>
      unfold declaredNode cutNode
      dsimp only
      split
      · exact isFresh_declarationNode a custom tokens parts _
      · exact (isFresh_declarationNode a custom tokens parts _).stopAt _

/-- A declaration whose value is cut ends where the part that is kept ends, if any is. -/
theorem stopEarly?_draft (a : Assembly) (custom : Bool) (tokens : List Token) (parts : Parts)
    (missed : Option Missed) :
    a.draft.stopEarly? (missed.bind (·.keptStop?)) (a.declarationNode custom tokens parts
        (takeImportant ((missed.map (·.kept)).getD parts.value))) =
      some (a.declaredNode custom tokens parts missed) := by
  cases missed with
  | none => rfl
  | some missed =>
      have hstop (kept : List Token) (node : Node) :
          a.draft.stopEarly? (kept.getLast?.map (·.span.stop)) node =
            some (if kept.isEmpty then node else a.stopNode (Token.stopOr kept 0) node) := by
        rcases List.eq_nil_or_concat kept with rfl | ⟨before, last, rfl⟩
        · rfl
        · simp [Draft.stopEarly?, Token.stopOr]
      exact hstop missed.kept _

/-- What stands behind a missed semicolon is added with one cut less, if that is enough for it. -/
theorem declareRest_draft (h : a.IsArranged) {cuts : Nat} {missed : Option Missed} (ended : Bool)
    (terminator : Nat)
    (hrest : ∀ m ∈ missed, ∀ b : Assembly, b.IsArranged → b.mode = a.mode →
      Simulates (Draft.declare (cuts + 1) b.draft m.next false terminator)
        (declare cuts b m.next false terminator)) :
    Simulates
      (match missed.map Missed.placed with
        | some (missed, _) => do
            let b ← Draft.declare (cuts + 1) { a.draft with spaces := Token.spelling missed.gap }
              missed.next false terminator
            pure { b with semicolon := ended }
        | none => pure a.draft)
      (declareRest cuts a missed ended terminator) := by
  cases missed with
  | none => exact .ok h
  | some missed =>
      have hwaits := h.mark (Token.spelling missed.gap) a.semicolon
      refine (hrest missed rfl { a with spaces := Token.spelling missed.gap } hwaits rfl).bind
        fun b _ hb ↦ ?_
      have hmarked : { b with semicolon := ended }.IsArranged := hb.mark b.spaces ended
      exact .ok hmarked

/-- What is kept of a value belongs to it. -/
theorem mem_of_mem_kept (mode : Mode) {value : List Token} {t : Token}
    (ht : t ∈ ((cutValue mode value).map (·.kept)).getD value) : t ∈ value := by
  cases hmissed : cutValue mode value with
  | none =>
      rw [hmissed] at ht
      exact ht
  | some missed =>
      rw [hmissed] at ht
      rw [← (Missed.append_of_ofValue? (ofValue?_of_cutValue hmissed).2).1]
      exact List.mem_append_left _ (List.mem_append_left _ ht)

/-- The tokens at both ends of a run, of which the last one says where its body ends. -/
theorem exists_ends {tokens : List Token} (h : tokens ≠ []) :
    ∃ first last, tokens[0]? = some first ∧ tokens.getLast? = some last ∧
      last.is .semicolon = Statement.isEnded tokens ∧
      (if last.is .semicolon then tokens.dropLast else tokens) = Statement.bodyOf tokens := by
  obtain ⟨last, hlast⟩ : ∃ last, tokens.getLast? = some last :=
    ⟨_, List.getLast?_eq_some_getLast h⟩
  obtain ⟨first, more, rfl⟩ := List.exists_cons_of_ne_nil h
  refine ⟨first, last, rfl, hlast, ?_, ?_⟩
  · rw [Statement.isEnded, hlast]
    rfl
  · rw [Statement.bodyOf, hlast]
    rfl

/-- A run of tokens with the parts of a declaration is read as assembly reads it, if the rest
behind a missed semicolon is. -/
theorem declare_draft_of_parts (h : a.IsArranged) {cuts : Nat} {tokens : List Token}
    {parts : Parts} (hguard : ¬(a.mode = .tolerant ∧ isDeclaration tokens = false))
    (hparts : Parts.ofTokens? (Statement.bodyOf tokens) = some parts)
    (hmarks : ∀ t ∈ parts.value, t.isTrivia = true → Marked.IsUnmarked t) (custom : Bool)
    (terminator : Nat)
    (hrest : ∀ m ∈ cutValue a.mode parts.value, ∀ b : Assembly, b.IsArranged → b.mode = a.mode →
      Simulates (Draft.declare (cuts + 1) b.draft m.next false terminator)
        (declare cuts b m.next false terminator)) :
    Simulates (Draft.declare (cuts + 2) a.draft tokens custom terminator)
      (declare (cuts + 1) a tokens custom terminator) := by
  obtain ⟨first, last, hfirst, hlast, hended, hbody⟩ := exists_ends (ne_nil_of_parts hparts)
  rw [declare_eq_report hguard hparts, Draft.declare, doc_draft, mode_arena, if_neg hguard, hlast]
  dsimp only
  rw [hfirst, Checked.lift_bind, hbody, Parts.ofIndices?_eq, hparts, Checked.lift_bind]
  dsimp only [Option.map_some]
  rw [cutValue?_eq, Checked.lift_bind]
  have hmarked := Marked.ofIndices?_eq fun t ht ↦ hmarks t (mem_of_mem_kept a.mode ht)
  generalize hmissed : cutValue a.mode parts.value = missed at hrest hmarked ⊢
  have hkept : (missed.map Missed.placed).map (·.1.kept) = missed.map (·.kept) := by
    cases missed <;> rfl
  have hstop : (missed.map Missed.placed).bind (·.2.2) = missed.bind (·.keptStop?) := by
    cases missed <;> rfl
  rw [hkept, hmarked, Checked.lift_bind, declarationNode?_draft a custom hlast,
    Checked.lift_bind, hstop, stopEarly?_draft, Checked.lift_bind, hended,
    h.addLeaf_draft (isFresh_declaredNode ..), Checked.lift_bind,
    h.size_arena]
  -- The node has been added; behind it only reports and the rest of the tokens follow.
  have hadded := h.addLeaf (a.declaredNode custom tokens parts missed) (Statement.isEnded tokens)
  have hid : a.created < a.created + 1 := Nat.lt_succ_self _
  refine (hadded.reportWords_draft hid parts.unknownWords).bind fun b hb harranged ↦ ?_
  obtain ⟨more, rfl⟩ := (isReport_reportWords _ _).eq_note hb
  refine (harranged.reportMissed_draft hid hmissed).bind fun b hb harranged ↦ ?_
  obtain ⟨rest, rfl⟩ := (isReport_reportMissed _ _).eq_note hb
  refine (harranged.declareRest_draft _ terminator hrest).bind fun b hb harranged ↦ ?_
  have hid : a.created < b.created := Nat.lt_of_lt_of_le hid (steps_declareRest hb).created_le
  refine (harranged.checkColons_draft hid custom _ _).bind fun c hc harranged ↦ ?_
  have hid : a.created < c.created := Nat.lt_of_lt_of_le hid (steps_checkColons hc).created_le
  exact harranged.checkValue_draft hid custom _ terminator

/-- A run of tokens without a word is refused, behind a node that has been added in vain. -/
theorem declare_draft_of_parts_none (h : a.IsArranged) {cuts : Nat} {tokens : List Token}
    (hguard : ¬(a.mode = .tolerant ∧ isDeclaration tokens = false))
    (hparts : Parts.ofTokens? (Statement.bodyOf tokens) = none)
    (hbody : Statement.bodyOf tokens ≠ []) (custom : Bool) (terminator : Nat) :
    Simulates (Draft.declare (cuts + 2) a.draft tokens custom terminator)
      (declare (cuts + 1) a tokens custom terminator) := by
  have hne : tokens ≠ [] := by
    rintro rfl
    exact hbody rfl
  obtain ⟨first, last, hfirst, hlast, -, hcut⟩ := exists_ends hne
  have hmode := strict_of_parts_none hguard hparts
  let unknown := (Statement.bodyOf tokens).getLast hbody
  have hunknown : (Statement.bodyOf tokens).getLast?.toList = [unknown] := by
    rw [List.getLast?_eq_some_getLast hbody]
    rfl
  rw [declare_of_parts_none hguard hparts, Draft.declare, doc_draft, mode_arena,
    if_neg hguard, hlast]
  dsimp only
  rw [hfirst, Checked.lift_bind, hcut, Parts.ofIndices?_eq, hparts, Checked.lift_bind]
  dsimp only [Option.map_none]
  have hfresh : (a.newNode (.declaration [] [] false) first.span.start).IsFresh :=
    .newNode a _ nofun
  rw [newNode?_draft, Checked.lift_bind, h.addLeaf_draft hfresh, Checked.lift_bind,
    cutAt?_of_le (Nat.sub_le ..), Checked.lift_bind, hunknown]
  dsimp only
  rw [List.drop_length_sub_one hbody]
  -- Strict reading stops at the unknown word, whether or not there is a node before it.
  have hstray (b : Assembly) (hb : b.mode = .strict) (hsource : b.source = a.source) :
      b.stray [unknown] = a.stray [unknown] := by
    simp only [stray, Assembly.report, hb, hmode, hsource]
  let added := a.addLeaf (a.newNode (.declaration [] [] false) first.span.start)
    (last.is .semicolon)
  rw [← hstray added hmode rfl]
  exact (h.addLeaf _ _).stray_draft [unknown]

/-- The tokens of a declaration are read as assembly reads them. -/
theorem declare_draft (h : a.IsArranged) {cuts : Nat} {tokens : List Token}
    (hcuts : tokens.length ≤ cuts)
    (hmarks : ∀ t ∈ tokens, t.isTrivia = true → Marked.IsUnmarked t)
    (hbody : a.mode = .strict → tokens ≠ [] → Statement.bodyOf tokens ≠ []) (custom : Bool)
    (terminator : Nat) :
    Simulates (Draft.declare (cuts + 1) a.draft tokens custom terminator)
      (declare cuts a tokens custom terminator) := by
  -- What is behind a cut is a part of the value, so that it has fewer tokens than the
  -- declaration.
  induction cuts generalizing a tokens custom with
  | zero =>
      obtain rfl := List.length_eq_zero_iff.mp (Nat.le_zero.mp hcuts)
      rw [Draft.declare]
      split
      · exact .ok h
      · exact .ok h
  | succ cuts ih =>
      by_cases hguard : a.mode = .tolerant ∧ isDeclaration tokens = false
      · rw [Draft.declare, declare, doc_draft, mode_arena, if_pos hguard, if_pos hguard]
        exact h.stray_draft tokens
      cases hparts : Parts.ofTokens? (Statement.bodyOf tokens) with
      | none =>
          by_cases hne : tokens = []
          · subst hne
            rw [Draft.declare, declare, doc_draft, mode_arena, if_neg hguard, if_neg hguard]
            exact .ok h
          · have hmode := strict_of_parts_none hguard hparts
            exact h.declare_draft_of_parts_none hguard hparts (hbody hmode hne) custom terminator
      | some parts =>
          obtain ⟨ending, -, hending⟩ := Statement.bodyOf_append tokens
          have htokens := Parts.tokens_ofTokens? hparts
          obtain ⟨⟨word, name, hname, -⟩, -⟩ := Parts.heads_ofTokens? hparts
          have hmem : ∀ t ∈ parts.value, t ∈ tokens := fun t ht ↦ by
            rw [← hending, ← htokens]
            exact List.mem_append_left _ (List.mem_append_right _ ht)
          have hlength : parts.value.length < tokens.length := by
            rw [← hending, ← htokens, Parts.tokens, hname]
            simp only [List.length_append, List.length_cons]
            omega
          refine h.declare_draft_of_parts hguard hparts
            (fun t ht ↦ hmarks t (hmem t ht)) custom terminator
            fun m hm b hb hmode ↦ ?_
          obtain ⟨htolerant, hm⟩ := ofValue?_of_cutValue hm
          obtain ⟨hvalue, -⟩ := Missed.append_of_ofValue? hm
          refine ih hb ?_ (fun t ht ↦ hmarks t (hmem t ?_)) (fun hstrict ↦ ?_) false
          · have hnext := congrArg List.length hvalue
            simp only [List.length_append] at hnext
            omega
          · exact hvalue ▸ List.mem_append_right _ ht
          · -- Strict reading does not cut.
            rw [hmode, htolerant] at hstrict
            cases hstrict

end Assembly.IsArranged

/-! ## Whole texts -/

/-- `s.IsScanned` says of the tokens of a statement what reading it by index depends on: an
at-rule starts with its sign, and in a declaration, which is more than a semicolon, neither white
space nor a comment looks like the important mark. -/
def Statement.IsScanned : Statement → Prop
  | .atRule word _ _ => ∃ name, word.text = '@' :: name
  | .declaration tokens _ _ _ =>
      (∀ t ∈ tokens, t.isTrivia = true → Marked.IsUnmarked t) ∧ bodyOf tokens ≠ []
  | _ => True

/-- Closing all containers leaves the root. -/
theorem Assembly.enclosing_of_closeOpen {a b : Assembly} {enclosing : List Frame}
    (henclosing : a.enclosing = enclosing)
    (h : a.closeOpen enclosing = .ok b) : b.enclosing = [] := by
  induction enclosing generalizing a with
  | nil =>
      cases h
      exact henclosing
  | cons outer enclosing ih =>
      unfold closeOpen at h
      dsimp only at h
      split at h
      · exact ih rfl h
      · obtain ⟨c, hc, h⟩ := bind_eq_ok.mp h
        obtain ⟨recovery, rfl⟩ := report_eq_ok hc
        exact ih rfl h

namespace Assembly.IsArranged

variable {a : Assembly}

theorem reportOpened_draft (h : a.IsArranged) (opened : Option Span) :
    Simulates (a.draft.reportOpened opened) (a.reportOpened opened) := by
  unfold Draft.reportOpened reportOpened
  cases opened with
  | some span => exact h.reportNowhere_draft _ _
  | none => exact .ok h

/-- Every statement is read as assembly reads it. -/
theorem add_draft (h : a.IsArranged) {statement : Statement} (hscanned : statement.IsScanned) :
    Simulates (a.draft.add statement) (a.add statement) := by
  cases statement with
  | space t => exact .ok (a := a.wait t.text) (h.mark _ a.semicolon)
  | semicolon t =>
      obtain ⟨hdraft, harranged⟩ := h.freeSemicolon_draft t
      rw [Draft.add, hdraft]
      exact .ok harranged
  | close t => exact h.closeBlock_draft t
  | comment t =>
      rw [Draft.add, h.comment_draft t]
      exact .ok (h.comment t)
  | atRule word params ending =>
      obtain ⟨name, hword⟩ := hscanned
      exact h.atRule_draft hword params ending
  | rule head brace =>
      obtain ⟨hdraft, harranged⟩ := h.rule_draft head brace
      rw [Draft.add, hdraft]
      exact .ok harranged
  | declaration tokens custom terminator opened =>
      obtain ⟨hmarks, hbody⟩ := hscanned
      exact (h.reportOpened_draft opened).bind fun b _ hb ↦
        hb.declare_draft (Nat.le_refl _) hmarks (fun _ _ ↦ hbody) custom terminator
  | stray tokens opened =>
      exact (h.reportOpened_draft opened).bind fun b _ hb ↦ hb.stray_draft tokens
  | failure e => exact throwOpen_draft a e

/-! ### The end of the text -/

theorem reportOpen_draft (h : a.IsArranged) :
    Simulates (a.draft.reportOpen a.current.id) (a.reportOpen a.current) := by
  have horigin : (a.arena.node a.current.id).origin = a.current.node.origin := by
    have hnode := congrArg Node.origin (a.undamaged_arena a.current.id)
    rw [h.node_layout] at hnode
    exact hnode
  unfold Draft.reportOpen reportOpen
  rw [doc_draft, h.node_draft, Checked.lift_bind, horigin, source_arena]
  exact h.reportAt_draft h.current_lt _ _

/-- The innermost container is the root when no other one is open. -/
theorem current_eq_root_iff (h : a.IsArranged) :
    a.current.id = Document.root ↔ a.enclosing.isEmpty = true := by
  have hid := h.numbered.1
  have hlength := Frame.length_le_length_layout [] a.enclosing
  rw [List.isEmpty_iff]
  constructor
  · intro hroot
    rw [← hid, hroot] at hlength
    exact List.length_eq_zero_iff.mp (Nat.le_zero.mp hlength)
  · intro hnil
    rw [hid, hnil]
    rfl

/-- The open containers are closed one by one, each at the end of the text. -/
theorem closeOpen_draft (h : a.IsArranged) {enclosing : List Frame}
    (henclosing : a.enclosing = enclosing) {steps : Nat} (hsteps : enclosing.length < steps) :
    Simulates (Draft.closeOpen steps a.draft) (a.closeOpen enclosing) := by
  induction enclosing generalizing a steps with
  | nil =>
      obtain ⟨steps, rfl⟩ := Nat.exists_eq_succ_of_ne_zero (Nat.ne_zero_of_lt hsteps)
      rw [Draft.closeOpen, doc_draft, current_draft, h.node_draft, Checked.lift_bind,
        h.parent_arena, henclosing]
      exact .ok h
  | cons outer enclosing ih =>
      obtain ⟨steps, rfl⟩ := Nat.exists_eq_succ_of_ne_zero (Nat.ne_zero_of_lt hsteps)
      have hstop : Node.IsLocal (a.stopNode a.source.size) := Node.isLocal_stopAt _
      have hclosed := (h.mapNode hstop).close henclosing
      have hdraft := (h.mapNode hstop).close_draft henclosing
      have hchange := h.change_draft hstop
      have hroot : outer.id = Document.root ↔ enclosing.isEmpty = true :=
        hclosed.current_eq_root_iff
      have hnext (b : Assembly) (hb : b.IsArranged) (hopen : b.enclosing = enclosing) :
          Simulates (liftM (b.draft.addAfter? b.current.id []) >>= Draft.closeOpen steps)
            (closeOpen { b with current := b.current.addAfter [] } enclosing) := by
        rw [hb.addAfter_draft, Checked.lift_bind]
        exact ih (hb.addAfter []) hopen (Nat.lt_of_succ_lt_succ hsteps)
      rw [Draft.closeOpen, closeOpen, doc_draft, current_draft, h.node_draft, Checked.lift_bind,
        h.parent_arena, henclosing]
      dsimp only [List.head?_cons, Option.map_some]
      rw [source_arena, Source.endPosition?_eq, Checked.lift_bind]
      change Simulates
        (liftM (a.draft.change? a.current.id (a.stopNode a.source.size)) >>= fun closed ↦ _) _
      rw [hchange, Checked.lift_bind, ← hdraft]
      by_cases hempty : enclosing.isEmpty = true
      · rw [if_pos (hroot.mpr hempty), if_pos hempty]
        exact hnext _ hclosed rfl
      · rw [if_neg (mt hroot.mp hempty), if_neg hempty]
        refine hclosed.reportOpen_draft.bind fun b hb harranged ↦ ?_
        obtain ⟨recovery, rfl⟩ := report_eq_ok hb
        exact hnext _ harranged rfl

theorem reportHealed_draft (h : a.IsArranged) (run : TokenRun) :
    Simulates (a.draft.reportHealed run) (a.reportHealed run) := by
  have hlast : ∀ id ∈ a.draft.last, id < a.created := by
    intro id hid
    change (if a.created = 1 then none else some (a.created - 1)) = some id at hid
    split at hid
    · cases hid
    · rw [← Option.some.inj hid]
      exact Nat.sub_lt h.created_pos Nat.one_pos
  unfold Draft.reportHealed reportHealed
  cases run.tokens.getLast? with
  | none => exact .ok h
  | some t =>
      dsimp only
      split
      · exact h.report_draft _ _ hlast
      · exact .ok h

theorem endText_draft (h : a.IsArranged) (run : TokenRun) :
    Simulates (a.draft.endText run) (do
      let settled := a.current.settle a.semicolon a.spaces
      let b ← closeOpen { a with current := settled, spaces := [] } a.enclosing
      let stop := b.source.position b.source.size
      reportHealed { b with current := b.current.mapNode (Node.stopAt stop) } run) := by
  obtain ⟨hdraft, hsettled⟩ := h.settle_draft
  unfold Draft.endText
  rw [hdraft, Checked.lift_bind, doc_draft, hsettled.size_arena]
  have hsteps := Nat.lt_succ_of_lt h.length_enclosing_lt
  refine (hsettled.closeOpen_draft rfl hsteps).bind fun b hb harranged ↦ ?_
  have hclosed := enclosing_of_closeOpen rfl hb
  have hroot : b.current.id = Document.root :=
    harranged.current_eq_root_iff.mpr (List.isEmpty_iff.mpr hclosed)
  rw [doc_draft, source_arena, Source.position?_eq, Checked.lift_bind, ← hroot,
    harranged.change_draft (Node.isLocal_stopAt _), Checked.lift_bind]
  exact (harranged.mapNode (Node.isLocal_stopAt _)).reportHealed_draft run

theorem finish_draft (h : a.IsArranged) (run : TokenRun) :
    Simulates (a.draft.finish run) (a.finish run) := by
  unfold Draft.finish finish
  rw [current_draft]
  by_cases hempty : a.enclosing.isEmpty = true
  · rw [if_pos (h.current_eq_root_iff.mpr hempty), if_pos hempty]
    exact h.endText_draft run
  · rw [if_neg (mt h.current_eq_root_iff.mp hempty), if_neg hempty]
    exact h.reportOpen_draft.bind fun b _ hb ↦ hb.endText_draft run

end Assembly.IsArranged

namespace Statement

/-- Grouping needs no more steps than there are tokens, as every statement takes one. -/
theorem group?_eq (stop : Nat) (failure : Option TokenizeError) {steps : Nat}
    {tokens : List Token} (hsteps : tokens.length < steps) :
    group? stop failure steps tokens = some (group stop failure steps tokens) := by
  induction steps generalizing tokens with
  | zero => exact absurd hsteps (Nat.not_lt_zero _)
  | succ steps ih =>
      cases tokens with
      | nil => rfl
      | cons t rest =>
          have hlength := length_first_le stop failure t rest
          have hbehind := ih (Nat.lt_of_le_of_lt hlength (Nat.lt_of_succ_lt_succ hsteps))
          simp only [group?, hbehind, Option.bind_eq_bind, Option.bind_some]
          rfl

/-- An error ends the first statement of a run, or it concerns a later one. -/
theorem first_of_failure (stop : Nat) (e : TokenizeError) {t : Token} (rest : List Token)
    (hkind : t.kind ≠ .atWord) :
    first stop (some e) t rest = first stop none t rest ∨
      first stop (some e) t rest = (.failure e, []) := by
  unfold first
  split
  case h_6 h => exact absurd h hkind
  case h_7 =>
    unfold other
    dsimp only
    generalize Gathered.gather (isCustom t) false [] none (t :: rest) = gathered
    obtain ⟨tokens, ending, colon, opened, behind⟩ := gathered
    cases ending with
    | input => exact .inr rfl
    | semicolon | brace | close => exact .inl rfl
  all_goals exact .inl rfl

end Statement

/-- White space and comments do not start as the important mark does. -/
theorem Token.IsLed.isUnmarked {t : Token} (h : t.IsLed .stock) (htrivia : t.isTrivia = true) :
    Marked.IsUnmarked t := by
  obtain ⟨c, more, htext, hleads⟩ := h
  have hmark : c.toLower ≠ '!' ∧ c.toLower ≠ 'i' := by
    unfold Token.isTrivia TokenKind.isTrivia at htrivia
    split at htrivia
    · next hspace =>
        rw [hspace] at hleads
        have hfirst : (c.toLower == '!' || c.toLower == 'i') = false :=
          Scan.forall_isSpace (p := fun c ↦ c.toLower == '!' || c.toLower == 'i') rfl c hleads
        obtain ⟨hbang, hletter⟩ := Bool.or_eq_false_iff.mp hfirst
        exact ⟨ne_of_beq_false hbang, ne_of_beq_false hletter⟩
    · next hcomment =>
        rw [hcomment] at hleads
        rw [show c = '/' from hleads]
        decide
    · cases htrivia
  have hne (d : Char) (word : Text) (hd : c.toLower ≠ d.toLower) :
      Text.equalsIgnoringCase (c :: more) (d :: word) = false := by
    simp [Text.equalsIgnoringCase, hd]
  rw [Marked.IsUnmarked, htext]
  exact ⟨hne '!' _ hmark.1, hne 'i' _ hmark.2⟩

namespace Statement

/-- What is scanned is grouped into statements that can be read by index. -/
theorem isScanned_first (stop : Nat) (failure : Option TokenizeError) {t : Token}
    {rest : List Token} (hled : ∀ u ∈ t :: rest, u.IsLed .stock) :
    (first stop failure t rest).1.IsScanned ∧ ∀ u ∈ (first stop failure t rest).2,
      u.IsLed .stock := by
  by_cases hkind : t.kind = .atWord
  · obtain ⟨c, name, htext, hleads⟩ := hled t List.mem_cons_self
    rw [hkind] at hleads
    have htokens := Params.tokens_gather failure [] rest
    simp only [first, hkind]
    refine ⟨⟨name, by rw [htext, show c = '@' from hleads]⟩,
      fun u hu ↦ hled u (List.mem_cons_of_mem _ ?_)⟩
    exact htokens ▸ List.mem_append_right _ hu
  · have hnone : (first stop none t rest).1.IsScanned ∧
        ∀ u ∈ (first stop none t rest).2, u.IsLed .stock := by
      have hcut := first_cut stop t rest
      have htokens := hcut.tokens_append
      generalize first stop none t rest = cut at hcut htokens
      obtain ⟨statement, behind⟩ := cut
      refine ⟨?_, fun u hu ↦ hled u (htokens ▸ List.mem_append_right _ hu)⟩
      cases statement with
      | atRule word params ending =>
          cases hcut
          contradiction
      | declaration tokens custom terminator opened =>
          obtain ⟨hstarts, more, rfl⟩ := hcut.declaration_cons
          refine ⟨fun u hu ↦ (hled u ?_).isUnmarked, Assembly.bodyOf_cons_ne_nil more hstarts.2.1⟩
          exact htokens ▸ List.mem_append_left _ hu
      | _ => trivial
    cases failure with
    | none => exact hnone
    | some e =>
        rcases first_of_failure stop e rest hkind with heq | heq
        · rw [heq]
          exact hnone
        · rw [heq]
          exact ⟨trivial, List.forall_mem_nil _⟩

end Statement

/-- The tokens of a run start as their kinds promise, under either policy. -/
theorem Token.isLed_of_mem_run {text : Text} {policy : OpenPolicy} {t : Token}
    (ht : t ∈ (run text policy).tokens) : t.IsLed .stock := by
  obtain ⟨last, hreads, -, -⟩ := Lexer.stops_of_runFor (run text policy)
    (Lexer.isPlain_ofText text policy .stock) (Nat.le_add_left _ _) rfl
  exact hreads.isLed ht

namespace Assembly

theorem isArranged_start (source : Source) (mode : Mode) : (start source mode).IsArranged where
  numbered := ⟨rfl, trivial⟩
  created := rfl
  container := List.forall_mem_singleton.mpr ⟨rfl, rfl⟩
  repairs := List.forall_mem_nil _

theorem draft_start (source : Source) (mode : Mode) :
    (start source mode).draft = Draft.start source mode := rfl

/-- Only the root is open in a document that is finished. -/
theorem enclosing_of_finish {a b : Assembly} {run : TokenRun} (h : a.finish run = .ok b) :
    b.enclosing = [] := by
  obtain ⟨c, d, -, hd, hquiet, -, -⟩ := finish_quiet h
  have hclosed := enclosing_of_closeOpen rfl hd
  exact (congrArg Assembly.enclosing hquiet).trans hclosed

/-- The statements of a run are read as assembly reads them. -/
theorem IsArranged.group_draft {a : Assembly} (h : a.IsArranged) (stop : Nat)
    (failure : Option TokenizeError) {steps : Nat} {tokens : List Token}
    (hled : ∀ t ∈ tokens, t.IsLed .stock) :
    Simulates ((Statement.group stop failure steps tokens).foldlM Draft.add a.draft)
      ((Statement.group stop failure steps tokens).foldlM Assembly.add a) := by
  induction steps generalizing a tokens with
  | zero => exact .ok h
  | succ steps ih =>
      cases tokens with
      | nil =>
          cases failure with
          | none => exact .ok h
          | some e => exact (throwOpen_draft a e).bind fun b hb _ ↦ nomatch hb
      | cons t rest =>
          obtain ⟨hscanned, hbehind⟩ := Statement.isScanned_first stop failure hled
          simp only [Statement.group, List.foldlM_cons]
          exact (h.add_draft hscanned).bind fun b _ hb ↦ ih hb hbehind

end Assembly

/-- A draft of a document that has been read is the document. -/
theorem Simulates.document_eq {x : Checked Draft} {y : Except ParseError Assembly}
    (h : Simulates x y) (hclosed : ∀ b, y = .ok b → b.enclosing = []) :
    (x >>= fun b ↦ pure b.doc : Checked Document).run = some (y.map Assembly.document) := by
  cases y with
  | error e =>
      rw [show x = throw e from h]
      rfl
  | ok b =>
      obtain ⟨hx, hb⟩ := h
      have hdocument := hb.document_eq (hclosed b rfl)
      rw [hx, Except.map, hdocument]
      rfl

/-- Reading in place reaches no bound and uses no index that is out of range, and computes what
reading token by token does. -/
theorem readInPlace_eq_parse (source : Source) (mode : Mode) :
    (readInPlace source mode).run = some (parse source mode) := by
  have hrun : (Cursor.ofText source.text mode.openPolicy .stock).run (source.text.length + 1) =
      some (Token.run source.text mode.openPolicy) :=
        Cursor.run_eq source.text mode.openPolicy .stock
  have hled : ∀ t ∈ (Token.run source.text mode.openPolicy).tokens, t.IsLed .stock :=
    fun t ↦ Token.isLed_of_mem_run
  unfold readInPlace parse assemble
  dsimp only
  rw [hrun, Checked.lift_bind]
  generalize Token.run source.text mode.openPolicy = run at hled
  have hgrouped : Statement.group? source.size run.failure (run.tokens.length + 1) run.tokens =
      some (Statement.ofRun source.size run) := Statement.group?_eq _ _ (Nat.lt_succ_self _)
  rw [hgrouped, Checked.lift_bind, ← Assembly.draft_start, ← bind_assoc]
  have hstart := Assembly.isArranged_start source mode
  refine Simulates.document_eq
    ((hstart.group_draft _ _ hled).bind fun b _ hb ↦ hb.finish_draft run) ?_
  intro b hb
  obtain ⟨a, -, hb⟩ := bind_eq_ok.mp hb
  exact Assembly.enclosing_of_finish hb

/-- Reading is total. For every source and in either mode it ends, and every index, every cut and
every difference that it computes is in range; tolerant reading computes a tolerant document. -/
theorem readInPlace_total (source : Source) :
    (∀ mode, (readInPlace source mode).run = some (parse source mode)) ∧
      ∃ doc, (readInPlace source .tolerant).run = some (.ok doc) ∧ doc.mode = .tolerant := by
  refine ⟨readInPlace_eq_parse source, ?_⟩
  obtain ⟨doc, hparse, hmode⟩ := exists_parse_tolerant source
  exact ⟨doc, by rw [readInPlace_eq_parse, hparse], hmode⟩

end Stylesheet
