import Stylesheet.Proofs.Indexing

/-!
# Reports before and behind a node

Assembly reports what is wrong with an at-rule or with a declaration before it adds the node,
under the number that the node will have. A report looks at no more than the source and the mode
(`Assembly.IsReport`), so that it can as well be made when the node is there.
`atRule_eq_reportName` and `declare_eq_report` say what assembly does in this order.
-/

namespace Stylesheet

namespace Assembly

/-- `a.note more` has more repairs. -/
def note (a : Assembly) (more : List Recovery) : Assembly :=
  { a with recoveries := a.recoveries ++ more }

/-- `IsReport f` says that `f` records repairs and does nothing else, and that the source and the
mode decide which ones, or which defect stops assembly. -/
def IsReport (f : Assembly → Except ParseError Assembly) : Prop :=
  ∃ repairs : Source → Mode → Except ParseError (List Recovery),
    ∀ a, f a = (repairs a.source a.mode).map a.note

variable {a b : Assembly} {f g : Assembly → Except ParseError Assembly}

/-- `reported defect span node source mode` are the repairs that a report records, if none stops
it. -/
def reported (defect : Defect) (span : Span) (node : Option NodeId) (source : Source) :
    Mode → Except ParseError (List Recovery)
  | .strict => .error (ParseError.place source defect span)
  | .tolerant => .ok [⟨defect.damage, defect.message, source.position span.start, node⟩]

namespace IsReport

theorem ok : IsReport .ok :=
  ⟨fun _ _ ↦ .ok [], fun a ↦ by simp [Except.map, note]⟩

theorem report (defect : Defect) (span : Span) (node : Option NodeId) :
    IsReport (·.report defect span node) := by
  refine ⟨reported defect span node, fun a ↦ ?_⟩
  obtain ⟨source, mode, current, enclosing, created, spaces, semicolon, recoveries⟩ := a
  cases mode <;> rfl

theorem bind (hf : IsReport f) (hg : IsReport g) : IsReport fun a ↦ f a >>= g := by
  obtain ⟨first, hf⟩ := hf
  obtain ⟨second, hg⟩ := hg
  refine ⟨fun source mode ↦ do return (← first source mode) ++ (← second source mode), fun a ↦ ?_⟩
  dsimp only
  rw [hf]
  cases hfirst : first a.source a.mode with
  | error e => rfl
  | ok more =>
      -- The second report does not see what the first one has recorded.
      have hnoted : g (a.note more) = (second a.source a.mode).map (a.note more).note := hg _
      refine hnoted.trans ?_
      simp only [bind_pure_comp]
      cases second a.source a.mode with
      | error e => rfl
      | ok rest =>
          exact congrArg (fun all ↦ Except.ok { a with recoveries := all }) (List.append_assoc ..)

/-- A report may depend on the mode. -/
theorem ofMode {strict tolerant : Assembly → Except ParseError Assembly}
    (hstrict : IsReport strict) (htolerant : IsReport tolerant)
    (hf : ∀ a, f a = match a.mode with | .strict => strict a | .tolerant => tolerant a) :
    IsReport f := by
  obtain ⟨first, hstrict⟩ := hstrict
  obtain ⟨second, htolerant⟩ := htolerant
  refine ⟨fun source mode ↦ match mode with
    | .strict => first source mode
    | .tolerant => second source mode,
    fun a ↦ ?_⟩
  rw [hf]
  cases hmode : a.mode with
  | strict =>
      have h := hstrict a
      rwa [hmode] at h
  | tolerant =>
      have h := htolerant a
      rwa [hmode] at h

/-- A report records repairs. -/
theorem eq_note (hf : IsReport f) (h : f a = .ok b) : ∃ more, b = a.note more := by
  obtain ⟨repairs, hf⟩ := hf
  rw [hf] at h
  cases hrepairs : repairs a.source a.mode with
  | error e =>
      rw [hrepairs] at h
      cases h
  | ok more =>
      rw [hrepairs] at h
      cases h
      exact ⟨more, rfl⟩

/-- A report can be made before or behind a change that has nothing to do with it. -/
theorem bind_comm (hf : IsReport f) (change : Assembly → Assembly)
    (hsource : (change a).source = a.source) (hmode : (change a).mode = a.mode)
    (hchange : ∀ more, change (a.note more) = (change a).note more)
    (next : Assembly → Except ParseError Assembly) :
    (f a >>= fun b ↦ next (change b)) = f (change a) >>= next := by
  obtain ⟨repairs, hf⟩ := hf
  rw [hf, hf, hsource, hmode]
  cases repairs a.source a.mode with
  | error e => rfl
  | ok more => exact congrArg next (hchange more)

end IsReport

/-! ## At-rules -/

/-- `a.reportName word id` reports an at-rule without a name. -/
def reportName (a : Assembly) (word : Token) (id : NodeId) : Except ParseError Assembly :=
  if (word.text.drop 1).isEmpty then a.report .unnamedAtRule word.span (some id) else .ok a

theorem isReport_reportName (word : Token) (id : NodeId) : IsReport (·.reportName word id) := by
  unfold reportName
  split
  · exact .report ..
  · exact .ok

/-- `a.addAtRule word params ending` adds the node of an at-rule. -/
def addAtRule (a : Assembly) (word : Token) (params : List Token) : AtRuleEnd → Assembly
  | .semicolon t => a.addLeaf (a.stopNode t.span.stop (a.atRuleWhole word params)) true
  | .block _ => a.openFrame (a.atRuleWhole word params).openBlock
  | .close _ => a.addLeaf (a.stopNode (atRuleStop word params) (a.atRuleWhole word params)) false
  | .input =>
      let stop := Token.stopOr (atRuleCore params) word.span.stop
      let between := if (atRuleCore params).isEmpty then
        Token.spelling (Token.splitTrailing Token.isTrivia params).2 else []
      a.addLeaf (a.stopNode stop (a.atRuleNode word params between)) false
  | .failure _ => a.addLeaf (a.atRuleNode word params []) false

/-- `a.leaveAtRule params ending` reads the end of an at-rule that has been added. -/
def leaveAtRule (a : Assembly) (params : List Token) : AtRuleEnd → Except ParseError Assembly
  | .semicolon _ | .block _ => .ok a
  | .close t => a.closeBlock t
  | .input =>
      if (atRuleCore params).isEmpty then .ok a
      else .ok (a.wait (Token.spelling (Token.splitTrailing Token.isTrivia params).2))
  | .failure e => .error (ParseError.ofTokenizeError a.source e)

/-- An at-rule is added, reported if it has no name, and left. -/
theorem atRule_eq_reportName (a : Assembly) (word : Token) (params : List Token)
    (ending : AtRuleEnd) :
    a.atRule word params ending =
      (a.addAtRule word params ending).reportName word a.created >>=
        (·.leaveAtRule params ending) := by
  have hadd : ∀ b : Assembly, b.atRuleBody word params ending =
      (b.addAtRule word params ending).leaveAtRule params ending := by
    intro b
    cases ending with
    | input =>
        unfold atRuleBody addAtRule leaveAtRule
        dsimp only
        split <;> rfl
    | _ => rfl
  rw [atRule_eq]
  simp only [hadd]
  refine (isReport_reportName word a.created).bind_comm (·.addAtRule word params ending) ?_ ?_ ?_
    (·.leaveAtRule params ending)
  all_goals cases ending <;> intros <;> rfl

/-! ## Declarations -/

/-- `a.reportWords words id` reports words between the name and the colon of a declaration. -/
def reportWords (a : Assembly) (words : List Token) (id : NodeId) : Except ParseError Assembly :=
  words.foldlM (fun a t ↦ a.report (.unknownWord t.text) t.span (some id)) a

/-- `a.reportMissed value id` reports a colon at the start of a value and a missed semicolon in
it. Strict assembly does so later. -/
def reportMissed (a : Assembly) (value : List Token) (id : NodeId) : Except ParseError Assembly :=
  match a.mode with
  | .strict => .ok a
  | .tolerant => do
      let a ← a.reportColon value id
      match Missed.ofValue? value with
      | some missed => a.report .missedSemicolon (.point missed.start) (some id)
      | none => .ok a

/-- `cutValue mode value` cuts the value of a declaration where a semicolon is missed. Strict
assembly leaves it as it is. -/
def cutValue : Mode → List Token → Option Missed
  | .strict, _ => none
  | .tolerant, value => Missed.ofValue? value

theorem isReport_reportWords (words : List Token) (id : NodeId) :
    IsReport (·.reportWords words id) := by
  induction words with
  | nil => exact .ok
  | cons t words ih => exact (IsReport.report _ _ _).bind ih

theorem isReport_reportColon (value : List Token) (id : NodeId) :
    IsReport (·.reportColon value id) := by
  unfold reportColon
  split
  · exact .report ..
  · exact .ok

theorem isReport_reportMissed (value : List Token) (id : NodeId) :
    IsReport (·.reportMissed value id) := by
  refine .ofMode .ok ((isReport_reportColon value id).bind ?_) fun a ↦ rfl
  split
  · exact .report ..
  · exact .ok

/-- Cutting a value is a report and a cut that does not depend on it. -/
theorem splitValue_eq (a : Assembly) (value : List Token) (id : NodeId) :
    a.splitValue value id = (a.reportMissed value id).map (·, cutValue a.mode value) := by
  unfold splitValue reportMissed
  cases a.mode with
  | strict => rfl
  | tolerant =>
      dsimp only
      cases a.reportColon value id with
      | error e => rfl
      | ok b =>
          dsimp only [cutValue, Except.map, bind, Except.bind]
          cases Missed.ofValue? value with
          | none => rfl
          | some missed =>
              dsimp only [Missed.start]
              cases b.report .missedSemicolon (.point missed.start) (some id) <;> rfl

/-- The node of a declaration whose value may be cut. -/
def declaredNode (a : Assembly) (custom : Bool) (tokens : List Token) (parts : Parts) :
    Option Missed → Node
  | some missed => a.cutNode custom tokens parts missed
  | none => a.declarationNode custom tokens parts (takeImportant parts.value)

/-- `declareRest cuts a missed ended terminator` adds what stands behind a missed semicolon. -/
def declareRest (cuts : Nat) (a : Assembly) (missed : Option Missed) (ended : Bool)
    (terminator : Nat) : Except ParseError Assembly :=
  match missed with
  | some missed => do
      let a ← declare cuts { a with spaces := Token.spelling missed.gap } missed.next
          false terminator
      return { a with semicolon := ended }
  | none => .ok a

theorem steps_declareRest {cuts : Nat} {missed : Option Missed} {ended : Bool} {terminator : Nat}
    (h : declareRest cuts a missed ended terminator = .ok b) : a.Steps b := by
  cases missed with
  | none =>
      cases h
      exact .refl _
  | some missed =>
      obtain ⟨c, hc, h⟩ := bind_eq_ok.mp h
      cases h
      exact ((Step.wait (Token.spelling missed.gap)).steps.trans (steps_declare hc)).tail
        (.mark ended)

/-- A value that is cut is cut as `Missed.ofValue?` says. -/
theorem ofValue?_of_cutValue {mode : Mode} {value : List Token} {missed : Missed}
    (h : cutValue mode value = some missed) :
    mode = .tolerant ∧ Missed.ofValue? value = some missed := by
  cases mode with
  | strict => cases h
  | tolerant => exact ⟨rfl, h⟩

/-- Only strict assembly comes to tokens without a word. -/
theorem strict_of_parts_none {tokens : List Token}
    (hguard : ¬(a.mode = .tolerant ∧ isDeclaration tokens = false))
    (hparts : Parts.ofTokens? (Statement.bodyOf tokens) = none) : a.mode = .strict := by
  cases hmode : a.mode with
  | strict => rfl
  | tolerant =>
      exact absurd hparts (parts_ne_none (eq_true_of_ne_false fun h ↦ hguard ⟨hmode, h⟩))

theorem declare_of_parts_none {cuts : Nat} {tokens : List Token} {custom : Bool}
    {terminator : Nat} (hguard : ¬(a.mode = .tolerant ∧ isDeclaration tokens = false))
    (hparts : Parts.ofTokens? (Statement.bodyOf tokens) = none) :
    declare (cuts + 1) a tokens custom terminator =
      a.stray (Statement.bodyOf tokens).getLast?.toList := by
  unfold Statement.bodyOf at hparts
  unfold declare
  rw [if_neg hguard]
  simp only [hparts]
  rfl

/-- A declaration is added, what is wrong with it is reported, and the rest of its tokens is
added. -/
theorem declare_eq_report {cuts : Nat} {tokens : List Token} {custom : Bool} {terminator : Nat}
    {parts : Parts} (hguard : ¬(a.mode = .tolerant ∧ isDeclaration tokens = false))
    (hparts : Parts.ofTokens? (Statement.bodyOf tokens) = some parts) :
    declare (cuts + 1) a tokens custom terminator =
      let missed := cutValue a.mode parts.value
      let marked := takeImportant ((missed.map (·.kept)).getD parts.value)
      let node := a.declaredNode custom tokens parts missed
      let value := node.kind.value?.getD []
      let ended := Statement.isEnded tokens
      (a.addLeaf node ended).reportWords parts.unknownWords a.created >>= fun b ↦
        b.reportMissed parts.value a.created >>= fun b ↦
          declareRest cuts b missed ended terminator >>= fun b ↦
            b.checkColons custom value marked.tokens a.created >>=
              (·.checkValue custom value terminator a.created) := by
  have hreport := (isReport_reportWords parts.unknownWords a.created).bind
    (isReport_reportMissed parts.value a.created)
  dsimp only
  -- The node depends neither on the reports before it nor on the repairs that they record.
  rw [← bind_assoc, ← hreport.bind_comm
    (fun b ↦ b.addLeaf (b.declaredNode custom tokens parts (cutValue a.mode parts.value))
      (Statement.isEnded tokens))
    rfl rfl fun _ ↦ ?_]
  · unfold Statement.bodyOf at hparts
    unfold declare
    rw [if_neg hguard]
    simp only [hparts]
    change (a.reportWords parts.unknownWords a.created >>= fun b ↦ _) = _
    cases hwords : a.reportWords parts.unknownWords a.created with
    | error e => rfl
    | ok b =>
        obtain ⟨more, rfl⟩ := (isReport_reportWords _ _).eq_note hwords
        change ((a.note more).splitValue parts.value a.created >>= fun c ↦ _) =
          (a.note more).reportMissed parts.value a.created >>= fun c ↦ _
        rw [splitValue_eq]
        cases hmissed : (a.note more).reportMissed parts.value a.created with
        | error e => rfl
        | ok c =>
            obtain ⟨rest, rfl⟩ := (isReport_reportMissed _ _).eq_note hmissed
            have hmode : (a.note more).mode = a.mode := rfl
            rw [hmode]
            cases cutValue a.mode parts.value with
            | none => rfl
            | some missed =>
                simp only [declareRest, bind_assoc]
                rfl
  · cases cutValue a.mode parts.value <;> rfl

end Assembly

end Stylesheet
