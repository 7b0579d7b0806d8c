import Stylesheet.Proofs.Lossless
import Stylesheet.Proofs.Notes
import Stylesheet.Proofs.Totality

/-!
# How statements open and close blocks

`Statement.nest` follows the number of open blocks from statement to statement. It gives up where
a closing brace is left over and where a semicolon is missed, which are the repairs of statements
that change the text. `foldlM_add_of_nest` says that tolerant assembly makes no such repair of
statements for which `nest` does not give up, and `recorded_of_nest` that it records one of the
others.
-/

namespace Stylesheet

namespace Statement

/-- `misses tokens` says that tolerant assembly finds a missed semicolon in the tokens of a
declaration. -/
def misses (tokens : List Token) : Bool :=
  Assembly.isDeclaration tokens &&
    (Parts.ofTokens? (bodyOf tokens)).any fun parts ↦ (Missed.ofValue? parts.value).isSome

/-- `leave? depth` is the number of open blocks behind a closing brace, if there is one to
close. -/
def leave? : Nat → Option Nat
  | 0 => none
  | depth + 1 => some depth

/-- `s.nest depth` is the number of open blocks behind a statement. It is `none` if a closing
brace is left over or a semicolon is missed. -/
def nest (depth : Nat) : Statement → Option Nat
  | rule .. | atRule _ _ (.block _) => some (depth + 1)
  | close _ | atRule _ _ (.close _) => leave? depth
  | declaration tokens .. => if misses tokens then none else some depth
  | _ => some depth

theorem leave?_eq_some {depth inner : Nat} (h : leave? depth = some inner) :
    depth = inner + 1 := by
  cases depth with
  | zero => cases h
  | succ depth =>
      cases h
      rfl

end Statement

/-- `source.statements` are the statements that tolerant reading finds in a source. -/
def Source.statements (source : Source) : List Statement :=
  Statement.ofRun source.size (Token.run source.text .heal)

namespace Assembly

variable {a b : Assembly}

/-! ## Benign reports -/

/-- What holds of the damages that are recorded, and of one that is reported, holds of all
then. -/
theorem forall_damage_of_report {P : Damage → Prop} {defect : Defect} {span : Span}
    {node : Option NodeId} (h : a.report defect span node = .ok b)
    (ha : ∀ r ∈ a.recoveries, P r.damage) (hdamage : P defect.damage) :
    ∀ r ∈ b.recoveries, P r.damage := by
  unfold report at h
  split at h
  · cases h
  · cases h
    exact List.forall_mem_append.mpr ⟨ha, List.forall_mem_singleton.mpr hdamage⟩

namespace IsBenign

theorem report (ha : a.IsBenign) {defect : Defect} {span : Span} {node : Option NodeId}
    (h : a.report defect span node = .ok b) (hdamage : defect.damage.changesText = false) :
    b.IsBenign :=
  forall_damage_of_report (P := (·.changesText = false)) h ha hdamage

theorem reportOpened (ha : a.IsBenign) {opened : Option Span}
    (h : a.reportOpened opened = .ok b) : b.IsBenign := by
  unfold Assembly.reportOpened at h
  split at h
  · exact ha.report h rfl
  · cases h
    exact ha

theorem reportName (ha : a.IsBenign) {word : Token} {id : NodeId}
    (h : a.reportName word id = .ok b) : b.IsBenign := by
  unfold Assembly.reportName at h
  split at h
  · exact ha.report h rfl
  · cases h
    exact ha

theorem reportWords (ha : a.IsBenign) {words : List Token} {id : NodeId}
    (h : a.reportWords words id = .ok b) : b.IsBenign := by
  unfold Assembly.reportWords at h
  induction words generalizing a with
  | nil =>
      cases h
      exact ha
  | cons t words ih =>
      obtain ⟨c, hc, h⟩ := bind_eq_ok.mp h
      exact ih (ha.report hc rfl) h

theorem reportColon (ha : a.IsBenign) {value : List Token} {id : NodeId}
    (h : a.reportColon value id = .ok b) : b.IsBenign := by
  unfold Assembly.reportColon at h
  split at h
  · exact ha.report h rfl
  · cases h
    exact ha

/-- A value without a missed semicolon may start with a colon. -/
theorem reportMissed (ha : a.IsBenign) {value : List Token} {id : NodeId}
    (hmissed : Missed.ofValue? value = none) (h : a.reportMissed value id = .ok b) :
    b.IsBenign := by
  unfold Assembly.reportMissed at h
  split at h
  · cases h
    exact ha
  · simp only [hmissed] at h
    obtain ⟨c, hc, h⟩ := bind_eq_ok.mp h
    cases h
    exact ha.reportColon hc

theorem checkValue (ha : a.IsBenign) {custom : Bool} {value : Text} {terminator : Nat}
    {id : NodeId} (h : a.checkValue custom value terminator id = .ok b) : b.IsBenign := by
  unfold Assembly.checkValue at h
  split at h
  · exact ha.report h rfl
  · cases h
    exact ha

theorem stray (ha : a.IsBenign) {tokens : List Token} (h : a.stray tokens = .ok b) :
    b.IsBenign := by
  cases tokens with
  | nil =>
      cases h
      exact ha
  | cons t rest =>
      obtain ⟨c, hc, h⟩ := bind_eq_ok.mp h
      cases h
      exact ha.report (b := c) hc rfl

end IsBenign

/-! ## Statements -/

theorem enclosing_of_quiet (h : b.quiet = a.quiet) : b.enclosing = a.enclosing := by
  have henclosing := congrArg (·.enclosing) h
  exact henclosing

/-- A closing brace closes the innermost block and is left over if there is none. -/
theorem closeBlock_of_leave? {t : Token} {depth : Nat}
    (hdepth : Statement.leave? a.enclosing.length = some depth) (h : a.closeBlock t = .ok b) :
    b.enclosing.length = depth ∧ b.recoveries = a.recoveries := by
  have hlength := Statement.leave?_eq_some hdepth
  cases henclosing : a.enclosing with
  | nil =>
      rw [henclosing] at hlength
      cases hlength
  | cons outer enclosing =>
      rw [closeBlock_of_enclosing henclosing] at h
      rw [henclosing, List.length_cons] at hlength
      cases h
      exact ⟨Nat.succ.inj hlength, rfl⟩

theorem recorded_of_leave? {t : Token} (hdepth : Statement.leave? a.enclosing.length = none)
    (h : a.closeBlock t = .ok b) : ∃ r ∈ b.recoveries, r.damage = .unexpectedClose := by
  unfold closeBlock at h
  cases henclosing : a.enclosing with
  | nil =>
      simp only [henclosing] at h
      obtain ⟨c, hc, h⟩ := bind_eq_ok.mp h
      cases h
      exact recorded_of_report hc
  | cons outer enclosing =>
      rw [henclosing] at hdepth
      cases hdepth

/-- A declaration without a missed semicolon leaves the open blocks as they are. -/
theorem declaration_of_misses {tokens : List Token} {custom : Bool} {terminator : Nat}
    (hmode : a.mode = .tolerant) (hmisses : Statement.misses tokens = false)
    (h : a.declaration tokens custom terminator = .ok b) :
    b.enclosing = a.enclosing ∧ (a.IsBenign → b.IsBenign) := by
  cases tokens with
  | nil =>
      cases h
      exact ⟨rfl, id⟩
  | cons t more =>
      rw [declaration, List.length_cons] at h
      by_cases hguard : a.mode = .tolerant ∧ isDeclaration (t :: more) = false
      · unfold declare at h
        rw [if_pos hguard] at h
        have henclosing : b.enclosing = (a.wait (Token.spelling (t :: more))).enclosing :=
          enclosing_of_quiet (quiet_stray h)
        exact ⟨henclosing, fun ha ↦ ha.stray h⟩
      · have hdeclaration : isDeclaration (t :: more) = true :=
          eq_true_of_ne_false fun hfalse ↦ hguard ⟨hmode, hfalse⟩
        obtain ⟨parts, hparts⟩ := Option.ne_none_iff_exists'.mp (parts_ne_none hdeclaration)
        have hmissed : Missed.ofValue? parts.value = none := by
          simpa [Statement.misses, hdeclaration, hparts] using hmisses
        have hcut : cutValue a.mode parts.value = none := by
          rw [hmode]
          exact hmissed
        rw [declare_eq_report hguard hparts, hcut] at h
        obtain ⟨c, hwords, h⟩ := bind_eq_ok.mp h
        obtain ⟨d, hvalue, h⟩ := bind_eq_ok.mp h
        obtain ⟨e, hrest, h⟩ := bind_eq_ok.mp h
        cases hrest
        obtain ⟨f, hcolons, h⟩ := bind_eq_ok.mp h
        have hdmode : d.mode = .tolerant := by
          obtain ⟨first, rfl⟩ := (isReport_reportWords _ _).eq_note hwords
          obtain ⟨second, rfl⟩ := (isReport_reportMissed _ _).eq_note hvalue
          exact hmode
        rw [checkColons_of_tolerant hdmode] at hcolons
        cases hcolons
        constructor
        · obtain ⟨first, rfl⟩ := (isReport_reportWords _ _).eq_note hwords
          obtain ⟨second, rfl⟩ := (isReport_reportMissed _ _).eq_note hvalue
          have henclosing := enclosing_of_quiet (quiet_checkValue h)
          exact henclosing
        · intro ha
          have hleaf : (a.addLeaf (a.declaredNode custom (t :: more) parts none)
              (Statement.isEnded (t :: more))).IsBenign := ha
          exact ((hleaf.reportWords hwords).reportMissed hmissed hvalue).checkValue h

/-- A missed semicolon is recorded. -/
theorem recorded_of_misses {tokens : List Token} {custom : Bool} {terminator : Nat}
    (hmode : a.mode = .tolerant) (hmisses : Statement.misses tokens = true)
    (h : a.declaration tokens custom terminator = .ok b) :
    ∃ r ∈ b.recoveries, r.damage = .missedSemicolon := by
  simp only [Statement.misses, Bool.and_eq_true, Option.any_eq_true] at hmisses
  obtain ⟨hdeclaration, parts, hparts, hmissed⟩ := hmisses
  obtain ⟨missed, hmissed⟩ := Option.isSome_iff_exists.mp hmissed
  have hguard : ¬(a.mode = .tolerant ∧ isDeclaration tokens = false) := by
    rw [hdeclaration]
    exact fun h ↦ nomatch h.2
  cases tokens with
  | nil => cases hdeclaration
  | cons t more =>
      rw [declaration, List.length_cons] at h
      obtain ⟨c, d, cut, hwords, hsplit, hrest⟩ :=
        steps_of_parts hguard hparts (fun h ↦ steps_declare h) h
      have hcmode := (steps_unknownWords hwords).mode_eq.trans hmode
      rw [splitValue_eq, hcmode] at hsplit
      have hcut : cut = some missed := by
        cases hreport : c.reportMissed parts.value a.created with
        | error e =>
            rw [hreport] at hsplit
            cases hsplit
        | ok e =>
            rw [hreport] at hsplit
            cases hsplit
            exact hmissed
      rw [← hcmode, ← splitValue_eq] at hsplit
      obtain ⟨-, hrecorded⟩ := quiet_splitValue hsplit
      obtain ⟨-, r, hr, hdamage⟩ := hrecorded missed hcut
      exact ⟨r, hrest.repairs_kept.subset hr, hdamage⟩

/-- An at-rule opens a block, closes one or leaves them as they are, as its end says. -/
theorem atRule_of_nest {word : Token} {params : List Token} {ending : AtRuleEnd} {depth : Nat}
    (hnest : (Statement.atRule word params ending).nest a.enclosing.length = some depth)
    (h : a.add (.atRule word params ending) = .ok b) :
    b.enclosing.length = depth ∧ (a.IsBenign → b.IsBenign) := by
  rw [add, atRule_eq_reportName] at h
  obtain ⟨c, hc, h⟩ := bind_eq_ok.mp h
  have hbenign (ha : a.IsBenign) : c.IsBenign :=
    IsBenign.reportName (by cases ending <;> exact ha) hc
  have henclosing : c.enclosing = (a.addAtRule word params ending).enclosing := by
    obtain ⟨more, rfl⟩ := (isReport_reportName _ _).eq_note hc
    rfl
  cases ending with
  | semicolon t =>
      cases hnest
      cases h
      exact ⟨congrArg List.length henclosing, hbenign⟩
  | block t =>
      cases hnest
      cases h
      exact ⟨congrArg List.length henclosing, hbenign⟩
  | close t =>
      rw [← show c.enclosing = a.enclosing from henclosing] at hnest
      obtain ⟨hlength, hrecoveries⟩ := closeBlock_of_leave? hnest h
      exact ⟨hlength, fun ha r hr ↦ hbenign ha r (hrecoveries ▸ hr)⟩
  | input =>
      cases hnest
      unfold leaveAtRule at h
      dsimp only at h
      split at h <;> cases h <;> exact ⟨congrArg List.length henclosing, hbenign⟩
  | failure e => cases h

/-- Behind a statement that nests the number of open blocks is known, and no repair that was made
of it changes the text. -/
theorem add_of_nest {statement : Statement} {depth : Nat} (hmode : a.mode = .tolerant)
    (hnest : statement.nest a.enclosing.length = some depth) (h : a.add statement = .ok b) :
    b.enclosing.length = depth ∧ (a.IsBenign → b.IsBenign) := by
  cases statement with
  | space t | comment t =>
      cases hnest
      cases h
      exact ⟨rfl, id⟩
  | semicolon t =>
      cases hnest
      cases h
      obtain hwait | ⟨_, _, -, -, -, htaken⟩ := a.freeSemicolon_cases t
      · rw [hwait]
        exact ⟨rfl, id⟩
      · rw [htaken]
        exact ⟨rfl, id⟩
  | close t =>
      obtain ⟨hlength, hrecoveries⟩ := closeBlock_of_leave? hnest h
      exact ⟨hlength, fun ha r hr ↦ ha r (hrecoveries ▸ hr)⟩
  | rule head brace =>
      cases hnest
      rw [add, rule_eq] at h
      cases h
      exact ⟨rfl, id⟩
  | atRule word params ending => exact atRule_of_nest hnest h
  | declaration tokens custom terminator opened =>
      have hmisses : Statement.misses tokens = false := by
        refine eq_false_of_ne_true fun htrue ↦ ?_
        rw [Statement.nest, if_pos htrue] at hnest
        cases hnest
      rw [Statement.nest, if_neg (by rw [hmisses]; exact Bool.false_ne_true)] at hnest
      cases hnest
      obtain ⟨c, hc, h⟩ := bind_eq_ok.mp h
      have hcmode := (steps_reportOpened hc).mode_eq.trans hmode
      obtain ⟨henclosing, hbenign⟩ := declaration_of_misses hcmode hmisses h
      refine ⟨?_, fun ha ↦ hbenign (ha.reportOpened hc)⟩
      rw [henclosing, enclosing_of_quiet (quiet_reportOpened hc)]
  | stray tokens opened =>
      cases hnest
      obtain ⟨c, hc, h⟩ := bind_eq_ok.mp h
      refine ⟨?_, fun ha ↦ (ha.reportOpened hc).stray h⟩
      have henclosing : b.enclosing = (c.wait (Token.spelling tokens)).enclosing :=
        enclosing_of_quiet (quiet_stray h)
      change b.enclosing = c.enclosing at henclosing
      rw [henclosing, enclosing_of_quiet (quiet_reportOpened hc)]
  | failure e => cases h

/-- A brace that is left over and a semicolon that is missed are recorded. -/
theorem recorded_of_nest {statement : Statement} (hmode : a.mode = .tolerant)
    (hnest : statement.nest a.enclosing.length = none) (h : a.add statement = .ok b) :
    ∃ r ∈ b.recoveries, r.damage = .unexpectedClose ∨ r.damage = .missedSemicolon := by
  have hclose {c : Assembly} {t : Token} (hdepth : Statement.leave? c.enclosing.length = none)
      (h : c.closeBlock t = .ok b) :
      ∃ r ∈ b.recoveries, r.damage = .unexpectedClose ∨ r.damage = .missedSemicolon :=
    (recorded_of_leave? hdepth h).imp fun _ hr ↦ ⟨hr.1, .inl hr.2⟩
  cases statement with
  | space | semicolon | comment | rule | stray | failure => cases hnest
  | close t => exact hclose hnest h
  | atRule word params ending =>
      cases ending with
      | semicolon | block | input | failure => cases hnest
      | close t =>
          rw [add, atRule_eq_reportName] at h
          obtain ⟨c, hc, h⟩ := bind_eq_ok.mp h
          obtain ⟨more, rfl⟩ := (isReport_reportName _ _).eq_note hc
          have hdepth : Statement.leave?
              ((a.addAtRule word params (.close t)).note more).enclosing.length = none := hnest
          exact hclose hdepth h
  | declaration tokens custom terminator opened =>
      have hmisses : Statement.misses tokens = true := by
        refine eq_true_of_ne_false fun hfalse ↦ ?_
        rw [Statement.nest, if_neg (by rw [hfalse]; exact Bool.false_ne_true)] at hnest
        cases hnest
      obtain ⟨c, hc, h⟩ := bind_eq_ok.mp h
      have hcmode := (steps_reportOpened hc).mode_eq.trans hmode
      exact (recorded_of_misses hcmode hmisses h).imp fun _ hr ↦ ⟨hr.1, .inr hr.2⟩

/-! ## Runs of statements -/

/-- Behind statements that nest the number of open blocks is known, and no repair that was made of
them changes the text. -/
theorem foldlM_add_of_nest {statements : List Statement} {depth : Nat}
    (hmode : a.mode = .tolerant)
    (hnest : statements.foldlM Statement.nest a.enclosing.length = some depth)
    (h : statements.foldlM add a = .ok b) :
    b.enclosing.length = depth ∧ (a.IsBenign → b.IsBenign) := by
  induction statements generalizing a with
  | nil =>
      cases h
      exact ⟨Option.some.inj hnest, id⟩
  | cons statement statements ih =>
      obtain ⟨c, hc, h⟩ := bind_eq_ok.mp h
      obtain ⟨inner, hinner, hnest⟩ := Option.bind_eq_some_iff.mp hnest
      obtain ⟨hlength, hbenign⟩ := add_of_nest hmode hinner hc
      rw [← hlength] at hnest
      obtain ⟨hdepth, hmore⟩ := ih ((steps_add hc).mode_eq.trans hmode) hnest h
      exact ⟨hdepth, hmore ∘ hbenign⟩

/-- Where statements do not nest, a brace that is left over or a missed semicolon is recorded. -/
theorem recorded_of_foldlM_nest {statements : List Statement} (hmode : a.mode = .tolerant)
    (hnest : statements.foldlM Statement.nest a.enclosing.length = none)
    (h : statements.foldlM add a = .ok b) :
    ∃ r ∈ b.recoveries, r.damage = .unexpectedClose ∨ r.damage = .missedSemicolon := by
  induction statements generalizing a with
  | nil => cases hnest
  | cons statement statements ih =>
      obtain ⟨c, hc, h⟩ := bind_eq_ok.mp h
      cases hinner : statement.nest a.enclosing.length with
      | none =>
          obtain ⟨r, hr, hdamage⟩ := recorded_of_nest hmode hinner hc
          exact ⟨r, (steps_foldlM_add h).repairs_kept.subset hr, hdamage⟩
      | some inner =>
          rw [List.foldlM_cons, hinner] at hnest
          obtain ⟨hlength, -⟩ := add_of_nest hmode hinner hc
          rw [← hlength] at hnest
          exact ih ((steps_add hc).mode_eq.trans hmode) hnest h

end Assembly

end Stylesheet
