import Stylesheet.Proofs.Regroup
import Stylesheet.Proofs.Repairs
import Stylesheet.Proofs.Runs

/-!
# Tolerant reading computes a document

A report does not stop tolerant assembly, and a healing lexer meets no error. So each statement of
a run is added, what is open at the end of the text is closed, and tolerant reading computes a
document of its mode whatever the text is (`exists_parse_tolerant`).
-/

namespace Stylesheet

namespace Assembly

/-- `Tolerates x` says that a computation succeeds with a tolerant assembly. -/
def Tolerates (x : Except ParseError Assembly) : Prop := ∃ b, x = .ok b ∧ b.mode = .tolerant

theorem Tolerates.bind {x : Except ParseError Assembly}
    {f : Assembly → Except ParseError Assembly} (hx : Tolerates x)
    (hf : ∀ b, b.mode = .tolerant → Tolerates (f b)) : Tolerates (x >>= f) := by
  obtain ⟨b, rfl, hb⟩ := hx
  exact hf b hb

variable {a : Assembly}

theorem tolerates_ok (hmode : a.mode = .tolerant) : Tolerates (.ok a) := ⟨a, rfl, hmode⟩

/-! ## Reports -/

theorem tolerates_report (hmode : a.mode = .tolerant) (defect : Defect) (span : Span)
    (node : Option NodeId) : Tolerates (a.report defect span node) := by
  simp only [report, hmode]
  exact tolerates_ok rfl

theorem tolerates_reportOpened (hmode : a.mode = .tolerant) (opened : Option Span) :
    Tolerates (a.reportOpened opened) := by
  cases opened with
  | none => exact tolerates_ok hmode
  | some span => exact tolerates_report hmode _ _ _

theorem tolerates_reportColon (hmode : a.mode = .tolerant) (value : List Token) (id : NodeId) :
    Tolerates (a.reportColon value id) := by
  unfold reportColon
  split
  · exact tolerates_report hmode _ _ _
  · exact tolerates_ok hmode

theorem tolerates_unknownWords (hmode : a.mode = .tolerant) (words : List Token) (id : NodeId) :
    Tolerates (words.foldlM
      (fun a t ↦ a.report (.unknownWord t.text) t.span (some id)) a) := by
  induction words generalizing a with
  | nil => exact tolerates_ok hmode
  | cons t words ih =>
      rw [List.foldlM_cons]
      exact (tolerates_report hmode _ _ _).bind fun b hb ↦ ih hb

theorem tolerates_reportHealed (hmode : a.mode = .tolerant) (run : TokenRun) :
    Tolerates (a.reportHealed run) := by
  unfold reportHealed
  split
  · split
    · exact tolerates_report hmode _ _ _
    · exact tolerates_ok hmode
  · exact tolerates_ok hmode

/-! ## Statements -/

theorem tolerates_stray (hmode : a.mode = .tolerant) (tokens : List Token) :
    Tolerates (a.stray tokens) := by
  cases tokens with
  | nil => exact tolerates_ok hmode
  | cons t rest => exact (tolerates_report hmode _ _ _).bind fun b hb ↦ tolerates_ok hb

theorem tolerates_closeBlock (hmode : a.mode = .tolerant) (t : Token) :
    Tolerates (a.closeBlock t) := by
  unfold closeBlock
  dsimp only
  split
  · exact tolerates_ok hmode
  · exact (tolerates_report (by exact hmode) _ _ _).bind fun b hb ↦ tolerates_ok hb

theorem tolerates_atRule (hmode : a.mode = .tolerant) (word : Token) (params : List Token)
    {ending : AtRuleEnd} (hending : ∀ e, ending ≠ .failure e) :
    Tolerates (a.atRule word params ending) := by
  rw [atRule_eq]
  have hname : Tolerates (if (word.text.drop 1).isEmpty then
      a.report .unnamedAtRule word.span (some a.created) else .ok a) := by
    split
    · exact tolerates_report hmode _ _ _
    · exact tolerates_ok hmode
  refine hname.bind fun b hb ↦ ?_
  cases ending with
  | semicolon | block => exact tolerates_ok hb
  | close t =>
      unfold atRuleBody
      exact tolerates_closeBlock (by exact hb) t
  | input =>
      unfold atRuleBody
      dsimp only
      split <;> exact tolerates_ok hb
  | failure e => exact absurd rfl (hending e)

theorem tolerates_splitValue (hmode : a.mode = .tolerant) (value : List Token) (id : NodeId) :
    ∃ b missed, a.splitValue value id = .ok (b, missed) ∧ b.mode = .tolerant := by
  obtain ⟨b, hb, hmode'⟩ := tolerates_reportColon hmode value id
  simp only [splitValue, hmode]
  cases hmissed : Missed.ofValue? value with
  | none => exact ⟨b, none, bind_eq_ok.mpr ⟨b, hb, rfl⟩, hmode'⟩
  | some missed =>
      obtain ⟨c, hc, hmode''⟩ := tolerates_report hmode' .missedSemicolon
        (.point ((missed.next.head?.map (·.span.start)).getD 0)) (some id)
      refine ⟨c, some missed, bind_eq_ok.mpr ⟨b, hb, ?_⟩, hmode''⟩
      exact bind_eq_ok.mpr ⟨c, hc, rfl⟩

/-- Tolerant assembly does not look for colons behind a declaration. -/
theorem checkColons_of_tolerant (hmode : a.mode = .tolerant) (custom : Bool) (value : Text)
    (tokens : List Token) (id : NodeId) : a.checkColons custom value tokens id = .ok a := by
  have hcond : ¬(a.mode = .strict ∧ custom = false ∧ ':' ∈ value) := by
    rw [hmode]
    exact fun h ↦ nomatch h.1
  rw [checkColons, if_neg hcond]

theorem tolerates_checkValue (hmode : a.mode = .tolerant) (custom : Bool) (value : Text)
    (terminator : Nat) (id : NodeId) : Tolerates (a.checkValue custom value terminator id) := by
  unfold checkValue
  split
  · exact tolerates_report hmode _ _ _
  · exact tolerates_ok hmode

theorem tolerates_declare (cuts : Nat) (hmode : a.mode = .tolerant) (tokens : List Token)
    (custom : Bool) (terminator : Nat) : Tolerates (declare cuts a tokens custom terminator) := by
  induction cuts generalizing a tokens custom with
  | zero => exact tolerates_ok hmode
  | succ cuts ih =>
      unfold declare
      split
      · exact tolerates_stray hmode tokens
      dsimp only
      split
      · exact tolerates_stray hmode _
      refine (tolerates_unknownWords hmode _ _).bind fun b hb ↦ ?_
      obtain ⟨c, missed, hsplit, hc⟩ := tolerates_splitValue hb _ _
      rw [hsplit]
      -- The second of two declarations is added before the value of the first one is looked at.
      cases missed with
      | none =>
          refine Tolerates.bind ?_ fun d hd ↦ tolerates_checkValue hd _ _ _ _
          rw [checkColons_of_tolerant (by exact hc)]
          exact tolerates_ok hc
      | some missed =>
          refine Tolerates.bind (ih (by exact hc) _ _) fun d hd ↦ ?_
          refine Tolerates.bind (tolerates_ok (by exact hd)) fun e he ↦ ?_
          refine Tolerates.bind ?_ fun f hf ↦ tolerates_checkValue hf _ _ _ _
          rw [checkColons_of_tolerant he]
          exact tolerates_ok he

/-- Tolerant assembly adds every statement of a run that does not fail. -/
theorem tolerates_add (hmode : a.mode = .tolerant) {stop : Nat} {t : Token}
    {rest behind : List Token} {statement : Statement}
    (hcut : Statement.Cut stop t rest statement behind) : Tolerates (a.add statement) := by
  cases statement with
  | space t => exact tolerates_ok hmode
  | semicolon t => exact ⟨_, rfl, (a.steps_freeSemicolon t).mode_eq.trans hmode⟩
  | close t => exact tolerates_closeBlock hmode t
  | comment t => exact tolerates_ok hmode
  | atRule word params ending =>
      refine tolerates_atRule hmode word params fun e he ↦ ?_
      have hfits := hcut.fits_atRule
      subst he
      cases hfits
  | rule head brace => exact tolerates_ok hmode
  | declaration tokens custom terminator opened =>
      exact (tolerates_reportOpened hmode opened).bind
        fun b hb ↦ tolerates_declare tokens.length hb tokens custom terminator
  | stray tokens opened =>
      exact (tolerates_reportOpened hmode opened).bind fun b hb ↦ tolerates_stray hb tokens
  | failure e => cases hcut

theorem tolerates_group (hmode : a.mode = .tolerant) (stop steps : Nat) (tokens : List Token) :
    Tolerates ((Statement.group stop none steps tokens).foldlM Assembly.add a) := by
  induction steps generalizing a tokens with
  | zero => exact tolerates_ok hmode
  | succ steps ih =>
      cases tokens with
      | nil => exact tolerates_ok hmode
      | cons t rest =>
          simp only [Statement.group, List.foldlM_cons]
          exact (tolerates_add hmode (Statement.first_cut stop t rest)).bind fun b hb ↦ ih hb _

/-! ## The end of the text -/

theorem tolerates_closeOpen (hmode : a.mode = .tolerant) (enclosing : List Frame) :
    Tolerates (a.closeOpen enclosing) := by
  induction enclosing generalizing a with
  | nil => exact tolerates_ok hmode
  | cons outer enclosing ih =>
      unfold closeOpen
      dsimp only
      split
      · exact ih (by exact hmode)
      · exact Tolerates.bind (tolerates_report (by exact hmode) _ _ _) fun b hb ↦ ih (by exact hb)

theorem tolerates_finish (hmode : a.mode = .tolerant) (run : TokenRun) :
    Tolerates (a.finish run) := by
  have hclose {b : Assembly} (hb : b.mode = .tolerant) : Tolerates (do
      let settled := b.current.settle b.semicolon b.spaces
      let c ← closeOpen { b with current := settled, spaces := [] } b.enclosing
      let stop := c.source.position c.source.size
      reportHealed { c with current := c.current.mapNode (Node.stopAt stop) } run) :=
    Tolerates.bind (tolerates_closeOpen (by exact hb) _)
      fun c hc ↦ tolerates_reportHealed (by exact hc) run
  unfold finish
  dsimp only
  split
  · exact hclose hmode
  · exact Tolerates.bind (tolerates_report hmode _ _ _) fun b hb ↦ hclose hb

theorem tolerates_assemble (source : Source) : Tolerates (assemble source .tolerant) := by
  have hfailure : (Token.run source.text .heal).failure = none :=
    Lexer.failure_run_heal source.text .stock
  unfold assemble Statement.ofRun
  dsimp only [Mode.openPolicy]
  rw [hfailure]
  exact (tolerates_group rfl _ _ _).bind fun b hb ↦ tolerates_finish hb _

end Assembly

theorem Assembly.mode_document (a : Assembly) : a.document.mode = a.mode :=
  (Document.frame_foldl_recover _ _).2

/-- Tolerant reading computes a tolerant document of every source. -/
theorem exists_parse_tolerant (source : Source) :
    ∃ doc, parse source .tolerant = .ok doc ∧ doc.mode = .tolerant := by
  obtain ⟨a, ha, hmode⟩ := Assembly.tolerates_assemble source
  exact ⟨a.document, parse_eq_ok.mpr ⟨a, ha, rfl⟩, a.mode_document.trans hmode⟩

end Stylesheet
