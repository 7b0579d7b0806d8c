import Mathlib.Data.List.TakeWhile
import Mathlib.Tactic.ByContra
import Stylesheet.Proofs.Reading
import Stylesheet.Proofs.Steps

/-!
# Tolerant reading of a text without defects

Tolerant assembly looks for a missed semicolon in every value, also in that of a custom property,
and before the important mark is cut off. Strict assembly does so in fewer places. A statement in
which tolerant assembly finds nothing there `keepsValue`, and `parse_tolerant_iff` says that these
are exactly the texts on which the modes agree.
-/

namespace Stylesheet

/-- `s.keepsValue` says of a declaration that its value neither starts with a colon nor can be cut
into two declarations. -/
def Statement.keepsValue : Statement → Bool
  | declaration tokens .. =>
      (Parts.ofTokens? (bodyOf tokens)).all fun parts ↦
        (leadingColon parts.value).isNone && (Missed.ofValue? parts.value).isNone
  | _ => true

theorem Statement.keepsValue_declaration_iff {tokens : List Token} {custom : Bool}
    {terminator : Nat} {opened : Option Span} {parts : Parts}
    (hparts : Parts.ofTokens? (bodyOf tokens) = some parts) :
    (declaration tokens custom terminator opened).keepsValue = true ↔
      leadingColon parts.value = none ∧ Missed.ofValue? parts.value = none := by
  simp [keepsValue, hparts]

/-! ## Declarations have a name and a colon -/

/-- The name of a declaration starts with a word. -/
theorem Parts.exists_word {tokens : List Token} {parts : Parts}
    (h : Parts.ofTokens? tokens = some parts) : ∃ t ∈ tokens, t.is .word = true := by
  by_contra hnone
  have hbody : tokens.dropWhile (!·.is .word) = [] := by
    rw [List.dropWhile_eq_nil_iff]
    intro t ht
    simpa using fun hword ↦ hnone ⟨t, ht, hword⟩
  simp [Parts.ofTokens?, Token.splitLeading, hbody] at h

theorem Statement.bodyOf_subset (tokens : List Token) : bodyOf tokens ⊆ tokens := by
  unfold bodyOf
  split
  · exact List.dropLast_subset tokens
  · exact List.Subset.refl tokens

/-- The colon that gathering tells of is one of the tokens that are gathered. -/
theorem Statement.Gathered.exists_colon (custom colon : Bool) (expected : List TokenKind)
    (opened : Option Span) (tokens : List Token)
    (h : (Gathered.gather custom colon expected opened tokens).colon = true) :
    colon = true ∨
      ∃ t ∈ (Gathered.gather custom colon expected opened tokens).tokens, t.is .colon = true := by
  induction tokens generalizing colon expected opened with
  | nil => exact .inl h
  | cons t rest ih =>
      have hadd {expected : List TokenKind} {opened : Option Span}
          (h : (Gathered.gather custom colon expected opened rest).colon = true) :
          colon = true ∨
            ∃ u ∈ t :: (Gathered.gather custom colon expected opened rest).tokens,
              u.is .colon = true := by
        rcases ih _ _ _ h with hcolon | ⟨u, hu, hcolon⟩
        · exact .inl hcolon
        · exact .inr ⟨u, List.mem_cons_of_mem t hu, hcolon⟩
      simp only [gather] at h ⊢
      split at h
      · exact hadd h
      · split at h
        · exact .inl h
        · exact .inl h
        · exact .inl h
        · next hkind => exact .inr ⟨t, List.mem_cons_self, by simp [Token.is, hkind]⟩
        · exact hadd h
      · split at h
        · next hkind => simpa only [if_pos hkind] using hadd h
        · next hkind => simpa only [if_neg hkind] using hadd h

/-- A declaration has a colon. -/
theorem Statement.Cut.exists_colon {stop : Nat} {t : Token} {rest behind tokens : List Token}
    {custom : Bool} {terminator : Nat} {opened : Option Span}
    (h : Cut stop t rest (.declaration tokens custom terminator opened) behind) :
    ∃ u ∈ tokens, u.is .colon = true := by
  have hgathered {custom : Bool} {tokens : List Token} {ending : GatherEnd} {opened : Option Span}
      {behind : List Token} (hgather : Gathered.gather custom false [] none (t :: rest) =
        ⟨tokens, ending, true, opened, behind⟩) : ∃ u ∈ tokens, u.is .colon = true := by
    have h := Gathered.exists_colon custom false [] none (t :: rest) (by rw [hgather])
    rw [hgather] at h
    exact h.resolve_left nofun
  cases h with
  | ended _ hgather =>
      obtain ⟨u, hu, hcolon⟩ := hgathered hgather
      exact ⟨u, List.mem_append_left _ hu, hcolon⟩
  | custom _ hgather => exact hgathered hgather
  | @plain tokens _ _ _ _ _ _ hgather =>
      obtain ⟨u, hu, hcolon⟩ := hgathered hgather
      -- A colon is no trivia, so that it is not cut off at the end.
      rw [← Token.splitTrailing_append Token.isTrivia tokens, List.mem_append] at hu
      rcases hu with hu | hu
      · exact ⟨u, hu, hcolon⟩
      · have htrivia := List.mem_takeWhile_imp (List.mem_reverse.mp hu)
        simp only [Token.is, beq_iff_eq] at hcolon
        simp [Token.isTrivia, hcolon, TokenKind.isTrivia] at htrivia

/-- A declaration that has parts is more than one token with a word among them. -/
theorem Statement.Cut.isDeclaration {stop : Nat} {t : Token} {rest behind tokens : List Token}
    {custom : Bool} {terminator : Nat} {opened : Option Span} {parts : Parts}
    (h : Cut stop t rest (.declaration tokens custom terminator opened) behind)
    (hparts : Parts.ofTokens? (bodyOf tokens) = some parts) :
    Assembly.isDeclaration tokens = true := by
  obtain ⟨c, hc, hcolon⟩ := h.exists_colon
  obtain ⟨w, hw, hword⟩ := Parts.exists_word hparts
  have hw := bodyOf_subset tokens hw
  unfold Assembly.isDeclaration
  rw [Bool.and_eq_true, decide_eq_true_eq, List.any_eq_true]
  refine ⟨?_, w, hw, hword⟩
  match tokens, hc, hw with
  | [u], hc, hw =>
      rw [List.mem_singleton] at hc hw
      subst hc hw
      simp only [Token.is, beq_iff_eq] at hcolon hword
      rw [hcolon] at hword
      cases hword
  | _ :: _ :: _, _, _ => simp

namespace Assembly

variable {a b : Assembly}

/-! ## What both modes take -/

/-- `a.tolerate` is the same assembly in the other mode. -/
def tolerate (a : Assembly) : Assembly := { a with mode := .tolerant }

/-- What is taken does not depend on the mode. -/
theorem Takes.tolerate {statement : Statement} (h : a.Takes statement b) :
    a.tolerate.Takes statement b.tolerate := by
  cases h with
  | semicolon t =>
      have hfree : (a.freeSemicolon t).tolerate = a.tolerate.freeSemicolon t := by
        unfold freeSemicolon Assembly.tolerate
        dsimp only
        split
        · split <;> rfl
        · rfl
      rw [hfree]
      exact .semicolon t
  | space t => exact .space t
  | comment t => exact .comment t
  | rule head brace => exact .rule head brace
  | close t hopen => exact .close t hopen
  | atEnded params t hname => exact .atEnded params t hname
  | atBlock params t hname => exact .atBlock params t hname
  | atClose params t hname hopen => exact .atClose params t hname hopen
  | atInput hname hcore => exact .atInput hname hcore
  | atInputParams hname hcore => exact .atInputParams hname hcore
  | declaration terminator hparts hwords hnode hvalue hsome hcolons =>
      exact .declaration terminator hparts hwords hnode hvalue hsome hcolons

/-- Tolerant assembly takes a statement that keeps its value. -/
theorem Takes.add_tolerate {stop : Nat} {t : Token} {rest behind : List Token}
    {statement : Statement} (h : a.Takes statement b)
    (hcut : Statement.Cut stop t rest statement behind) (hkeeps : statement.keepsValue = true) :
    a.tolerate.add statement = .ok b.tolerate := by
  refine h.tolerate.add_of_whole fun heq hparts ↦ ?_
  subst heq
  obtain ⟨hleading, hmissed⟩ := (Statement.keepsValue_declaration_iff hparts).mp hkeeps
  refine ⟨.inr (hcut.isDeclaration hparts), ?_⟩
  simp only [splitValue, Assembly.tolerate, reportColon, hleading, hmissed]
  rfl

theorem TakesRun.foldlM_tolerate {stop steps : Nat} {tokens : List Token}
    (h : TakesRun stop a tokens b) (hsteps : tokens.length < steps)
    (hkeeps : (Statement.group stop none steps tokens).all Statement.keepsValue = true) :
    (Statement.group stop none steps tokens).foldlM Assembly.add a.tolerate = .ok b.tolerate := by
  induction h generalizing steps with
  | nil =>
      obtain ⟨steps, rfl⟩ := Nat.exists_eq_add_one_of_ne_zero (Nat.ne_zero_of_lt hsteps)
      rfl
  | @cons a b c t rest statement behind hfirst htakes _ ih =>
      obtain ⟨steps, rfl⟩ := Nat.exists_eq_add_one_of_ne_zero (Nat.ne_zero_of_lt hsteps)
      have hcut := Statement.first_cut stop t rest
      have hlength := Statement.length_first_le stop none t rest
      rw [hfirst] at hcut hlength
      have hbehind : behind.length < steps :=
        Nat.lt_of_le_of_lt hlength (Nat.lt_of_succ_lt_succ hsteps)
      simp only [Statement.group, hfirst, List.all_cons, Bool.and_eq_true] at hkeeps ⊢
      rw [List.foldlM_cons, htakes.add_tolerate hcut hkeeps.1]
      exact ih hbehind hkeeps.2

/-- The modes end a text without open constructs in the same way. -/
theorem finish_of_unhealed {run : TokenRun} (hopen : a.enclosing = [])
    (hhealed : ∀ t ∈ run.tokens, t.healed = false) : a.finish run = .ok a.ended := by
  rw [finish_of_enclosing hopen]
  unfold reportHealed
  split
  · next t ht =>
      rw [hhealed t (List.mem_of_getLast? ht)]
      rfl
  · rfl

/-! ## What tolerant assembly leaves without a repair -/

/-- Tolerant assembly that makes no repair has found no colon in a value to cut it at. -/
theorem splitValue_of_recoveries (hmode : a.mode = .tolerant) {value : List Token} {id : NodeId}
    {missed : Option Missed} (h : a.splitValue value id = .ok (b, missed))
    (hnone : b.recoveries = []) : leadingColon value = none ∧ Missed.ofValue? value = none := by
  have hreport {c d : Assembly} {defect : Defect} {span : Span} {node : Option NodeId}
      (h : c.report defect span node = .ok d) : d.recoveries ≠ [] := by
    obtain ⟨recovery, rfl⟩ := report_eq_ok h
    simp
  unfold splitValue at h
  simp only [hmode] at h
  obtain ⟨c, hc, h⟩ := bind_eq_ok.mp h
  cases hmissed : Missed.ofValue? value with
  | some cut =>
      simp only [hmissed] at h
      obtain ⟨d, hd, h⟩ := bind_eq_ok.mp h
      cases h
      exact absurd hnone (hreport hd)
  | none =>
      simp only [hmissed] at h
      cases h
      unfold reportColon at hc
      split at hc
      · exact absurd hnone (hreport hc)
      · next hleading => exact ⟨hleading, rfl⟩

/-- Tolerant assembly that makes no repair has been given a statement that keeps its value. -/
theorem keepsValue_of_add (hmode : a.mode = .tolerant) {statement : Statement}
    (h : a.add statement = .ok b) (hnone : b.recoveries = []) : statement.keepsValue = true := by
  cases statement with
  | declaration tokens custom terminator opened =>
      cases hparts : Parts.ofTokens? (Statement.bodyOf tokens) with
      | none => simp [Statement.keepsValue, hparts]
      | some parts =>
          rw [Statement.keepsValue_declaration_iff hparts]
          have hne := ne_nil_of_parts hparts
          obtain ⟨first, more, rfl⟩ := List.exists_cons_of_ne_nil hne
          obtain ⟨c, hc, h⟩ := bind_eq_ok.mp h
          have hcmode := (steps_reportOpened hc).mode_eq.trans hmode
          by_cases hguard : c.mode = .tolerant ∧ isDeclaration (first :: more) = false
          · -- Tokens that are no declaration are reported.
            unfold declaration declare at h
            rw [List.length_cons] at h
            dsimp only at h
            rw [if_pos hguard] at h
            obtain ⟨d, hd, h⟩ := bind_eq_ok.mp h
            obtain ⟨recovery, rfl⟩ := report_eq_ok hd
            cases h
            simp [wait] at hnone
          · obtain ⟨d, e, missed, hwords, hsplit, hrest⟩ :=
              steps_of_parts hguard hparts (fun h ↦ steps_declare h) h
            have hdmode := (steps_unknownWords hwords).mode_eq.trans hcmode
            have hprefix := hrest.repairs_kept
            rw [hnone, List.prefix_nil] at hprefix
            exact splitValue_of_recoveries hdmode hsplit hprefix
  | _ => rfl

theorem keepsValue_of_foldlM (hmode : a.mode = .tolerant) {statements : List Statement}
    (h : statements.foldlM Assembly.add a = .ok b) (hnone : b.recoveries = []) :
    statements.all Statement.keepsValue = true := by
  induction statements generalizing a with
  | nil => rfl
  | cons statement statements ih =>
      rw [List.foldlM_cons] at h
      obtain ⟨c, hc, h⟩ := bind_eq_ok.mp h
      have hprefix := (steps_foldlM_add h).repairs_kept
      rw [hnone, List.prefix_nil] at hprefix
      rw [List.all_cons, Bool.and_eq_true]
      exact ⟨keepsValue_of_add hmode hc hprefix, ih ((steps_add hc).mode_eq.trans hmode) h⟩

end Assembly

/-! ## Documents -/

/-- Numbering a forest damages no node. -/
theorem Forest.undamaged_number {f : Forest Node} (hf : f.Each Node.IsMade)
    (parent : Option NodeId) (next : NodeId) :
    ∀ n ∈ (f.number parent next).1, n.raws.damage = [] := by
  induction f generalizing parent next with
  | nil => exact List.forall_mem_nil _
  | cons node below rest ihBelow ihRest =>
      obtain ⟨hnode, hbelow, hrest⟩ := hf
      refine List.forall_mem_cons.mpr ⟨hnode.undamaged, ?_⟩
      intro n hn
      rcases List.mem_append.mp hn with hn | hn
      · exact ihBelow hbelow _ _ n hn
      · exact ihRest hrest _ _ n hn

namespace Assembly

variable {a : Assembly}

/-- A document has the repairs that assembly made. -/
theorem recoveries_document (a : Assembly) : a.document.recoveries = a.recoveries := by
  have hfold (doc : Document) (recoveries : List Recovery) :
      (recoveries.foldl Document.recover doc).recoveries = doc.recoveries ++ recoveries := by
    induction recoveries generalizing doc with
    | nil => simp
    | cons recovery recoveries ih =>
        rw [List.foldl_cons, ih, Document.recover]
        cases recovery.node <;> simp [Document.modify]
  exact hfold _ _

theorem document_tolerate (h : a.recoveries = []) :
    a.tolerate.document = { a.document with mode := .tolerant, recoveries := [] } := by
  unfold document tolerate
  simp only [h]
  rfl

/-- Assembly without repairs damages no node. -/
theorem IsMade.undamaged_document (ha : a.IsMade) (h : a.recoveries = []) :
    ∀ n ∈ a.document.nodes, n.raws.damage = [] := by
  have htree : (Forest.cons a.current.node (Forest.ofRev a.current.earlier) .nil).Each
      Node.IsMade :=
    ⟨⟨ha.current.toIsNew, .inr ha.current.block⟩, ha.current.earlier, trivial⟩
  intro n hn
  unfold document at hn
  simp only [h, List.foldl_nil] at hn
  exact Forest.undamaged_number htree none 0 n (List.mem_toArray.mp hn)

end Assembly

/-- The nodes of a text that strict reading takes are not damaged. Tolerant reading makes the same
nodes of it without a repair exactly if all its declarations keep their values. -/
theorem parse_tolerant_iff {source : Source} {doc : Document}
    (h : parse source .strict = .ok doc) :
    (∀ n ∈ doc.nodes, n.raws.damage = []) ∧
      (parse source .tolerant = .ok { doc with mode := .tolerant, recoveries := [] } ↔
        (Statement.ofRun source.size (Token.run source.text .fail)).all Statement.keepsValue =
          true) := by
  obtain ⟨final, hassemble, rfl⟩ := parse_eq_ok.mp h
  obtain ⟨a, hfailure, hruns, hopen, rfl⟩ := assemble_strict_eq_ok hassemble
  have hrun : Token.run source.text (Mode.openPolicy .tolerant) = Token.run source.text .fail :=
    Token.run_heal_of_failure_none hfailure
  refine ⟨(Assembly.isMade_of_assemble hassemble).undamaged_document hruns.frame.2.2, ?_⟩
  constructor
  · intro htolerant
    obtain ⟨final, hfinal, hdocument⟩ := parse_eq_ok.mp htolerant
    have hnone := final.recoveries_document
    rw [hdocument] at hnone
    unfold assemble at hfinal
    rw [hrun] at hfinal
    obtain ⟨b, hb, hfinish⟩ := bind_eq_ok.mp hfinal
    have hprefix := (Assembly.steps_finish hfinish).repairs_kept
    rw [← hnone, List.prefix_nil] at hprefix
    exact Assembly.keepsValue_of_foldlM rfl hb hprefix
  · intro hkeeps
    unfold Statement.ofRun at hkeeps
    rw [hfailure] at hkeeps
    have hfold := hruns.foldlM_tolerate (Nat.lt_succ_self _) hkeeps
    have hfinish := Assembly.finish_of_unhealed (a := a.tolerate) hopen
      fun t ht ↦ Token.healed_of_mem_run hfailure ht
    rw [parse_eq_ok]
    refine ⟨a.ended.tolerate, ?_, Assembly.document_tolerate hruns.frame.2.2⟩
    unfold assemble Statement.ofRun
    rw [hrun]
    dsimp only
    rw [hfailure]
    show (List.foldlM Assembly.add (Assembly.start source .strict).tolerate _ >>= _) = _
    rw [hfold]
    exact hfinish

/-- The value of a custom property with a colon in parentheses is kept in both modes. -/
theorem parse_tolerant_brackets :
    ∃ doc, parse ⟨"--x: a (b: c)".toList, none⟩ .strict = .ok doc ∧
      parse ⟨"--x: a (b: c)".toList, none⟩ .tolerant =
        .ok { doc with mode := .tolerant, recoveries := [] } :=
  have h : ∃ doc, parse ⟨"--x: a (b: c)".toList, none⟩ .strict = .ok doc := ⟨_, rfl⟩
  h.imp fun _ hdoc ↦ ⟨hdoc, (parse_tolerant_iff hdoc).2.mpr rfl⟩

/-- Strict reading takes a custom property with a second colon, which tolerant reading repairs. -/
theorem parse_tolerant_custom :
    ∃ doc, parse ⟨"--x: a b: c".toList, none⟩ .strict = .ok doc ∧
      parse ⟨"--x: a b: c".toList, none⟩ .tolerant ≠
        .ok { doc with mode := .tolerant, recoveries := [] } :=
  ⟨_, rfl, fun h ↦ by cases h⟩

end Stylesheet
