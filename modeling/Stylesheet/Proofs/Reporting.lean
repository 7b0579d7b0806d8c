import Stylesheet.Proofs.Lossless
import Stylesheet.Proofs.Totality

/-!
# Which defects tolerant reading reports

Strict assembly stops where tolerant assembly makes a repair, but for one defect: a second colon
shows that a semicolon is missed before it, and tolerant assembly says so only if there is a word
to cut the value at. A statement that has such a colon and no such word `hidesColon`.
`isRecovered_of_rejected` says that of the texts that tolerant reading leaves without a repair,
strict reading refuses exactly those with such a statement.
-/

namespace Stylesheet

/-- `s.hidesColon` says of a declaration that a second colon is in its value, and that the value
cannot be cut before it. -/
def Statement.hidesColon : Statement → Bool
  | declaration tokens false _ _ =>
      (Parts.ofTokens? (bodyOf tokens)).any fun parts ↦
        (secondColon (takeImportant parts.value).tokens).isSome &&
          (Missed.ofValue? parts.value).isNone
  | _ => false

theorem Statement.hidesColon_declaration_iff {tokens : List Token} {terminator : Nat}
    {opened : Option Span} {parts : Parts}
    (hparts : Parts.ofTokens? (bodyOf tokens) = some parts) :
    (declaration tokens false terminator opened).hidesColon = false ↔
      (Missed.ofValue? parts.value = none →
        secondColon (takeImportant parts.value).tokens = none) := by
  simp only [hidesColon, hparts, Option.any_some, Bool.and_eq_false_iff,
    Option.isSome_eq_false_iff, Option.isNone_iff_eq_none, Option.isNone_eq_false_iff,
    Option.isSome_iff_ne_none, or_iff_not_imp_right, not_not]

/-! ## The tokens of a value -/

theorem suffix_spellBack (spelled : Text) (ahead behind : List Token) :
    (spellBack spelled ahead behind).2 <:+ behind := by
  fun_induction spellBack spelled ahead behind with
  | case1 => exact List.suffix_refl _
  | case2 spelled guard next ahead t behind hcond ih => exact ih.trans (List.suffix_cons t behind)
  | case3 => exact List.suffix_refl _

theorem Token.prefix_splitTrailing (p : Token → Bool) (tokens : List Token) :
    (splitTrailing p tokens).1 <+: tokens :=
  ⟨_, splitTrailing_append p tokens⟩

/-- A value without its important mark is the start of the value. -/
theorem prefix_takeImportant (tokens : List Token) :
    (takeImportant tokens).tokens <+: tokens := by
  have hbody := Token.prefix_splitTrailing Token.isTrivia tokens
  unfold takeImportant
  simp only
  generalize Token.splitTrailing Token.isTrivia tokens = split at hbody
  obtain ⟨body, trivia⟩ := split
  simp only at hbody ⊢
  split
  · exact List.prefix_refl _
  · split
    · exact ((Token.prefix_splitTrailing _ _).trans (List.dropLast_prefix body)).trans hbody
    · split
      · have hback := suffix_spellBack [] body.reverse tokens.reverse
        generalize spellBack [] body.reverse tokens.reverse = back at hback
        obtain ⟨spelled, behind⟩ := back
        simp only
        split
        · have h := List.reverse_prefix.mpr hback
          rwa [List.reverse_reverse] at h
        · exact List.prefix_refl _
      · exact List.prefix_refl _

/-- A run starts with a colon if its start does. -/
theorem leadingColon_of_begins {tokens more : List Token} (h : tokens <+: more)
    (hnone : leadingColon more = none) : leadingColon tokens = none := by
  obtain ⟨behind, rfl⟩ := h
  cases tokens with
  | nil => rfl
  | cons t rest => exact hnone

/-- A second colon is a token of the value. -/
theorem exists_colon_of_findColon {depth : Int} {previous : Token} {tokens : List Token}
    {cut : List Token × List Token} (h : findColon depth previous tokens = some cut) :
    ∃ t ∈ tokens, t.kind = .colon := by
  induction tokens generalizing depth previous cut with
  | nil => cases h
  | cons t rest ih =>
      have hmore {depth : Int} {previous : Token}
          (h : (findColon depth previous rest).map (fun cut ↦ (t :: cut.1, cut.2)) = some cut) :
          ∃ u ∈ t :: rest, u.kind = .colon := by
        obtain ⟨cut, hcut, -⟩ := Option.map_eq_some_iff.mp h
        obtain ⟨u, hu, hcolon⟩ := ih hcut
        exact ⟨u, List.mem_cons_of_mem t hu, hcolon⟩
      unfold findColon at h
      split at h
      · next hcond =>
          split at h
          · exact hmore h
          · simp only [Token.is, Bool.and_eq_true, beq_iff_eq] at hcond
            exact ⟨t, List.mem_cons_self, hcond.1⟩
      · exact hmore h

theorem exists_colon_of_secondColon {tokens : List Token} {cut : List Token × List Token}
    (h : secondColon tokens = some cut) : ∃ t ∈ tokens, t.kind = .colon := by
  cases tokens with
  | nil => cases h
  | cons t rest =>
      obtain ⟨cut, hcut, -⟩ := Option.map_eq_some_iff.mp h
      obtain ⟨u, hu, hcolon⟩ := exists_colon_of_findColon hcut
      exact ⟨u, List.mem_cons_of_mem t hu, hcolon⟩

/-- Tidying leaves out only white space and comments. -/
theorem mem_tidyFrom {custom : Bool} {before : Option TokenKind} {last : Option Char}
    {dropped : Bool} {tokens : List Token} {t : Token} (ht : t ∈ tokens)
    (htrivia : t.isTrivia = false) : t ∈ tidyFrom custom before last dropped tokens := by
  have hkind {k : TokenKind} (hk : k.isTrivia = true) : t.is k = false := by
    refine Bool.eq_false_iff.mpr fun h ↦ ?_
    rw [Token.is, beq_iff_eq] at h
    rw [Token.isTrivia, h, hk] at htrivia
    cases htrivia
  induction tokens generalizing before last dropped with
  | nil => cases ht
  | cons u rest ih =>
      simp only [tidyFrom]
      rcases List.mem_cons.mp ht with rfl | ht
      · rw [hkind rfl, hkind rfl]
        exact List.mem_cons_self
      · split
        · exact ih ht
        · split
          · exact ih ht
          · exact List.mem_cons_of_mem u (ih ht)

namespace Assembly

variable {a b : Assembly}

/-- A colon among the tokens of a value is a colon in the value. -/
theorem colon_mem_of_token {custom : Bool} {tokens : List Token} {parts : Parts} {marked : Marked}
    {value : Text} {t : Token} (ht : t ∈ marked.tokens) (hcolon : t.kind = .colon)
    (hformed : t.IsFormed)
    (hvalue : (a.declarationNode custom tokens parts marked).kind.value? = some value) :
    ':' ∈ value := by
  cases hvalue
  have htext : t.text = [':'] := hformed.single hcolon rfl
  have htrivia : t.isTrivia = false := by simp [Token.isTrivia, hcolon, TokenKind.isTrivia]
  exact List.mem_flatMap.mpr ⟨t, mem_tidyFrom (List.mem_append_right _ ht) htrivia,
    htext ▸ List.mem_singleton_self ':'⟩

/-- A declaration with a second colon has a colon in its value. -/
theorem colon_mem_of_secondColon {custom : Bool} {tokens : List Token} {parts : Parts}
    {marked : Marked} {cut : List Token × List Token} {value : Text}
    (hsecond : secondColon marked.tokens = some cut) (hformed : ∀ t ∈ marked.tokens, t.IsFormed)
    (hvalue : (a.declarationNode custom tokens parts marked).kind.value? = some value) :
    ':' ∈ value := by
  obtain ⟨t, ht, hcolon⟩ := exists_colon_of_secondColon hsecond
  exact colon_mem_of_token ht hcolon (hformed t ht) hvalue

/-! ## What is not repaired is taken -/

/-- A report that does not stop assembly leaves a repair, which is not taken back. -/
theorem recoveries_ne_nil {c : Assembly} {defect : Defect} {span : Span} {node : Option NodeId}
    (h : a.report defect span node = .ok b) (hsteps : b.Steps c) : c.recoveries ≠ [] := by
  obtain ⟨r, hr, -⟩ := recorded_of_report h
  exact List.ne_nil_of_mem (hsteps.repairs_kept.subset hr)

/-- Tokens that are no statement are repaired. -/
theorem eq_nil_of_stray {tokens : List Token} (h : a.stray tokens = .ok b)
    (hnone : b.recoveries = []) : tokens = [] := by
  cases tokens with
  | nil => rfl
  | cons t rest =>
      obtain ⟨c, hc, h⟩ := bind_eq_ok.mp h
      cases h
      exact absurd hnone (recoveries_ne_nil hc (Step.wait _).steps)

theorem eq_of_reportOpened {opened : Option Span} (h : a.reportOpened opened = .ok b)
    (hnone : b.recoveries = []) : opened = none ∧ b = a := by
  cases opened with
  | none =>
      cases h
      exact ⟨rfl, rfl⟩
  | some span => exact absurd hnone (recoveries_ne_nil h (.refl b))

theorem eq_of_unknownWords {words : List Token} {id : NodeId}
    (h : words.foldlM (fun a t ↦ a.report (.unknownWord t.text) t.span (some id)) a = .ok b)
    (hnone : b.recoveries = []) : words = [] ∧ b = a := by
  cases words with
  | nil =>
      cases h
      exact ⟨rfl, rfl⟩
  | cons t words =>
      rw [List.foldlM_cons] at h
      obtain ⟨c, hc, h⟩ := bind_eq_ok.mp h
      exact absurd hnone (recoveries_ne_nil hc (steps_unknownWords h))

theorem eq_of_checkValue {custom : Bool} {value : Text} {terminator : Nat} {id : NodeId}
    (h : a.checkValue custom value terminator id = .ok b) (hnone : b.recoveries = []) :
    (custom = false → value ≠ []) ∧ b = a := by
  unfold checkValue at h
  split at h
  · exact absurd hnone (recoveries_ne_nil h (.refl b))
  · next hcond =>
      cases h
      exact ⟨fun hcustom hvalue ↦ hcond ⟨hcustom, hvalue⟩, rfl⟩

/-- A declaration that is not repaired and does not hide a colon is one that strict assembly
takes. -/
theorem takes_of_declare (hmode : a.mode = .tolerant) {tokens : List Token} {custom : Bool}
    {terminator : Nat} (hne : tokens ≠ [])
    (h : a.declaration tokens custom terminator = .ok b) (hnone : b.recoveries = [])
    (hshown : (Statement.declaration tokens custom terminator none).hidesColon = false) :
    a.quiet.Takes (.declaration tokens custom terminator none) b.quiet := by
  obtain ⟨t, more, rfl⟩ := List.exists_cons_of_ne_nil hne
  rw [declaration, List.length_cons] at h
  have hdeclaration : isDeclaration (t :: more) = true := by
    refine eq_true_of_ne_false fun hfalse ↦ ?_
    rw [declare, if_pos ⟨hmode, hfalse⟩] at h
    exact absurd (eq_nil_of_stray h hnone) (List.cons_ne_nil t more)
  obtain ⟨parts, hparts⟩ := Option.ne_none_iff_exists'.mp (parts_ne_none hdeclaration)
  have hguard : ¬(a.mode = .tolerant ∧ isDeclaration (t :: more) = false) := by
    rw [hdeclaration]
    exact fun h ↦ nomatch h.2
  -- No step before the value is looked at is a repair.
  obtain ⟨c, d, missed, hwords, hsplit, hrest⟩ :=
    steps_of_parts hguard hparts (fun h ↦ steps_declare h) h
  have hd : d.recoveries = [] := List.prefix_nil.mp (hnone ▸ hrest.repairs_kept)
  have hc : c.recoveries = [] := List.prefix_nil.mp (hd ▸ (steps_splitValue hsplit).repairs_kept)
  obtain ⟨hnowords, rfl⟩ := eq_of_unknownWords hwords hc
  obtain ⟨hleading, hmissed⟩ := splitValue_of_recoveries hmode hsplit hd
  have hwhole : c.splitValue parts.value c.created = .ok (c, none) := by
    simp only [splitValue, hmode, reportColon, hleading, hmissed]
    rfl
  rw [declare_of_parts (.inr hdeclaration) hparts hnowords hwhole,
    checkColons_of_tolerant (by exact hmode)] at h
  obtain ⟨hvalue, rfl⟩ := eq_of_checkValue h hnone
  refine .declaration terminator hparts hnowords rfl rfl hvalue fun hcustom _ ↦ ?_
  subst hcustom
  exact ⟨leadingColon_of_begins (prefix_takeImportant _) hleading,
    (Statement.hidesColon_declaration_iff hparts).mp hshown hmissed⟩

/-- Strict assembly does with a statement what tolerant assembly does without a repair, unless the
statement hides a colon. -/
theorem quiet_add (hmode : a.mode = .tolerant) {statement : Statement}
    (h : a.add statement = .ok b) (hnone : b.recoveries = [])
    (hshown : statement.hidesColon = false) : a.quiet.add statement = .ok b.quiet := by
  have hbenign : b.IsBenign := by
    unfold IsBenign
    rw [hnone]
    exact List.forall_mem_nil _
  cases statement with
  | space t =>
      cases h
      rfl
  | semicolon t =>
      cases h
      exact congrArg Except.ok (quiet_freeSemicolon a t).symm
  | close t => exact quiet_closeBlock h hbenign
  | comment t =>
      cases h
      rfl
  | atRule word params ending =>
      have hname : word.text.drop 1 ≠ [] := by
        intro hempty
        rw [Assembly.add, atRule_eq, if_pos (List.isEmpty_iff.mpr hempty)] at h
        obtain ⟨c, hc, h⟩ := bind_eq_ok.mp h
        exact recoveries_ne_nil hc (steps_atRuleBody h) hnone
      rw [Assembly.add, atRule_of_name _ _ hname] at h ⊢
      exact quiet_atRuleBody h hbenign
  | rule head brace =>
      cases h
      rfl
  | declaration tokens custom terminator opened =>
      obtain ⟨c, hc, h⟩ := bind_eq_ok.mp h
      have hcnone : c.recoveries = [] :=
        List.prefix_nil.mp (hnone ▸ (steps_declare h).repairs_kept)
      obtain ⟨rfl, rfl⟩ := eq_of_reportOpened hc hcnone
      by_cases hne : tokens = []
      · subst hne
        cases h
        rfl
      · exact (takes_of_declare hmode hne h hnone hshown).add rfl
  | stray tokens opened =>
      obtain ⟨c, hc, h⟩ := bind_eq_ok.mp h
      have hcnone : c.recoveries = [] := List.prefix_nil.mp (hnone ▸ (steps_stray h).repairs_kept)
      obtain ⟨rfl, rfl⟩ := eq_of_reportOpened hc hcnone
      obtain rfl := eq_nil_of_stray h hnone
      cases h
      rfl
  | failure e => cases h

theorem quiet_foldlM_add (hmode : a.mode = .tolerant) {statements : List Statement}
    (h : statements.foldlM Assembly.add a = .ok b) (hnone : b.recoveries = [])
    (hshown : ∀ s ∈ statements, s.hidesColon = false) :
    statements.foldlM Assembly.add a.quiet = .ok b.quiet := by
  induction statements generalizing a with
  | nil =>
      cases h
      rfl
  | cons statement statements ih =>
      rw [List.foldlM_cons] at h ⊢
      obtain ⟨c, hc, h⟩ := bind_eq_ok.mp h
      obtain ⟨hstatement, hstatements⟩ := List.forall_mem_cons.mp hshown
      have hcnone : c.recoveries = [] :=
        List.prefix_nil.mp (hnone ▸ (steps_foldlM_add h).repairs_kept)
      rw [quiet_add hmode hc hcnone hstatement]
      exact ih ((steps_add hc).mode_eq.trans hmode) h hstatements

/-- An open construct at the end of the text is repaired. -/
theorem failure_eq_none_of_finish {text : Text} (h : a.finish (Token.run text .heal) = .ok b)
    (hnone : b.recoveries = []) : (Token.run text .fail).failure = none := by
  by_contra hfailure
  obtain ⟨e, he⟩ := Option.ne_none_iff_exists'.mp hfailure
  obtain ⟨-, -, hheals⟩ := Lexer.heals_run text .stock
  unfold Token.run at he
  rw [he] at hheals
  obtain ⟨left, -, hrun⟩ := hheals
  have hlast : (Token.run text .heal).tokens.getLast? =
      some ⟨e.construct.tokenKind, ⟨e.offset, text.utf8Size⟩, left, true⟩ := by
    unfold Token.run
    rw [hrun, List.getLast?_concat]
  obtain ⟨-, -, -, -, -, -, hrecorded⟩ := finish_quiet h
  obtain ⟨r, hr, -⟩ := hrecorded _ hlast rfl
  exact List.ne_nil_of_mem hr hnone

/-! ## What is taken hides no colon -/

/-- A statement that strict assembly takes hides no colon. -/
theorem Takes.hidesColon_eq {statement : Statement} (h : a.Takes statement b)
    (hformed : ∀ t ∈ statement.tokens, t.IsFormed) : statement.hidesColon = false := by
  cases h with
  | @declaration tokens custom terminator parts node value hparts _ hnode hvalue _ hcolons =>
      cases custom with
      | true => rfl
      | false =>
          rw [Statement.hidesColon_declaration_iff hparts]
          intro _
          by_contra hsecond
          obtain ⟨cut, hcut⟩ := Option.ne_none_iff_exists'.mp hsecond
          subst hnode
          have hmem : ∀ t ∈ (takeImportant parts.value).tokens, t.IsFormed := by
            intro t ht
            have ht := (prefix_takeImportant parts.value).subset ht
            refine hformed t (Statement.bodyOf_subset tokens ?_)
            rw [← Parts.tokens_ofTokens? hparts]
            exact List.mem_append_right _ ht
          exact hsecond (hcolons rfl (colon_mem_of_secondColon hcut hmem hvalue)).2
  | _ => rfl

theorem TakesRun.hidesColon_eq {stop steps : Nat} {tokens : List Token}
    (h : TakesRun stop a tokens b) (hformed : ∀ t ∈ tokens, t.IsFormed)
    (hsteps : tokens.length < steps) :
    ∀ s ∈ Statement.group stop none steps tokens, s.hidesColon = false := by
  induction h generalizing steps with
  | nil =>
      obtain ⟨steps, rfl⟩ := Nat.exists_eq_add_one_of_ne_zero (Nat.ne_zero_of_lt hsteps)
      exact List.forall_mem_nil _
  | @cons a b c t rest statement behind hfirst htakes _ ih =>
      obtain ⟨steps, rfl⟩ := Nat.exists_eq_add_one_of_ne_zero (Nat.ne_zero_of_lt hsteps)
      have htokens := Statement.tokens_first stop t rest
      have hlength := Statement.length_first_le stop none t rest
      rw [hfirst] at htokens hlength
      simp only [Statement.group, hfirst, List.forall_mem_cons]
      refine ⟨htakes.hidesColon_eq fun u hu ↦ hformed u ?_, ih (fun u hu ↦ hformed u ?_) ?_⟩
      · exact htokens ▸ List.mem_append_left _ hu
      · exact htokens ▸ List.mem_append_right _ hu
      · exact Nat.lt_of_le_of_lt hlength (Nat.lt_of_succ_lt_succ hsteps)

/-! ## Both modes on a source -/

variable {source : Source}

/-- Strict assembly goes the way of a tolerant one that makes no repair, where no statement hides
a colon. -/
theorem assemble_strict_of_shown (h : assemble source .tolerant = .ok b)
    (hnone : b.recoveries = [])
    (hshown : ∀ s ∈ Statement.ofRun source.size (Token.run source.text .heal),
      s.hidesColon = false) : assemble source .strict = .ok b.quiet := by
  obtain ⟨a, hfold, hfinish⟩ := bind_eq_ok.mp h
  have hfailure := failure_eq_none_of_finish hfinish hnone
  have hrun : Token.run source.text .fail = Token.run source.text .heal :=
    (Token.run_heal_of_failure_none hfailure).symm
  have hanone : a.recoveries = [] :=
    List.prefix_nil.mp (hnone ▸ (steps_finish hfinish).repairs_kept)
  have hstrict : (Statement.ofRun source.size (Token.run source.text .heal)).foldlM Assembly.add
      (start source .strict) = .ok a.quiet := quiet_foldlM_add rfl hfold hanone hshown
  have hbenign : b.IsBenign := by
    unfold IsBenign
    rw [hnone]
    exact List.forall_mem_nil _
  obtain ⟨hopen, hquiet⟩ := quiet_finish hfinish hbenign
  unfold assemble Mode.openPolicy
  dsimp only
  rw [hrun, hstrict, hquiet]
  refine finish_of_unhealed (a := a.quiet) hopen fun t ht ↦ ?_
  rw [← hrun] at ht
  exact Token.healed_of_mem_run hfailure ht

/-- No statement of a text that strict assembly takes hides a colon. -/
theorem hidesColon_of_assemble_strict (h : assemble source .strict = .ok a) :
    ∀ s ∈ Statement.ofRun source.size (Token.run source.text .heal), s.hidesColon = false := by
  obtain ⟨b, hfailure, hruns, -, -⟩ := assemble_strict_eq_ok h
  rw [Token.run_heal_of_failure_none hfailure]
  unfold Statement.ofRun
  rw [hfailure]
  exact hruns.hidesColon_eq (fun t ht ↦ Token.isFormed_of_mem_run hfailure ht)
    (Nat.lt_succ_self _)

end Assembly

/-- Tolerant reading makes a document of every source. If it makes no repair, strict reading
refuses the source exactly if one of its statements hides a colon. -/
theorem isRecovered_of_rejected (source : Source) :
    ∃ doc, parse source .tolerant = .ok doc ∧
      (doc.isRecovered = false →
        ((∃ e, parse source .strict = .error e) ↔
          (Statement.ofRun source.size (Token.run source.text .heal)).any Statement.hidesColon =
            true)) := by
  obtain ⟨doc, hdoc, -⟩ := exists_parse_tolerant source
  refine ⟨doc, hdoc, fun hrecovered ↦ ?_⟩
  obtain ⟨final, hfinal, rfl⟩ := parse_eq_ok.mp hdoc
  have hnone : final.recoveries = [] := by
    rw [← final.recoveries_document]
    simpa [Document.isRecovered] using hrecovered
  constructor
  · rintro ⟨e, he⟩
    by_contra hhides
    simp only [List.any_eq_true, not_exists, not_and, Bool.not_eq_true] at hhides
    have hstrict := Assembly.assemble_strict_of_shown hfinal hnone hhides
    rw [parse_eq_ok.mpr ⟨_, hstrict, rfl⟩] at he
    cases he
  · intro hhides
    obtain ⟨s, hs, hhides⟩ := List.any_eq_true.mp hhides
    cases hstrict : parse source .strict with
    | error e => exact ⟨e, rfl⟩
    | ok strict =>
        obtain ⟨a, ha, -⟩ := parse_eq_ok.mp hstrict
        rw [Assembly.hidesColon_of_assemble_strict ha s hs] at hhides
        cases hhides

/-- Strict reading refuses a value with a colon and no word before it, which tolerant reading
leaves as it is. -/
theorem rejected_of_hidden_colon :
    ∃ doc, parse ⟨"a: b:c".toList, none⟩ .tolerant = .ok doc ∧ doc.isRecovered = false ∧
      ∃ e, parse ⟨"a: b:c".toList, none⟩ .strict = .error e := by
  obtain ⟨doc, hdoc, hrecovered⟩ :
      ∃ doc, parse ⟨"a: b:c".toList, none⟩ .tolerant = .ok doc ∧ doc.isRecovered = false :=
    ⟨_, rfl, rfl⟩
  obtain ⟨same, hsame, h⟩ := isRecovered_of_rejected ⟨"a: b:c".toList, none⟩
  cases hdoc.symm.trans hsame
  exact ⟨doc, hdoc, hrecovered, (h hrecovered).mpr rfl⟩

/-- Not every text that strict reading refuses is repaired. -/
theorem not_recovered_of_rejected :
    ¬∀ source doc e, parse source .strict = .error e → parse source .tolerant = .ok doc →
      doc.isRecovered = true := by
  intro h
  have hrecovered := h ⟨"a: b:c".toList, none⟩ _ _ rfl rfl
  cases hrecovered

end Stylesheet
