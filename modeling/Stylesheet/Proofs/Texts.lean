import Stylesheet.Proofs.Determined
import Stylesheet.Proofs.Declared
import Stylesheet.Proofs.Idempotence
import Stylesheet.Proofs.Notes
import Stylesheet.Proofs.Walking

/-!
# The texts that are tidied

The selector of a rule, the parameters of an at-rule and the value of a declaration are tidied
from a run of tokens each. `Statement.runs` lists the runs of a statement. There may be none, and
in tolerant reading there may be several, as semicolons that are missed cut a declaration in more
than one. `Assembly.Tidies` says what a step of assembly adds to the texts that have been tidied,
and `tidied_of_parse` that the nodes of a document have the texts that the runs of its source are
tidied to, in either mode and in the same order.
-/

namespace Stylesheet

/-! ## Runs -/

/-- A run of tokens that a text is tidied from. `custom` says that the text is the value of a
custom property. -/
structure TidyRun where
  custom : Bool
  tokens : List Token
  deriving Repr, DecidableEq

/-- `run.value` is what a run is tidied to. -/
def TidyRun.value (run : TidyRun) : Value := Value.ofTokens run.custom run.tokens

/-- `p.keptTokens kept` are the tokens that the value of a declaration is tidied from, where
`kept` is what a missed semicolon leaves of them. -/
def Parts.keptTokens (p : Parts) (kept : List Token) : List Token :=
  let marked := takeImportant kept
  (if marked.tokens.all Token.isTrivia then p.gap else []) ++ marked.tokens

namespace Statement

/-- `valueRuns mode cuts tokens custom` are the runs of the values of the declarations that a run
of tokens holds, where `cuts` bounds their number. -/
def valueRuns (mode : Mode) : Nat → List Token → Bool → List TidyRun
  | 0, _, _ => []
  | cuts + 1, tokens, custom =>
      if mode = .tolerant ∧ Assembly.isDeclaration tokens = false then []
      else
        match Parts.ofTokens? (bodyOf tokens) with
        | none => []
        | some parts =>
            match Assembly.cutValue mode parts.value with
            | none => [⟨custom, parts.keptTokens parts.value⟩]
            | some missed =>
                ⟨custom, parts.keptTokens missed.kept⟩ :: valueRuns mode cuts missed.next false

/-- `s.runs mode` are the runs that texts are tidied from if a statement is read in this mode. -/
def runs (mode : Mode) : Statement → List TidyRun
  | atRule _ params _ => [⟨false, Assembly.atRuleCore params⟩]
  | rule head _ => [⟨false, (Token.splitTrailing Token.isTrivia head).1⟩]
  | declaration tokens custom .. => valueRuns mode tokens.length tokens custom
  | _ => []

end Statement

/-- `source.runs mode` are the runs that texts are tidied from if a source is read in this
mode. -/
def Source.runs (source : Source) (mode : Mode) : List TidyRun :=
  (Statement.ofRun source.size (Token.run source.text mode.openPolicy)).flatMap
    (Statement.runs mode)

/-! ## Nodes -/

/-- `n.tidied?` is the text of a node that is tidied, with the written form that the node has for
it. -/
def Node.tidied? (n : Node) : Option Value :=
  n.cacheOf.map fun (raw, text) ↦ ⟨text, n.raws.cache raw⟩

/-- `f.texts` are the tidied texts in a forest, in document order. -/
def Forest.texts (f : Forest Node) : List Value :=
  f.toList.filterMap Node.tidied?

theorem Forest.texts_append (f g : Forest Node) : (f ++ g).texts = f.texts ++ g.texts := by
  rw [texts, toList_append, List.filterMap_append]
  rfl

theorem Forest.texts_cons (n : Node) (below rest : Forest Node) :
    (cons n below rest).texts = n.tidied?.toList ++ below.texts ++ rest.texts := by
  rw [texts, toList, List.filterMap_cons]
  cases n.tidied? <;> simp [texts]

namespace Frame

variable (f : Frame)

/-- `f.texts` are the tidied texts of a container and in it. -/
def texts : List Value := f.node.tidied?.toList ++ (Forest.ofRev f.earlier).texts

theorem texts_adopt (tree : Node × Forest Node) :
    (f.adopt tree).texts = f.texts ++ (tree.1.tidied?.toList ++ tree.2.texts) := by
  rw [texts, adopt, Forest.ofRev_cons, Forest.texts_append, Forest.texts_cons,
    ← List.append_assoc]
  exact congrArg (_ ++ ·) (List.append_nil _)

theorem texts_settle (semicolon : Bool) (spaces : Text) :
    (f.settle semicolon spaces).texts = f.texts := by
  unfold settle
  split <;> rfl

end Frame

namespace Assembly

variable {a b c : Assembly} {values more : List Value}

/-- `a.texts` are the tidied texts that have been read, in document order. -/
def texts (a : Assembly) : List Value :=
  a.enclosing.reverse.flatMap Frame.texts ++ a.current.texts

/-- `a.Tidies values b` says that assembly goes from `a` to `b` with `values` as the texts that it
tidies. -/
structure Tidies (a : Assembly) (values : List Value) (b : Assembly) : Prop where
  mode : b.mode = a.mode
  texts : b.texts = a.texts ++ values

namespace Tidies

theorem of_texts (hmode : b.mode = a.mode) (htexts : b.texts = a.texts) : a.Tidies [] b :=
  ⟨hmode, htexts.trans (List.append_nil _).symm⟩

theorem refl (a : Assembly) : a.Tidies [] a := of_texts rfl rfl

theorem trans (hab : a.Tidies values b) (hbc : b.Tidies more c) : a.Tidies (values ++ more) c :=
  ⟨hbc.mode.trans hab.mode, by rw [hbc.texts, hab.texts, List.append_assoc]⟩

end Tidies

theorem texts_of_quiet (h : b.quiet = a.quiet) : b.texts = a.texts := by
  change b.quiet.texts = a.quiet.texts
  rw [h]

theorem tidies_addLeaf (a : Assembly) (n : Node) (ended : Bool) :
    a.Tidies n.tidied?.toList (a.addLeaf n ended) := by
  refine ⟨rfl, ?_⟩
  rw [texts, addLeaf, Frame.texts_adopt, ← List.append_assoc]
  exact congrArg (_ ++ ·) (List.append_nil _)

theorem tidies_openFrame (a : Assembly) (n : Node) :
    a.Tidies n.tidied?.toList (a.openFrame n) := by
  refine ⟨rfl, ?_⟩
  rw [texts, openFrame, List.reverse_cons, List.flatMap_append, List.flatMap_singleton]
  exact congrArg (_ ++ ·) (List.append_nil _)

/-- A semicolon that a rule takes is not one of its texts. -/
theorem texts_freeSemicolon (a : Assembly) (t : Token) : (a.freeSemicolon t).texts = a.texts := by
  obtain hwait | ⟨tree, earlier, hearlier, -, -, htaken⟩ := a.freeSemicolon_cases t
  · rw [hwait]
    rfl
  · rw [htaken, texts, texts, Frame.texts_adopt, Frame.eq_adopt hearlier, Frame.texts_adopt]
    rfl

/-- A container that is closed has the same texts as one of the trees in the container around
it. -/
theorem texts_close (closed : Frame) {outer : Frame} {enclosing : List Frame}
    (hopen : a.enclosing = outer :: enclosing) (hclosed : closed.texts = a.current.texts) :
    ({ b with current := outer.adopt closed.tree, enclosing } : Assembly).texts = a.texts := by
  rw [texts, texts, Frame.texts_adopt, hopen, List.reverse_cons, List.flatMap_append,
    List.flatMap_singleton, List.append_assoc, ← hclosed]
  rfl

theorem texts_closeBlock {t : Token} (h : a.closeBlock t = .ok b) : b.texts = a.texts := by
  have hsettled := a.current.texts_settle a.semicolon a.spaces
  unfold closeBlock at h
  cases hopen : a.enclosing with
  | cons outer enclosing =>
      simp only [hopen] at h
      cases h
      exact texts_close _ (b := { a with semicolon := false, spaces := [] }) hopen hsettled
  | nil =>
      simp only [hopen] at h
      obtain ⟨c, hc, h⟩ := bind_eq_ok.mp h
      obtain ⟨recovery, rfl⟩ := report_eq_ok hc
      cases h
      rw [texts, texts, hopen, ← hsettled]
      rfl

theorem tidies_stray {tokens : List Token} (h : a.stray tokens = .ok b) : a.Tidies [] b :=
  .of_texts (steps_stray h).mode_eq
    (texts_of_quiet (a := a.wait (Token.spelling tokens)) (quiet_stray h))

/-! ## Statements -/

/-- The declarations that a run of tokens holds tidy its runs. -/
theorem tidies_declare {cuts : Nat} {tokens : List Token} {custom : Bool} {terminator : Nat}
    (h : declare cuts a tokens custom terminator = .ok b) :
    a.Tidies ((Statement.valueRuns a.mode cuts tokens custom).map TidyRun.value) b := by
  induction cuts generalizing a b tokens custom with
  | zero =>
      cases h
      exact .refl a
  | succ cuts ih =>
      by_cases hguard : a.mode = .tolerant ∧ isDeclaration tokens = false
      · rw [Statement.valueRuns, if_pos hguard]
        unfold declare at h
        rw [if_pos hguard] at h
        exact tidies_stray h
      rw [Statement.valueRuns, if_neg hguard]
      cases hparts : Parts.ofTokens? (Statement.bodyOf tokens) with
      | none =>
          rw [declare_of_parts_none hguard hparts] at h
          exact tidies_stray h
      | some parts =>
          rw [declare_eq_report hguard hparts] at h
          obtain ⟨c, hwords, h⟩ := bind_eq_ok.mp h
          obtain ⟨d, hmissed, h⟩ := bind_eq_ok.mp h
          obtain ⟨e, hrest, h⟩ := bind_eq_ok.mp h
          obtain ⟨f, hcolons, hvalue⟩ := bind_eq_ok.mp h
          obtain ⟨words, rfl⟩ := (isReport_reportWords _ _).eq_note hwords
          obtain ⟨repairs, rfl⟩ := (isReport_reportMissed _ _).eq_note hmissed
          have hchecked : e.Tidies [] b :=
            .of_texts ((steps_checkColons hcolons).trans (steps_checkValue hvalue)).mode_eq
              (texts_of_quiet ((quiet_checkValue hvalue).trans (quiet_checkColons hcolons)))
          dsimp only
          cases hcut : cutValue a.mode parts.value with
          | none =>
              rw [hcut] at hrest
              cases hrest
              have hleaf := a.tidies_addLeaf
                (a.declarationNode custom tokens parts (takeImportant parts.value))
                (Statement.isEnded tokens)
              exact hleaf.trans ⟨hchecked.mode, hchecked.texts⟩
          | some missed =>
              rw [hcut] at hrest
              obtain ⟨g, hg, hrest⟩ := bind_eq_ok.mp hrest
              cases hrest
              have hnode : (a.cutNode custom tokens parts missed).tidied? =
                  some (TidyRun.value ⟨custom, parts.keptTokens missed.kept⟩) := by
                unfold cutNode
                dsimp only
                split <;> rfl
              have hfirst := a.tidies_addLeaf (a.cutNode custom tokens parts missed)
                (Statement.isEnded tokens)
              rw [hnode] at hfirst
              have hnext := (ih hg).trans ⟨hchecked.mode, hchecked.texts⟩
              rw [List.append_nil] at hnext
              exact hfirst.trans ⟨hnext.mode, hnext.texts⟩

theorem tidies_atRule {word : Token} {params : List Token} {ending : AtRuleEnd}
    (h : a.atRule word params ending = .ok b) :
    a.Tidies [TidyRun.value ⟨false, atRuleCore params⟩] b := by
  obtain ⟨c, hquiet, hmode, h⟩ := quiet_atRule h
  have hstart : a.Tidies [] c := .of_texts hmode (texts_of_quiet hquiet)
  have hleaf (stop : Nat) (between : Text) (ended : Bool) :=
    c.tidies_addLeaf (c.stopNode stop (c.atRuleNode word params between)) ended
  suffices hbody : c.Tidies [TidyRun.value ⟨false, atRuleCore params⟩] b from hstart.trans hbody
  cases ending with
  | semicolon t =>
      cases h
      exact hleaf _ _ true
  | block t =>
      cases h
      exact c.tidies_openFrame (c.atRuleWhole word params).openBlock
  | close t =>
      exact (hleaf _ _ false).trans (.of_texts (steps_closeBlock h).mode_eq (texts_closeBlock h))
  | input =>
      unfold atRuleBody at h
      dsimp only at h
      split at h
      · cases h
        exact hleaf _ _ false
      · cases h
        have := hleaf (Token.stopOr (atRuleCore params) word.span.stop) [] false
        exact ⟨this.mode, this.texts⟩
  | failure e => cases h

/-- A statement tidies its runs. -/
theorem tidies_add {statement : Statement} (h : a.add statement = .ok b) :
    a.Tidies ((statement.runs a.mode).map TidyRun.value) b := by
  cases statement with
  | space t =>
      cases h
      exact .of_texts rfl rfl
  | semicolon t =>
      cases h
      exact .of_texts (a.steps_freeSemicolon t).mode_eq (a.texts_freeSemicolon t)
  | close t => exact .of_texts (steps_closeBlock h).mode_eq (texts_closeBlock h)
  | comment t =>
      cases h
      obtain ⟨text, hkind⟩ := commentKind_fst t.text t.healed
      have hnode : (a.commentNode t).tidied? = none := by
        have hkind : (a.commentNode t).kind = .comment text := hkind
        rw [Node.tidied?, Node.cacheOf, hkind]
        rfl
      have hleaf := a.tidies_addLeaf (a.commentNode t) a.semicolon
      rwa [hnode] at hleaf
  | atRule word params ending => exact tidies_atRule h
  | rule head brace =>
      cases h
      exact a.tidies_openFrame (a.ruleNode head brace)
  | declaration tokens custom terminator opened =>
      obtain ⟨c, hc, h⟩ := bind_eq_ok.mp h
      have hmode := (steps_reportOpened hc).mode_eq
      have hdeclare := tidies_declare h
      rw [hmode] at hdeclare
      exact Tidies.trans (.of_texts hmode (texts_of_quiet (quiet_reportOpened hc))) hdeclare
  | stray tokens opened =>
      obtain ⟨c, hc, h⟩ := bind_eq_ok.mp h
      have hreported : a.Tidies [] c :=
        .of_texts (steps_reportOpened hc).mode_eq (texts_of_quiet (quiet_reportOpened hc))
      exact hreported.trans (tidies_stray h)
  | failure e => cases h

theorem tidies_foldlM_add {statements : List Statement}
    (h : statements.foldlM Assembly.add a = .ok b) :
    a.Tidies ((statements.flatMap (Statement.runs a.mode)).map TidyRun.value) b := by
  induction statements generalizing a with
  | nil =>
      cases h
      exact .refl _
  | cons statement statements ih =>
      rw [List.foldlM_cons] at h
      obtain ⟨c, hc, h⟩ := bind_eq_ok.mp h
      have hfirst := tidies_add hc
      have hrest := ih h
      rw [hfirst.mode] at hrest
      rw [List.flatMap_cons, List.map_append]
      exact hfirst.trans hrest

/-! ## Documents -/

/-- Closing what is still open leaves one container, with all the texts. -/
theorem texts_closeOpen {enclosing : List Frame} (hopen : a.enclosing = enclosing)
    (h : a.closeOpen enclosing = .ok b) : b.current.texts = a.texts := by
  induction enclosing generalizing a with
  | nil =>
      cases h
      rw [texts, hopen]
      rfl
  | cons outer enclosing ih =>
      have hclosed : ({ a with
          current := (outer.adopt (a.current.mapNode (a.stopNode a.source.size)).tree).addAfter []
          enclosing } : Assembly).texts = a.texts :=
        texts_close (a.current.mapNode (a.stopNode a.source.size)) (b := a) hopen rfl
      cases enclosing with
      | nil => exact (ih rfl h).trans hclosed
      | cons next enclosing =>
          obtain ⟨c, hc, h⟩ := bind_eq_ok.mp h
          obtain ⟨recovery, rfl⟩ := report_eq_ok hc
          exact (ih rfl h).trans hclosed

/-- Assembly tidies the runs of the source. -/
theorem texts_of_assemble {source : Source} {mode : Mode} (h : assemble source mode = .ok a) :
    (Forest.ofRev a.current.earlier).texts = (source.runs mode).map TidyRun.value := by
  have hkind := (isDone_of_assemble h).1
  unfold assemble at h
  obtain ⟨b, hb, hfinish⟩ := bind_eq_ok.mp h
  obtain ⟨c, d, hquiet, hd, ha, -⟩ := finish_quiet hfinish
  have hadded := (tidies_foldlM_add hb).texts
  have hclosed : d.current.texts = c.texts := by
    rw [texts_closeOpen rfl hd, texts, Frame.texts_settle]
    rfl
  have hcurrent : a.current = d.current.mapNode (Node.stopAt (d.source.position d.source.size)) :=
    congrArg (·.current) ha
  have hroot : a.current.node.tidied? = none := by
    rw [Node.tidied?, Node.cacheOf, hkind]
    rfl
  have hall : a.current.texts = c.texts := by
    rw [hcurrent, ← hclosed]
    rfl
  rw [Frame.texts, hroot, texts_of_quiet hquiet, hadded] at hall
  exact hall

end Assembly

/-- In either mode, the nodes of a document that was read have the texts that the runs of its
source are tidied to, one after the other. -/
theorem tidied_of_parse {source : Source} {mode : Mode} {doc : Document}
    (h : parse source mode = .ok doc) :
    (doc.walk Document.root).filterMap (fun id ↦ (doc.node id).tidied?) =
      (source.runs mode).map TidyRun.value := by
  obtain ⟨a, hassemble, rfl⟩ := parse_eq_ok.mp h
  obtain ⟨hunfolds, hsize, -, hnodes⟩ := (Assembly.isMade_of_assemble hassemble).unfolds_document
  rw [Forest.map_map, Forest.map_map (f := Forest.ofRev a.current.earlier)] at hnodes
  -- Neither links nor damage are part of a tidied text.
  have hlist := congrArg (fun f ↦ f.toList.filterMap Node.tidied?) hnodes
  simp only [Forest.toList_map, List.filterMap_map] at hlist
  rw [Document.walk_of_unfolds hunfolds (by simp [hsize]), ← Assembly.texts_of_assemble hassemble]
  exact hlist

/-! ## The tokens of runs -/

/-- A token that is not healed is one that a lexer reads without healing anything. -/
theorem Lexer.isScanned_of_scanNext {l after : Lexer} {token : Token}
    (hclassifier : l.classifier = .stock) (h : l.scanNext = (.ok (some token), after))
    (hhealed : token.healed = false) : token.IsScanned :=
  ⟨{ l with policy := .fail }, { after with policy := .fail }, rfl, hclassifier,
    scanNext_failing h hhealed⟩

/-- All tokens that are read are scanned without healing, but for the last one. -/
theorem Lexer.Reads.pairwise_isScanned {l after : Lexer} {tokens : List Token}
    (h : l.Reads tokens after) (hclassifier : l.classifier = .stock) :
    tokens.Pairwise fun t _ ↦ t.IsScanned := by
  induction h with
  | nil => exact .nil
  | cons l next after token tokens hscan hreads ih =>
      refine .cons
        (fun u hu ↦ isScanned_of_scanNext hclassifier hscan
          (eq_false_of_ne_true fun hhealed ↦ ?_))
        (ih ((scanNext_frame hscan).1.trans hclassifier))
      -- Nothing is left behind a token that is healed.
      have hrest := rest_of_healed hscan hhealed
      cases hreads with
      | nil => cases hu
      | cons _ _ _ _ _ hmore _ =>
          have hmore := scanNext_rest hmore
          rw [hrest] at hmore
          exact absurd (List.append_eq_nil_iff.mp hmore.1.symm).1 hmore.2

theorem Parts.keptTokens_sublist {p : Parts} {kept : List Token} (h : kept <+: p.value) :
    (p.keptTokens kept).Sublist p.tokens := by
  have hgap :
      (if (takeImportant kept).tokens.all Token.isTrivia then p.gap else []).Sublist p.gap := by
    split
    · exact .refl _
    · exact List.nil_sublist _
  rw [tokens, List.append_assoc]
  exact (hgap.append ((prefix_takeImportant kept).trans h).sublist).trans
    (List.sublist_append_right _ _)

namespace Statement

theorem valueRuns_sublist {mode : Mode} {cuts : Nat} {tokens : List Token} {custom : Bool} :
    ∀ run ∈ valueRuns mode cuts tokens custom, run.tokens.Sublist tokens := by
  induction cuts generalizing tokens custom with
  | zero => exact List.forall_mem_nil _
  | succ cuts ih =>
      rw [valueRuns]
      split
      · exact List.forall_mem_nil _
      cases hparts : Parts.ofTokens? (bodyOf tokens) with
      | none => exact List.forall_mem_nil _
      | some parts =>
          obtain ⟨ending, -, hbody⟩ := bodyOf_append tokens
          have hall : parts.tokens.Sublist tokens := by
            have hprefix := List.sublist_append_left (bodyOf tokens) ending
            rwa [hbody, ← Parts.tokens_ofTokens? hparts] at hprefix
          dsimp only
          cases hcut : Assembly.cutValue mode parts.value with
          | none =>
              exact List.forall_mem_singleton.mpr
                ((Parts.keptTokens_sublist (List.prefix_refl _)).trans hall)
          | some missed =>
              obtain ⟨hvalue, -⟩ :=
                Missed.append_of_ofValue? (Assembly.ofValue?_of_cutValue hcut).2
              have hkept : missed.kept <+: parts.value := by
                rw [← hvalue, List.append_assoc]
                exact List.prefix_append _ _
              have hnext : missed.next.Sublist parts.tokens := by
                rw [Parts.tokens, ← hvalue]
                exact (List.sublist_append_right _ _).trans (List.sublist_append_right _ _)
              exact List.forall_mem_cons.mpr ⟨(Parts.keptTokens_sublist hkept).trans hall,
                fun run hrun ↦ (ih run hrun).trans (hnext.trans hall)⟩

/-- The runs of a statement are parts of it. -/
theorem runs_sublist {mode : Mode} {s : Statement} :
    ∀ run ∈ s.runs mode, run.tokens.Sublist s.tokens := by
  have htrailing (tokens : List Token) :
      (Token.splitTrailing Token.isTrivia tokens).1.Sublist tokens := by
    conv => rhs; rw [← Token.splitTrailing_append Token.isTrivia tokens]
    exact List.sublist_append_left _ _
  cases s with
  | atRule word params ending =>
      refine List.forall_mem_singleton.mpr ?_
      have hcore : (Assembly.atRuleCore params).Sublist params :=
        (List.dropWhile_sublist _).trans (htrailing params)
      exact (hcore.cons word).trans (List.sublist_append_left _ _)
  | rule head brace =>
      exact List.forall_mem_singleton.mpr ((htrailing head).trans (List.sublist_append_left _ _))
  | declaration tokens custom terminator opened => exact valueRuns_sublist
  | _ => exact List.forall_mem_nil _

end Statement

/-- Nothing is left to read in a source that is taken. -/
theorem failure_of_parse {source : Source} {mode : Mode} {doc : Document}
    (h : parse source mode = .ok doc) :
    (Token.run source.text mode.openPolicy).failure = none := by
  cases mode with
  | strict =>
      obtain ⟨a, hfailure, -⟩ := parse_strict_eq_ok.mp h
      exact hfailure
  | tolerant => exact Lexer.failure_run_heal source.text .stock

/-- In a run of a source that is taken, all tokens are scanned without healing, but for the last
one. -/
theorem pairwise_isScanned_of_parse {source : Source} {mode : Mode} {doc : Document}
    (h : parse source mode = .ok doc) {run : TidyRun} (hrun : run ∈ source.runs mode) :
    run.tokens.Pairwise fun t _ ↦ t.IsScanned := by
  have hfailure := failure_of_parse h
  obtain ⟨hreads, -⟩ := Lexer.reads_of_runFor (Token.run source.text mode.openPolicy)
    (Lexer.isPlain_ofText source.text mode.openPolicy .stock) (Nat.le_add_left _ _) rfl hfailure
  obtain ⟨statement, hstatement, hrun⟩ := List.mem_flatMap.mp hrun
  rw [Statement.ofRun, hfailure] at hstatement
  have hall :
      (Statement.group source.size none
        ((Token.run source.text mode.openPolicy).tokens.length + 1)
      (Token.run source.text mode.openPolicy).tokens).flatMap Statement.tokens =
        (Token.run source.text mode.openPolicy).tokens :=
    Statement.flatMap_tokens_group (Nat.lt_succ_self _)
  have hsublist : statement.tokens.Sublist (Token.run source.text mode.openPolicy).tokens := by
    rw [← hall, List.flatMap]
    exact List.sublist_flatten_of_mem (List.mem_map_of_mem hstatement)
  exact (hreads.pairwise_isScanned rfl).sublist ((Statement.runs_sublist run hrun).trans hsublist)

end Stylesheet
