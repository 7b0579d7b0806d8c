import Stylesheet.Parse
import Stylesheet.Proofs.Grouping

/-!
# What strict assembly does

Strict assembly stops at the first defect. What it does with a statement that it takes is
therefore a function of the statement, without repairs: `Assembly.Takes` lists it, `takes_of_add`
says that there is nothing else, and `Takes.add` says that each of these statements is taken.
-/

namespace Stylesheet

/-- `bodyOf tokens` are the tokens of a declaration without the semicolon that ends it. -/
def Statement.bodyOf (tokens : List Token) : List Token :=
  if tokens.getLast?.any (·.is .semicolon) then tokens.dropLast else tokens

/-- A container whose latest tree is taken out has got it back when it adopts that tree. -/
theorem Frame.eq_adopt {f : Frame} {tree : Node × Forest Node}
    {earlier : List (Node × Forest Node)} (h : f.earlier = tree :: earlier) :
    f = { f with earlier }.adopt tree := by
  rw [adopt, ← h]

namespace Assembly

/-- `a.closed t outer enclosing` has ended the innermost container at a closing brace. It is a
child of the container `outer`. -/
def closed (a : Assembly) (t : Token) (outer : Frame) (enclosing : List Frame) : Assembly :=
  let settled := (a.current.settle a.semicolon a.spaces).mapNode (a.stopNode t.span.stop)
  { a with semicolon := false, spaces := [], current := outer.adopt settled.tree, enclosing }

/-- `atRuleCore params` are the parameters of an at-rule without the white space and the comments
around them. -/
def atRuleCore (params : List Token) : List Token :=
  (Token.splitLeading Token.isTrivia (Token.splitTrailing Token.isTrivia params).1).2

/-- `a.atRuleNode word params between` is an at-rule with these parameters, which has `between`
behind them. -/
def atRuleNode (a : Assembly) (word : Token) (params : List Token) (between : Text) : Node :=
  let lead := (Token.splitLeading Token.isTrivia (Token.splitTrailing Token.isTrivia params).1).1
  let value := Value.ofTokens false (atRuleCore params)
  let node := a.newNode (.atRule (word.text.drop 1) value.text) word.span.start
  { node with raws := { node.raws with
      between := some between
      afterName := some (Token.spelling lead)
      params := value.raw } }

/-- `a.atRuleWhole word params` is an at-rule that has all that is behind its parameters. -/
def atRuleWhole (a : Assembly) (word : Token) (params : List Token) : Node :=
  a.atRuleNode word params (Token.spelling (Token.splitTrailing Token.isTrivia params).2)

/-- `atRuleStop word params` is where an at-rule ends that a closing brace ends. -/
def atRuleStop (word : Token) (params : List Token) : Nat :=
  Token.stopOr (Token.splitTrailing (·.is .space) params).1 word.span.stop

/-- `a.Takes statement a'` says that strict assembly takes a statement, and that it is `a'` behind
it. -/
inductive Takes (a : Assembly) : Statement → Assembly → Prop where
  | space (t) : Takes a (.space t) (a.wait t.text)
  | semicolon (t) : Takes a (.semicolon t) (a.freeSemicolon t)
  | comment (t) : Takes a (.comment t) (a.comment t)
  | rule (head brace) : Takes a (.rule head brace) (a.rule head brace)
  | close (t) {outer enclosing} (h : a.enclosing = outer :: enclosing) :
      Takes a (.close t) (a.closed t outer enclosing)
  | atEnded {word : Token} (params t) (hname : word.text.drop 1 ≠ []) :
      Takes a (.atRule word params (.semicolon t))
        (a.addLeaf (a.stopNode t.span.stop (a.atRuleWhole word params)) true)
  | atBlock {word : Token} (params t) (hname : word.text.drop 1 ≠ []) :
      Takes a (.atRule word params (.block t)) (a.openFrame (a.atRuleWhole word params).openBlock)
  | atClose {word : Token} (params t) {outer enclosing} (hname : word.text.drop 1 ≠ [])
      (h : a.enclosing = outer :: enclosing) :
      Takes a (.atRule word params (.close t))
        ((a.addLeaf (a.stopNode (atRuleStop word params) (a.atRuleWhole word params))
          false).closed t outer enclosing)
  | atInput {word : Token} {params : List Token} (hname : word.text.drop 1 ≠ [])
      (hcore : (atRuleCore params).isEmpty = true) :
      Takes a (.atRule word params .input)
        (a.addLeaf (a.stopNode (Token.stopOr (atRuleCore params) word.span.stop)
          (a.atRuleWhole word params)) false)
  | atInputParams {word : Token} {params : List Token} (hname : word.text.drop 1 ≠ [])
      (hcore : (atRuleCore params).isEmpty = false) :
      Takes a (.atRule word params .input)
        ((a.addLeaf (a.stopNode (Token.stopOr (atRuleCore params) word.span.stop)
          (a.atRuleNode word params [])) false).wait
            (Token.spelling (Token.splitTrailing Token.isTrivia params).2))
  | declaration {tokens : List Token} {custom} (terminator) {parts : Parts} {node : Node}
      {value : Text} (hparts : Parts.ofTokens? (Statement.bodyOf tokens) = some parts)
      (hwords : parts.unknownWords = [])
      (hnode : a.declarationNode custom tokens parts (takeImportant parts.value) = node)
      (hvalue : node.kind.value? = some value) (hsome : custom = false → value ≠ [])
      (hcolons : custom = false → ':' ∈ value →
        leadingColon (takeImportant parts.value).tokens = none ∧
          secondColon (takeImportant parts.value).tokens = none) :
      Takes a (.declaration tokens custom terminator none)
        (a.addLeaf node (tokens.getLast?.any (·.is .semicolon)))

variable {a a' : Assembly}

/-- Strict assembly stops where something is wrong. -/
theorem report_ne_ok (hmode : a.mode = .strict) (defect : Defect) (span : Span)
    (node : Option NodeId) : a.report defect span node ≠ .ok a' := by
  simp [report, hmode]

theorem stray_eq_ok (hmode : a.mode = .strict) {tokens : List Token}
    (h : a.stray tokens = .ok a') : tokens = [] ∧ a' = a := by
  cases tokens with
  | nil =>
      cases h
      exact ⟨rfl, rfl⟩
  | cons t rest =>
      obtain ⟨_, hreport, _⟩ := bind_eq_ok.mp h
      exact absurd hreport (report_ne_ok hmode _ _ _)

theorem reportOpened_eq_ok (hmode : a.mode = .strict) {opened : Option Span}
    (h : a.reportOpened opened = .ok a') : opened = none ∧ a' = a := by
  cases opened with
  | none =>
      cases h
      exact ⟨rfl, rfl⟩
  | some span => exact absurd h (report_ne_ok hmode _ _ _)

/-- What a semicolon between statements does: it waits, or a rule before it that has none yet
takes it together with the text that waits. -/
theorem freeSemicolon_cases (a : Assembly) (t : Token) :
    a.freeSemicolon t = a.wait t.text ∨
      ∃ tree earlier, a.current.earlier = tree :: earlier ∧ tree.1.type = .rule ∧
        tree.1.raws.ownSemicolon = none ∧
        a.freeSemicolon t = { a with
          spaces := []
          current := { a.current with earlier }.adopt
            (tree.1.mapRaws fun raws ↦ { raws with ownSemicolon := some (a.spaces ++ t.text) },
              tree.2) } := by
  unfold freeSemicolon
  split
  · next tree earlier hearlier =>
      split
      · next howns =>
          simp only [ownsSemicolon, Bool.and_eq_true, beq_iff_eq,
            Option.isNone_iff_eq_none] at howns
          exact .inr ⟨tree, earlier, hearlier, howns.1, howns.2, rfl⟩
      · exact .inl rfl
  · exact .inl rfl

/-- A closing brace is taken if there is a block to close. -/
theorem closeBlock_of_enclosing {t : Token} {outer : Frame} {enclosing : List Frame}
    (h : a.enclosing = outer :: enclosing) :
    a.closeBlock t = .ok (a.closed t outer enclosing) := by
  simp only [closeBlock, h]
  rfl

theorem closeBlock_eq_ok (hmode : a.mode = .strict) {t : Token} (h : a.closeBlock t = .ok a') :
    ∃ outer enclosing, a.enclosing = outer :: enclosing ∧ a' = a.closed t outer enclosing := by
  cases henclosing : a.enclosing with
  | nil =>
      simp only [closeBlock, henclosing] at h
      obtain ⟨_, hreport, _⟩ := bind_eq_ok.mp h
      exact absurd hreport (report_ne_ok (by exact hmode) _ _ _)
  | cons outer enclosing =>
      rw [closeBlock_of_enclosing henclosing] at h
      cases h
      exact ⟨outer, enclosing, rfl, rfl⟩

/-- `a.atRuleBody word params ending` is what an at-rule adds. It depends on how the parameters
end. -/
def atRuleBody (a : Assembly) (word : Token) (params : List Token) :
    AtRuleEnd → Except ParseError Assembly
  | .semicolon t => .ok (a.addLeaf (a.stopNode t.span.stop (a.atRuleWhole word params)) true)
  | .block _ => .ok (a.openFrame (a.atRuleWhole word params).openBlock)
  | .close t =>
      (a.addLeaf (a.stopNode (atRuleStop word params) (a.atRuleWhole word params))
        false).closeBlock t
  | .input =>
      let stop := Token.stopOr (atRuleCore params) word.span.stop
      if (atRuleCore params).isEmpty then
        .ok (a.addLeaf (a.stopNode stop (a.atRuleWhole word params)) false)
      else
        .ok ((a.addLeaf (a.stopNode stop (a.atRuleNode word params [])) false).wait
          (Token.spelling (Token.splitTrailing Token.isTrivia params).2))
  | .failure e => .error (ParseError.ofTokenizeError a.source e)

/-- An at-rule without a name is reported before it is added. -/
theorem atRule_eq (word : Token) (params : List Token) (ending : AtRuleEnd) :
    a.atRule word params ending =
      (if (word.text.drop 1).isEmpty then
        a.report .unnamedAtRule word.span (some a.created) else .ok a) >>=
      (·.atRuleBody word params ending) := by
  unfold atRule
  dsimp only
  cases (word.text.drop 1).isEmpty <;> cases ending <;> rfl

theorem atRule_of_name {word : Token} (params : List Token) (ending : AtRuleEnd)
    (hname : word.text.drop 1 ≠ []) :
    a.atRule word params ending = a.atRuleBody word params ending := by
  rw [atRule_eq, if_neg (mt List.isEmpty_iff.mp hname)]
  rfl

theorem name_ne_nil_of_atRule_eq_ok (hmode : a.mode = .strict) {word : Token}
    {params : List Token} {ending : AtRuleEnd} (h : a.atRule word params ending = .ok a') :
    word.text.drop 1 ≠ [] := by
  intro hname
  rw [atRule_eq, if_pos (List.isEmpty_iff.mpr hname)] at h
  obtain ⟨_, hreport, _⟩ := bind_eq_ok.mp h
  exact report_ne_ok hmode _ _ _ hreport

/-! ## Declarations -/

theorem unknownWords_eq_nil (hmode : a.mode = .strict) {words : List Token} {id : NodeId}
    (h : words.foldlM (fun a t ↦ a.report (.unknownWord t.text) t.span (some id)) a = .ok a') :
    words = [] ∧ a' = a := by
  cases words with
  | nil =>
      cases h
      exact ⟨rfl, rfl⟩
  | cons t words =>
      rw [List.foldlM_cons] at h
      obtain ⟨_, hreport, _⟩ := bind_eq_ok.mp h
      exact absurd hreport (report_ne_ok hmode _ _ _)

theorem reportColon_eq_ok (hmode : a.mode = .strict) {value : List Token} {id : NodeId}
    (h : a.reportColon value id = .ok a') : leadingColon value = none ∧ a' = a := by
  unfold reportColon at h
  split at h
  · exact absurd h (report_ne_ok hmode _ _ _)
  · next hcolon =>
      cases h
      exact ⟨hcolon, rfl⟩

theorem checkColons_eq_ok (hmode : a.mode = .strict) {custom : Bool} {value : Text}
    {tokens : List Token} {id : NodeId} (h : a.checkColons custom value tokens id = .ok a') :
    (custom = false → ':' ∈ value → leadingColon tokens = none ∧ secondColon tokens = none) ∧
      a' = a := by
  unfold checkColons at h
  split at h
  · cases hsecond : secondColon tokens with
    | some cut =>
        simp only [hsecond] at h
        obtain ⟨b, hcolon, hreport⟩ := bind_eq_ok.mp h
        obtain ⟨_, rfl⟩ := reportColon_eq_ok hmode hcolon
        exact absurd hreport (report_ne_ok hmode _ _ _)
    | none =>
        simp only [hsecond] at h
        obtain ⟨b, hcolon, hpure⟩ := bind_eq_ok.mp h
        obtain ⟨hleading, rfl⟩ := reportColon_eq_ok hmode hcolon
        cases hpure
        exact ⟨fun _ _ ↦ ⟨hleading, rfl⟩, rfl⟩
  · next hcond =>
      cases h
      exact ⟨fun hcustom hmem ↦ absurd ⟨hmode, hcustom, hmem⟩ hcond, rfl⟩

theorem checkValue_eq_ok (hmode : a.mode = .strict) {custom : Bool} {value : Text}
    {terminator : Nat} {id : NodeId} (h : a.checkValue custom value terminator id = .ok a') :
    (custom = false → value ≠ []) ∧ a' = a := by
  unfold checkValue at h
  split at h
  · exact absurd h (report_ne_ok hmode _ _ _)
  · next hcond =>
      cases h
      exact ⟨fun hcustom hvalue ↦ hcond ⟨hcustom, hvalue⟩, rfl⟩

/-- A run of tokens with the parts of a single declaration adds it, and what is left to be done is
to look at its value. -/
theorem declare_of_parts {cuts : Nat} {tokens : List Token} {custom : Bool} {terminator : Nat}
    {parts : Parts} (hguard : a.mode = .strict ∨ isDeclaration tokens = true)
    (hparts : Parts.ofTokens? (Statement.bodyOf tokens) = some parts)
    (hwords : parts.unknownWords = [])
    (hsplit : a.splitValue parts.value a.created = .ok (a, none)) :
    let marked := takeImportant parts.value
    let node := a.declarationNode custom tokens parts marked
    let value := node.kind.value?.getD []
    declare (cuts + 1) a tokens custom terminator =
      ((a.addLeaf node (tokens.getLast?.any (·.is .semicolon))).checkColons custom value
        marked.tokens a.created >>= (·.checkValue custom value terminator a.created)) := by
  have hguard : ¬(a.mode = .tolerant ∧ isDeclaration tokens = false) := by
    rintro ⟨hmode, hone⟩
    rcases hguard with h | h
    · rw [hmode] at h
      cases h
    · rw [hone] at h
      cases h
  unfold declare
  unfold Statement.bodyOf at hparts
  rw [if_neg hguard]
  simp only [hparts, hwords, List.foldlM_nil]
  change (a.splitValue parts.value a.created >>= _) = _
  rw [hsplit]
  rfl

theorem checkColons_eq_self {custom : Bool} {value : Text} {tokens : List Token} (id : NodeId)
    (h : custom = false → ':' ∈ value → leadingColon tokens = none ∧ secondColon tokens = none) :
    a.checkColons custom value tokens id = .ok a := by
  unfold checkColons
  split
  · next hcond =>
      obtain ⟨hleading, hsecond⟩ := h hcond.2.1 hcond.2.2
      simp only [reportColon, hleading, hsecond]
      rfl
  · rfl

theorem checkValue_eq_self {custom : Bool} {value : Text} (terminator : Nat) (id : NodeId)
    (h : custom = false → value ≠ []) : a.checkValue custom value terminator id = .ok a := by
  unfold checkValue
  split
  · next hcond => exact absurd hcond.2 (h hcond.1)
  · rfl

/-- A run of tokens that strict assembly takes as a declaration is a single one without
defects. -/
theorem declare_eq_ok (hmode : a.mode = .strict) {cuts : Nat} {tokens : List Token}
    {custom : Bool} {terminator : Nat} (hbody : Statement.bodyOf tokens ≠ [])
    (h : declare (cuts + 1) a tokens custom terminator = .ok a') :
    a.Takes (.declaration tokens custom terminator none) a' := by
  unfold declare at h
  simp only [hmode, reduceCtorEq, false_and, if_false] at h
  cases hparts : Parts.ofTokens? (Statement.bodyOf tokens) with
  | none =>
      unfold Statement.bodyOf at hparts hbody
      simp only [hparts] at h
      have hlast := (stray_eq_ok hmode h).1
      simp only [Option.toList_eq_nil_iff, List.getLast?_eq_none_iff] at hlast
      exact absurd hlast hbody
  | some parts =>
      have hsome := hparts
      unfold Statement.bodyOf at hsome
      simp only [hsome] at h
      obtain ⟨b, hfold, h⟩ := bind_eq_ok.mp h
      obtain ⟨hwords, rfl⟩ := unknownWords_eq_nil hmode hfold
      obtain ⟨⟨b, missed⟩, hsplit, h⟩ := bind_eq_ok.mp h
      simp only [splitValue, hmode, Except.ok.injEq, Prod.mk.injEq] at hsplit
      obtain ⟨rfl, rfl⟩ := hsplit
      obtain ⟨b, hb, h⟩ := bind_eq_ok.mp h
      cases hb
      obtain ⟨b, hcheck, h⟩ := bind_eq_ok.mp h
      obtain ⟨hcolons, rfl⟩ := checkColons_eq_ok (by exact hmode) hcheck
      obtain ⟨hsome, rfl⟩ := checkValue_eq_ok (by exact hmode) h
      exact .declaration terminator hparts hwords rfl rfl hsome hcolons

/-! ## Statements -/

/-- The tokens of a declaration that starts with another token than a semicolon are more than a
semicolon. -/
theorem bodyOf_cons_ne_nil {t : Token} (more : List Token) (h : t.kind ≠ .semicolon) :
    Statement.bodyOf (t :: more) ≠ [] := by
  unfold Statement.bodyOf
  split
  · next hended =>
      cases more with
      | nil => exact absurd (by simpa [Token.is] using hended) h
      | cons u more => simp
  · simp

theorem ne_nil_of_parts {tokens : List Token} {parts : Parts}
    (h : Parts.ofTokens? (Statement.bodyOf tokens) = some parts) : tokens ≠ [] := by
  rintro rfl
  cases h

/-- A declaration that strict assembly takes leaves no bracket open. -/
theorem declaration_eq_ok (hmode : a.mode = .strict) {stop : Nat} {t : Token}
    {rest behind tokens : List Token} {custom : Bool} {terminator : Nat} {opened : Option Span}
    (hcut : Statement.Cut stop t rest (.declaration tokens custom terminator opened) behind)
    (h : a.add (.declaration tokens custom terminator opened) = .ok a') :
    a.Takes (.declaration tokens custom terminator opened) a' := by
  obtain ⟨hstarts, more, rfl⟩ := hcut.declaration_cons
  obtain ⟨b, hopened, hb⟩ := bind_eq_ok.mp h
  obtain ⟨rfl, rfl⟩ := reportOpened_eq_ok hmode hopened
  exact declare_eq_ok hmode (bodyOf_cons_ne_nil more hstarts.2.1) hb

/-- Tokens without a colon are a defect, with or without a bracket that is left open. -/
theorem add_stray_ne_ok (hmode : a.mode = .strict) {tokens : List Token} {opened : Option Span}
    (hne : tokens ≠ []) : a.add (.stray tokens opened) ≠ .ok a' := by
  intro h
  obtain ⟨b, hopened, hb⟩ := bind_eq_ok.mp h
  obtain ⟨_, rfl⟩ := reportOpened_eq_ok hmode hopened
  exact hne (stray_eq_ok hmode hb).1

/-- What strict assembly does with an at-rule depends on how its parameters end. -/
theorem atRule_eq_ok (hmode : a.mode = .strict) {word : Token} {params : List Token}
    {ending : AtRuleEnd} (h : a.atRule word params ending = .ok a') :
    a.Takes (.atRule word params ending) a' := by
  have hname := name_ne_nil_of_atRule_eq_ok hmode h
  rw [atRule_of_name _ _ hname] at h
  cases ending with
  | semicolon t =>
      cases h
      exact .atEnded _ t hname
  | block t =>
      cases h
      exact .atBlock _ t hname
  | close t =>
      obtain ⟨outer, enclosing, hopen, rfl⟩ := closeBlock_eq_ok (by exact hmode) h
      exact .atClose _ t hname hopen
  | input =>
      simp only [atRuleBody] at h
      cases hcore : (atRuleCore params).isEmpty with
      | true =>
          simp only [hcore] at h
          cases h
          exact .atInput hname hcore
      | false =>
          simp only [hcore] at h
          cases h
          exact .atInputParams hname hcore
  | failure e => cases h

/-- What strict assembly does with the first statement of a run is listed. -/
theorem takes_of_add (hmode : a.mode = .strict) {stop : Nat} {t : Token}
    {rest behind : List Token} {statement : Statement}
    (hcut : Statement.Cut stop t rest statement behind) (h : a.add statement = .ok a') :
    a.Takes statement a' := by
  have hfirst := hcut
  cases hcut with
  | space =>
      cases h
      exact .space t
  | semicolon =>
      cases h
      exact .semicolon t
  | comment =>
      cases h
      exact .comment t
  | block =>
      cases h
      exact .rule [] t
  | rule =>
      cases h
      exact .rule _ _
  | close =>
      obtain ⟨outer, enclosing, hopen, rfl⟩ := closeBlock_eq_ok hmode h
      exact .close t hopen
  | atRule => exact atRule_eq_ok hmode h
  | ended | custom | plain => exact declaration_eq_ok hmode hfirst h
  | endedStray => exact absurd h (add_stray_ne_ok hmode (by simp))
  | stray hstarts hgather =>
      obtain ⟨more, rfl⟩ := hstarts.tokens_gather hgather
      exact absurd h (add_stray_ne_ok hmode (by simp))

/-- What is listed is what assembly does in any mode that leaves the value of a declaration
whole. -/
theorem Takes.add_of_whole {statement : Statement}
    (hwhole : ∀ {tokens custom terminator opened parts},
      statement = .declaration tokens custom terminator opened →
      Parts.ofTokens? (Statement.bodyOf tokens) = some parts →
      (a.mode = .strict ∨ isDeclaration tokens = true) ∧
        a.splitValue parts.value a.created = .ok (a, none))
    (h : a.Takes statement a') : a.add statement = .ok a' := by
  cases h with
  | space | semicolon | comment | rule => rfl
  | close t hopen => exact closeBlock_of_enclosing hopen
  | atEnded params t hname | atBlock params t hname =>
      simp only [Assembly.add, atRule_of_name _ _ hname, atRuleBody]
  | atClose params t hname hopen =>
      simp only [Assembly.add, atRule_of_name _ _ hname, atRuleBody]
      exact closeBlock_of_enclosing (by exact hopen)
  | atInput hname hcore =>
      simp only [Assembly.add, atRule_of_name _ _ hname, atRuleBody, hcore, if_true]
  | atInputParams hname hcore =>
      simp only [Assembly.add, atRule_of_name _ _ hname, atRuleBody, hcore]
      rfl
  | @declaration tokens custom terminator parts node value hparts hwords hnode hvalue hsome
      hcolons =>
      obtain ⟨cuts, hcuts⟩ : ∃ cuts, tokens.length = cuts + 1 :=
        Nat.exists_eq_succ_of_ne_zero fun h ↦
          ne_nil_of_parts hparts (List.length_eq_zero_iff.mp h)
      have hbind : a.add (.declaration tokens custom terminator none) =
          declare (cuts + 1) a tokens custom terminator := by
        rw [← hcuts]
        rfl
      obtain ⟨hguard, hsplit⟩ := hwhole rfl hparts
      rw [hbind]
      subst hnode
      rw [declare_of_parts hguard hparts hwords hsplit]
      simp only [hvalue, Option.getD_some]
      rw [checkColons_eq_self _ hcolons]
      exact checkValue_eq_self terminator _ hsome

/-- Strict assembly takes the statements that are listed. -/
theorem Takes.add (hmode : a.mode = .strict) {statement : Statement}
    (h : a.Takes statement a') : a.add statement = .ok a' :=
  h.add_of_whole fun _ _ ↦ ⟨.inl hmode, by simp [splitValue, hmode]⟩

/-- Nothing that is taken changes the source or the mode, or is a repair. -/
theorem Takes.frame {statement : Statement} (h : a.Takes statement a') :
    a'.source = a.source ∧ a'.mode = a.mode ∧ a'.recoveries = a.recoveries := by
  cases h with
  | semicolon t =>
      obtain hwait | ⟨_, _, -, -, -, htaken⟩ := a.freeSemicolon_cases t
      · rw [hwait]
        exact ⟨rfl, rfl, rfl⟩
      · rw [htaken]
        exact ⟨rfl, rfl, rfl⟩
  | _ => exact ⟨rfl, rfl, rfl⟩

/-! ## Whole runs -/

/-- A run that an error ends is not taken. -/
theorem foldlM_add_ne_ok {e : TokenizeError} {statements : List Statement}
    (h : .failure e ∈ statements) : statements.foldlM Assembly.add a ≠ .ok a' := by
  induction statements generalizing a with
  | nil => cases h
  | cons statement statements ih =>
      intro hfold
      rw [List.foldlM_cons] at hfold
      obtain ⟨b, hb, hfold⟩ := bind_eq_ok.mp hfold
      rcases List.mem_cons.mp h with rfl | h
      · cases hb
      · exact ih h hfold

/-- A run of tokens is taken only if no error ends it. -/
theorem failure_eq_none_of_group {stop : Nat} {failure : Option TokenizeError} {steps : Nat}
    {tokens : List Token} (hsteps : tokens.length < steps)
    (h : (Statement.group stop failure steps tokens).foldlM Assembly.add a = .ok a') :
    failure = none := by
  cases failure with
  | none => rfl
  | some e => exact absurd h (foldlM_add_ne_ok (Statement.failure_mem_group stop e hsteps))

/-- `a.TakesRun stop tokens a'` says that strict assembly takes all statements of a run of tokens,
and that it is `a'` behind them. -/
inductive TakesRun (stop : Nat) : Assembly → List Token → Assembly → Prop where
  | nil (a : Assembly) : TakesRun stop a [] a
  | cons {a b c : Assembly} {t rest statement behind}
      (hfirst : Statement.first stop none t rest = (statement, behind))
      (htakes : a.Takes statement b) (hrest : TakesRun stop b behind c) :
      TakesRun stop a (t :: rest) c

theorem takesRun_of_group (hmode : a.mode = .strict) {stop steps : Nat} {tokens : List Token}
    (hsteps : tokens.length < steps)
    (h : (Statement.group stop none steps tokens).foldlM Assembly.add a = .ok a') :
    TakesRun stop a tokens a' := by
  induction steps generalizing a tokens with
  | zero => omega
  | succ steps ih =>
      cases tokens with
      | nil =>
          cases h
          exact .nil _
      | cons t rest =>
          simp only [Statement.group, List.foldlM_cons] at h
          obtain ⟨b, hb, h⟩ := bind_eq_ok.mp h
          have htakes := takes_of_add hmode (Statement.first_cut stop t rest) hb
          have hlength := Statement.length_first_le stop none t rest
          have hbehind : (Statement.first stop none t rest).2.length < steps :=
            Nat.lt_of_le_of_lt hlength (Nat.lt_of_succ_lt_succ hsteps)
          exact .cons rfl htakes (ih (htakes.frame.2.1.trans hmode) hbehind h)

theorem TakesRun.foldlM_add (hmode : a.mode = .strict) {stop steps : Nat} {tokens : List Token}
    (h : TakesRun stop a tokens a') (hsteps : tokens.length < steps) :
    (Statement.group stop none steps tokens).foldlM Assembly.add a = .ok a' := by
  induction h generalizing steps with
  | nil =>
      obtain ⟨steps, rfl⟩ := Nat.exists_eq_add_one_of_ne_zero (Nat.ne_zero_of_lt hsteps)
      rfl
  | @cons a b c t rest statement behind hfirst htakes _ ih =>
      obtain ⟨steps, rfl⟩ := Nat.exists_eq_add_one_of_ne_zero (Nat.ne_zero_of_lt hsteps)
      have hlength := Statement.length_first_le stop none t rest
      rw [hfirst] at hlength
      have hbehind : behind.length < steps :=
        Nat.lt_of_le_of_lt hlength (Nat.lt_of_succ_lt_succ hsteps)
      simp only [Statement.group, hfirst]
      rw [List.foldlM_cons, htakes.add hmode]
      exact ih (htakes.frame.2.1.trans hmode) hbehind

theorem TakesRun.frame {stop : Nat} {tokens : List Token} (h : TakesRun stop a tokens a') :
    a'.source = a.source ∧ a'.mode = a.mode ∧ a'.recoveries = a.recoveries := by
  induction h with
  | nil => exact ⟨rfl, rfl, rfl⟩
  | cons _ htakes _ ih =>
      obtain ⟨hsource, hmode, hrecoveries⟩ := htakes.frame
      exact ⟨ih.1.trans hsource, ih.2.1.trans hmode, ih.2.2.trans hrecoveries⟩

/-! ## The end of the text -/

/-- `a.ended` is the assembly behind the end of the text, where only the root is open. -/
def ended (a : Assembly) : Assembly :=
  { a with
    spaces := []
    current := (a.current.settle a.semicolon a.spaces).mapNode
      (Node.stopAt (a.source.position a.source.size)) }

theorem finish_of_enclosing {run : TokenRun} (h : a.enclosing = []) :
    a.finish run = a.ended.reportHealed run := by
  cases a
  cases h
  rfl

/-- Strict assembly ends where only the root is open. -/
theorem finish_eq_ok (hmode : a.mode = .strict) {run : TokenRun} (h : a.finish run = .ok a') :
    a.enclosing = [] ∧ a' = a.ended := by
  cases henclosing : a.enclosing with
  | cons outer enclosing =>
      simp only [finish, henclosing] at h
      obtain ⟨b, hopen, _⟩ := bind_eq_ok.mp h
      exact absurd hopen (report_ne_ok hmode _ _ _)
  | nil =>
      rw [finish_of_enclosing henclosing] at h
      refine ⟨rfl, ?_⟩
      unfold reportHealed at h
      split at h
      · split at h
        · exact absurd h (report_ne_ok (by exact hmode) _ _ _)
        · cases h
          rfl
      · cases h
        rfl

end Assembly

theorem parse_eq_ok {source : Source} {mode : Mode} {doc : Document} :
    parse source mode = .ok doc ↔ ∃ a, assemble source mode = .ok a ∧ a.document = doc := by
  unfold parse
  generalize assemble source mode = result
  constructor
  · intro h
    cases result with
    | error e => cases h
    | ok a => exact ⟨a, rfl, Except.ok.inj h⟩
  · rintro ⟨a, rfl, rfl⟩
    rfl

/-- Strict assembly that takes a text meets no error in its tokens, takes all of its statements,
and ends where only the root is open. -/
theorem assemble_strict_eq_ok {source : Source} {final : Assembly}
    (h : assemble source .strict = .ok final) :
    let run := Token.run source.text .fail
    ∃ a, run.failure = none ∧
      Assembly.TakesRun source.size (Assembly.start source .strict) run.tokens a ∧
      a.enclosing = [] ∧ final = a.ended := by
  unfold assemble at h
  obtain ⟨a, hfold, hfinish⟩ := bind_eq_ok.mp h
  rw [show Mode.openPolicy .strict = .fail from rfl] at hfold hfinish
  unfold Statement.ofRun at hfold
  have hfailure := Assembly.failure_eq_none_of_group (Nat.lt_succ_self _) hfold
  rw [hfailure] at hfold
  have hruns := Assembly.takesRun_of_group rfl (Nat.lt_succ_self _) hfold
  obtain ⟨hopen, rfl⟩ := Assembly.finish_eq_ok hruns.frame.2.1 hfinish
  exact ⟨a, hfailure, hruns, hopen, rfl⟩

end Stylesheet
