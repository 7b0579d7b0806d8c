import Mathlib.Data.List.TakeWhile
import Stylesheet.Proofs.Blocks

/-!
# What repairs leave as it is

A repair is recorded and changes nothing else. `Assembly.quiet` is an assembly without its repairs
and without its mode, so that what only reports a defect keeps it. `declares_of_declare` says what
either mode does with the tokens of a declaration, up to repairs: the tokens wait, or they are one
declaration, or they are cut in two, which is recorded.
-/

namespace Stylesheet

/-- `isEnded tokens` says that a semicolon ends the tokens of a declaration. -/
def Statement.isEnded (tokens : List Token) : Bool :=
  tokens.getLast?.any (·.is .semicolon)

/-- The tokens of a declaration are its body and the semicolon that ends it, if there is one. -/
theorem Statement.bodyOf_append (tokens : List Token) :
    ∃ ending : List Token, (∀ t ∈ ending, t.kind = .semicolon) ∧
      bodyOf tokens ++ ending = tokens := by
  unfold bodyOf
  split
  · next hended =>
      have hne : tokens ≠ [] := by
        rintro rfl
        cases hended
      rw [List.getLast?_eq_some_getLast hne, Option.any_some] at hended
      exact ⟨[tokens.getLast hne], List.forall_mem_singleton.mpr (beq_iff_eq.mp hended),
        List.dropLast_concat_getLast hne⟩
  · exact ⟨[], List.forall_mem_nil _, List.append_nil _⟩

/-! ## The parts of a declaration -/

/-- The name of a declaration starts with a word, and its value not with white space or a
comment. -/
theorem Parts.heads_ofTokens? {tokens : List Token} {parts : Parts}
    (h : ofTokens? tokens = some parts) :
    (∃ w more, parts.name = w :: more ∧ w.is .word = true) ∧
      ∀ t, parts.value.head? = some t → t.isTrivia = false := by
  unfold ofTokens? Token.splitLeading at h
  dsimp only at h
  split at h
  · cases h
  · next hbody =>
      cases h
      constructor
      · have hword := List.head?_dropWhile_not (fun t : Token ↦ !t.is .word) tokens
        cases hdrop : tokens.dropWhile (!·.is .word) with
        | nil => simp [hdrop] at hbody
        | cons w rest =>
            simp only [hdrop, List.head?_cons, Bool.not_eq_false'] at hword
            dsimp only
            refine ⟨w, _, List.takeWhile_cons_of_pos ?_, hword⟩
            simp only [Token.is, beq_iff_eq] at hword
            simp [Token.is, Token.isTrivia, hword, TokenKind.isTrivia]
      · intro t ht
        have hfirst := List.head?_dropWhile_not Token.isTrivia
          (throughColon (List.dropWhile (fun t ↦ !(t.is .colon || t.isTrivia))
            (tokens.dropWhile (!·.is .word)))).2
        dsimp only at ht
        rw [ht] at hfirst
        exact hfirst

/-! ## Values that are cut -/

theorem findColon_append {depth : Int} {previous : Token} {tokens before behind : List Token}
    (h : findColon depth previous tokens = some (before, behind)) :
    before ++ behind = tokens := by
  induction tokens generalizing depth previous before with
  | nil => cases h
  | cons t rest ih =>
      have hmore {depth : Int} {previous : Token}
          (h : (findColon depth previous rest).map (fun cut ↦ (t :: cut.1, cut.2)) =
            some (before, behind)) : before ++ behind = t :: rest := by
        obtain ⟨cut, hcut, heq⟩ := Option.map_eq_some_iff.mp h
        cases heq
        exact congrArg (t :: ·) (ih hcut)
      unfold findColon at h
      split at h
      · split at h
        · exact hmore h
        · cases h
          rfl
      · exact hmore h

/-- A second colon stands behind the first token of the value. -/
theorem secondColon_append {value before behind : List Token}
    (h : secondColon value = some (before, behind)) :
    before ++ behind = value ∧ before.head? = value.head? := by
  cases value with
  | nil => cases h
  | cons t rest =>
      obtain ⟨cut, hcut, heq⟩ := Option.map_eq_some_iff.mp h
      cases heq
      exact ⟨congrArg (t :: ·) (findColon_append hcut), rfl⟩

/-- A value that is cut is cut in three, and the first part is not empty if the value does not
start with white space. -/
theorem Missed.append_of_ofValue? {value : List Token} {missed : Missed}
    (h : ofValue? value = some missed) :
    missed.kept ++ missed.gap ++ missed.next = value ∧
      ((∀ t, value.head? = some t → t.is .space = false) → missed.kept ≠ []) := by
  unfold ofValue? at h
  obtain ⟨⟨before, behind⟩, hsecond, h⟩ := Option.bind_eq_some_iff.mp h
  obtain ⟨hvalue, hhead⟩ := secondColon_append hsecond
  dsimp only at h
  split at h
  · cases h
  · next hlength =>
      have happend := Token.splitTrailing_append (!·.is .word) before
      generalize Token.splitTrailing (!·.is .word) before = cut at happend h hlength
      obtain ⟨start, signs⟩ := cut
      cases h
      have hkept := Token.splitTrailing_append (·.is .space) start.dropLast
      have hstart : start.dropLast ++ start.drop (start.length - 1) = start := by
        rw [List.dropLast_eq_take]
        exact List.take_append_drop _ _
      refine ⟨?_, fun hno hnil ↦ ?_⟩
      · rw [← hvalue, ← happend]
        dsimp only
        rw [hkept, ← List.append_assoc, ← List.append_assoc, hstart]
      · -- The first token is kept, as the word before the second colon is another one.
        obtain ⟨t, u, more, rfl⟩ : ∃ t u more, start = t :: u :: more := by
          match start, hlength with
          | [], hlength | [_], hlength => simp at hlength
          | t :: u :: more, _ => exact ⟨t, u, more, rfl⟩
        have ht : value.head? = some t := by
          rw [← hhead, ← happend]
          rfl
        have hspaces := Token.forall_mem_splitTrailing_snd (·.is .space) (t :: u :: more).dropLast
        dsimp only at hnil
        rw [hnil, List.nil_append] at hkept
        rw [hkept] at hspaces
        have hspace := hspaces t List.mem_cons_self
        rw [hno t ht] at hspace
        cases hspace

/-! ## Assemblies without their repairs -/

namespace Assembly

/-- `a.quiet` is the assembly without its repairs, whatever its mode. -/
def quiet (a : Assembly) : Assembly := { a with mode := .strict, recoveries := [] }

variable {a b : Assembly}

theorem quiet_report {defect : Defect} {span : Span} {node : Option NodeId}
    (h : a.report defect span node = .ok b) : b.quiet = a.quiet := by
  obtain ⟨recovery, rfl⟩ := report_eq_ok h
  rfl

/-- A report that does not stop assembly is recorded with the damage of the defect. -/
theorem recorded_of_report {defect : Defect} {span : Span} {node : Option NodeId}
    (h : a.report defect span node = .ok b) : ∃ r ∈ b.recoveries, r.damage = defect.damage := by
  unfold report at h
  split at h
  · cases h
  · cases h
    exact ⟨_, List.mem_append_right _ (List.mem_singleton_self _), rfl⟩

theorem quiet_reportOpened {opened : Option Span} (h : a.reportOpened opened = .ok b) :
    b.quiet = a.quiet := by
  unfold reportOpened at h
  split at h
  · exact quiet_report h
  · cases h
    rfl

theorem quiet_unknownWords {words : List Token} {id : NodeId}
    (h : words.foldlM (fun a t ↦ a.report (.unknownWord t.text) t.span (some id)) a = .ok b) :
    b.quiet = a.quiet := by
  induction words generalizing a with
  | nil =>
      cases h
      rfl
  | cons t words ih =>
      rw [List.foldlM_cons] at h
      obtain ⟨c, hc, h⟩ := bind_eq_ok.mp h
      exact (ih h).trans (quiet_report hc)

theorem quiet_reportColon {value : List Token} {id : NodeId}
    (h : a.reportColon value id = .ok b) : b.quiet = a.quiet := by
  unfold reportColon at h
  split at h
  · exact quiet_report h
  · cases h
    rfl

/-- A value that is cut is cut at a second colon, and that is recorded. -/
theorem quiet_splitValue {value : List Token} {id : NodeId} {missed : Option Missed}
    (h : a.splitValue value id = .ok (b, missed)) :
    b.quiet = a.quiet ∧ ∀ cut, missed = some cut →
      Missed.ofValue? value = some cut ∧ ∃ r ∈ b.recoveries, r.damage = .missedSemicolon := by
  unfold splitValue at h
  split at h
  · cases h
    exact ⟨rfl, nofun⟩
  · obtain ⟨c, hc, h⟩ := bind_eq_ok.mp h
    have hc := quiet_reportColon hc
    cases hmissed : Missed.ofValue? value with
    | none =>
        simp only [hmissed] at h
        cases h
        exact ⟨hc, nofun⟩
    | some cut =>
        simp only [hmissed] at h
        obtain ⟨d, hd, h⟩ := bind_eq_ok.mp h
        cases h
        refine ⟨(quiet_report hd).trans hc, fun _ hcut ↦ ?_⟩
        cases hcut
        exact ⟨rfl, recorded_of_report hd⟩

theorem quiet_checkColons {custom : Bool} {value : Text} {tokens : List Token} {id : NodeId}
    (h : a.checkColons custom value tokens id = .ok b) : b.quiet = a.quiet := by
  unfold checkColons at h
  split at h
  · obtain ⟨c, hc, h⟩ := bind_eq_ok.mp h
    have hc := quiet_reportColon hc
    split at h
    · exact (quiet_report h).trans hc
    · cases h
      exact hc
  · cases h
    rfl

theorem quiet_checkValue {custom : Bool} {value : Text} {terminator : Nat} {id : NodeId}
    (h : a.checkValue custom value terminator id = .ok b) : b.quiet = a.quiet := by
  unfold checkValue at h
  split at h
  · exact quiet_report h
  · cases h
    rfl

theorem quiet_reportHealed {run : TokenRun} (h : a.reportHealed run = .ok b) :
    b.quiet = a.quiet := by
  unfold reportHealed at h
  split at h
  · split at h
    · exact quiet_report h
    · cases h
      rfl
  · cases h
    rfl

/-- A healed token at the end of the text is recorded. -/
theorem recorded_of_reportHealed {run : TokenRun} (h : a.reportHealed run = .ok b) {t : Token}
    (hlast : run.tokens.getLast? = some t) (hhealed : t.healed = true) :
    ∃ r ∈ b.recoveries, r.damage = (Defect.ofOpenConstruct (.ofTokenKind t.kind)).damage := by
  unfold reportHealed at h
  simp only [hlast, hhealed, if_true] at h
  exact recorded_of_report h

/-- Tokens that are no statement wait. -/
theorem quiet_stray {tokens : List Token} (h : a.stray tokens = .ok b) :
    b.quiet = (a.wait (Token.spelling tokens)).quiet := by
  cases tokens with
  | nil =>
      cases h
      simp [wait, quiet]
  | cons t rest =>
      obtain ⟨c, hc, h⟩ := bind_eq_ok.mp h
      cases h
      exact congrArg (·.wait (Token.spelling (t :: rest))) (quiet_report hc)

/-- An at-rule without a name is reported, and added as any other one. -/
theorem quiet_atRule {word : Token} {params : List Token} {ending : AtRuleEnd}
    (h : a.atRule word params ending = .ok b) :
    ∃ c : Assembly, c.quiet = a.quiet ∧ c.mode = a.mode ∧
      c.atRuleBody word params ending = .ok b := by
  rw [atRule_eq] at h
  obtain ⟨c, hc, h⟩ := bind_eq_ok.mp h
  refine ⟨c, ?_, ?_, h⟩ <;> split at hc
  · exact quiet_report hc
  · cases hc
    rfl
  · exact (steps_report hc).mode_eq
  · cases hc
    rfl

/-! ## Declarations -/

/-- What is left of the node of a declaration whose value is cut. -/
def cutNode (a : Assembly) (custom : Bool) (tokens : List Token) (parts : Parts)
    (missed : Missed) : Node :=
  let node := a.declarationNode custom tokens parts (takeImportant missed.kept)
  if missed.kept.isEmpty then node else a.stopNode (Token.stopOr missed.kept 0) node

/-- `a.addCut custom tokens parts missed` adds the first of the declarations that a run of tokens
is cut into. The white space behind it waits. -/
def addCut (a : Assembly) (custom : Bool) (tokens : List Token) (parts : Parts)
    (missed : Missed) : Assembly :=
  { a.addLeaf (a.cutNode custom tokens parts missed) (Statement.isEnded tokens) with
    spaces := Token.spelling missed.gap }

/-- `Declares cuts a tokens custom terminator b` says that `b` is what assembly makes of `a` and
the tokens of a declaration, up to repairs. -/
inductive Declares (cuts : Nat) (a : Assembly) (tokens : List Token) (custom : Bool)
    (terminator : Nat) (b : Assembly) : Prop where
  | stray {strays} (hstrays : strays = tokens ∨
        a.mode = .strict ∧ strays = (Statement.bodyOf tokens).getLast?.toList)
      (hb : a.stray strays = .ok b)
  | single {parts} (hparts : Parts.ofTokens? (Statement.bodyOf tokens) = some parts)
      (hb : b.quiet =
        (a.addLeaf (a.declarationNode custom tokens parts (takeImportant parts.value))
        (Statement.isEnded tokens)).quiet)
  | cut {parts missed c d} (hparts : Parts.ofTokens? (Statement.bodyOf tokens) = some parts)
      (hmissed : Missed.ofValue? parts.value = some missed)
      (hc : c.quiet = (a.addCut custom tokens parts missed).quiet)
      (hd : declare cuts c missed.next false terminator = .ok d)
      (hb : b.quiet = { d with semicolon := Statement.isEnded tokens }.quiet)
      (hrecorded : ∃ r ∈ b.recoveries, r.damage = .missedSemicolon)

/-- A run of tokens with a word has the parts of a declaration. -/
theorem parts_ne_none {tokens : List Token} (h : isDeclaration tokens = true) :
    Parts.ofTokens? (Statement.bodyOf tokens) ≠ none := by
  unfold isDeclaration at h
  rw [Bool.and_eq_true, List.any_eq_true] at h
  obtain ⟨-, w, hw, hword⟩ := h
  have hmem : w ∈ Statement.bodyOf tokens := by
    unfold Statement.bodyOf
    split
    · next hended =>
        have hne := List.ne_nil_of_mem hw
        obtain ⟨body, u, rfl⟩ := (List.eq_nil_or_concat tokens).resolve_left hne
        rw [List.concat_eq_append] at hw hended ⊢
        rw [List.dropLast_concat]
        refine (List.mem_append.mp hw).resolve_right fun hend ↦ ?_
        rw [List.mem_singleton] at hend
        subst hend
        simp only [List.getLast?_concat, Option.any_some, Token.is, beq_iff_eq] at hended hword
        rw [hword] at hended
        cases hended
    · exact hw
  have hbody : (Statement.bodyOf tokens).dropWhile (!·.is .word) ≠ [] := by
    intro hnil
    have hno := List.dropWhile_eq_nil_iff.mp hnil w hmem
    rw [hword] at hno
    cases hno
  simp [Parts.ofTokens?, Token.splitLeading, hbody]

/-- Nodes do not depend on the repairs that were made before. -/
theorem declarationNode_of_quiet (h : b.quiet = a.quiet) :
    b.declarationNode = a.declarationNode := by
  have hquiet : b.quiet.declarationNode = a.quiet.declarationNode := by rw [h]
  exact hquiet

theorem quiet_addLeaf (h : b.quiet = a.quiet) (node : Node) (semicolon : Bool) :
    (b.addLeaf node semicolon).quiet = (a.addLeaf node semicolon).quiet :=
  congrArg (·.addLeaf node semicolon) h

theorem declares_of_declare {cuts : Nat} {tokens : List Token} {custom : Bool} {terminator : Nat}
    (h : declare (cuts + 1) a tokens custom terminator = .ok b) :
    Declares cuts a tokens custom terminator b := by
  by_cases hguard : a.mode = .tolerant ∧ isDeclaration tokens = false
  · unfold declare at h
    rw [if_pos hguard] at h
    exact .stray (.inl rfl) h
  cases hparts : Parts.ofTokens? (Statement.bodyOf tokens) with
  | none =>
      have hmode : a.mode = .strict := by
        cases hmode : a.mode with
        | strict => rfl
        | tolerant =>
            exact absurd hparts (parts_ne_none (eq_true_of_ne_false fun h ↦ hguard ⟨hmode, h⟩))
      unfold Statement.bodyOf at hparts
      unfold declare at h
      rw [if_neg hguard] at h
      simp only [hparts] at h
      exact .stray (.inr ⟨hmode, rfl⟩) h
  | some parts =>
      have hsome := hparts
      unfold Statement.bodyOf at hsome
      unfold declare at h
      rw [if_neg hguard] at h
      simp only [hsome] at h
      obtain ⟨c, hwords, h⟩ := bind_eq_ok.mp h
      obtain ⟨⟨d, missed⟩, hsplit, h⟩ := bind_eq_ok.mp h
      obtain ⟨hd, hcut⟩ := quiet_splitValue hsplit
      have hd := hd.trans (quiet_unknownWords hwords)
      cases missed with
      | none =>
          obtain ⟨e, he, h⟩ := bind_eq_ok.mp h
          cases he
          obtain ⟨f, hf, h⟩ := bind_eq_ok.mp h
          refine .single hparts ?_
          rw [← declarationNode_of_quiet hd]
          exact ((quiet_checkValue h).trans (quiet_checkColons hf)).trans (quiet_addLeaf hd _ _)
      | some cut =>
          obtain ⟨hmissed, r, hr, hdamage⟩ := hcut cut rfl
          obtain ⟨e, he, h⟩ := bind_eq_ok.mp h
          obtain ⟨f, hf, h⟩ := bind_eq_ok.mp h
          cases hf
          obtain ⟨g, hg, h⟩ := bind_eq_ok.mp h
          refine .cut hparts hmissed ?_ he ((quiet_checkValue h).trans (quiet_checkColons hg)) ?_
          · exact congrArg (·.addCut custom tokens parts cut) hd
          · -- The cut was recorded before the rest was added.
            have hlater := ((steps_declare he).tail (.mark _)).trans (steps_checkColons hg)
            exact ⟨r, (hlater.trans (steps_checkValue h)).repairs_kept.subset hr, hdamage⟩

/-! ## The end of the text -/

/-- The innermost container is closed behind what waits, and those around it after it. A block
that is open there is recorded, and so is a token that is healed. -/
theorem finish_quiet {run : TokenRun} (h : a.finish run = .ok b) :
    ∃ c d : Assembly, c.quiet = a.quiet ∧
      closeOpen { c with current := c.current.settle c.semicolon c.spaces, spaces := [] }
        c.enclosing = .ok d ∧
      b.quiet = Assembly.quiet { d with
        current := d.current.mapNode (Node.stopAt (d.source.position d.source.size)) } ∧
      (a.enclosing ≠ [] → ∃ r ∈ b.recoveries, r.damage = .unclosedBlock) ∧
      ∀ t, run.tokens.getLast? = some t → t.healed = true →
        ∃ r ∈ b.recoveries, r.damage = (Defect.ofOpenConstruct (.ofTokenKind t.kind)).damage := by
  unfold finish at h
  dsimp only at h
  split at h
  · next hempty =>
      obtain ⟨c, hc, h⟩ := bind_eq_ok.mp h
      cases hc
      obtain ⟨d, hd, h⟩ := bind_eq_ok.mp h
      exact ⟨a, d, rfl, hd, quiet_reportHealed h,
        fun hopen ↦ absurd (List.isEmpty_iff.mp hempty) hopen, fun _ ↦ recorded_of_reportHealed h⟩
  · obtain ⟨c, hc, h⟩ := bind_eq_ok.mp h
    obtain ⟨d, hd, h⟩ := bind_eq_ok.mp h
    refine ⟨c, d, quiet_report hc, hd, quiet_reportHealed h, fun _ ↦ ?_,
      fun _ ↦ recorded_of_reportHealed h⟩
    obtain ⟨r, hr, hdamage⟩ := recorded_of_report hc
    have hclosed := (steps_closeOpen rfl hd).repairs_kept
    exact ⟨r, (hclosed.trans (steps_reportHealed h).repairs_kept).subset hr, hdamage⟩

end Assembly

/-! ## Damaged documents -/

/-- `n.undamaged` is the node without the damage that repairs have done to it. -/
def Node.undamaged (n : Node) : Node := n.mapRaws fun raws ↦ { raws with damage := [] }

namespace Document

theorem undamaged_recover (doc : Document) (recovery : Recovery) (id : NodeId) :
    ((doc.recover recovery).node id).undamaged = (doc.node id).undamaged := by
  unfold recover
  dsimp only
  split
  · rw [node_modify]
    split
    · next hid =>
        rw [hid.1]
        rfl
    · rfl
  · rfl

/-- Repairs change nothing of the nodes of a document but their damage. -/
theorem undamaged_foldl_recover (doc : Document) (recoveries : List Recovery) (id : NodeId) :
    ((recoveries.foldl recover doc).node id).undamaged = (doc.node id).undamaged := by
  induction recoveries generalizing doc with
  | nil => rfl
  | cons recovery recoveries ih => exact (ih _).trans (doc.undamaged_recover recovery id)

/-- Repairs leave the source and the mode of a document as they are. -/
theorem frame_foldl_recover (doc : Document) (recoveries : List Recovery) :
    (recoveries.foldl recover doc).source = doc.source ∧
      (recoveries.foldl recover doc).mode = doc.mode := by
  induction recoveries generalizing doc with
  | nil => exact ⟨rfl, rfl⟩
  | cons recovery recoveries ih =>
      have hframe : (doc.recover recovery).source = doc.source ∧
          (doc.recover recovery).mode = doc.mode := by
        unfold recover
        cases recovery.node <;> exact ⟨rfl, rfl⟩
      exact ⟨(ih _).1.trans hframe.1, (ih _).2.trans hframe.2⟩

/-- A document unfolds as another one that is linked in the same way. -/
theorem Unfolds.of_sameLinks {doc other : Document} {ids : List NodeId} {f : Forest NodeId}
    (h : doc.Unfolds ids f) (hlinks : doc.SameLinks other) : other.Unfolds ids f := by
  induction h with
  | nil => exact .nil
  | cons id ids below rest _ _ ihBelow ihRest =>
      rw [← hlinks.children] at ihBelow
      exact .cons id ids below rest ihBelow ihRest

end Document

/-- The nodes of a document are those of the tree that assembly made, in document order, up to
links and damage. -/
theorem Assembly.IsMade.unfolds_document {a : Assembly} (ha : a.IsMade) :
    a.document.Unfolds (a.document.children Document.root)
        ((Forest.ofRev a.current.earlier).numbers 1) ∧
      a.document.size = (Forest.ofRev a.current.earlier).size + 1 ∧
      (a.document.node Document.root).unlinked.undamaged = a.current.node.unlinked.undamaged ∧
      ((((Forest.ofRev a.current.earlier).numbers 1).map a.document.node).map Node.unlinked).map
          Node.undamaged =
        ((Forest.ofRev a.current.earlier).map Node.unlinked).map Node.undamaged := by
  have hbelow := ha.current.earlier.imp (Q := fun n below ↦ below = .nil ∨ n.hasBlock = true)
    fun _ _ hmade ↦ hmade.block
  obtain ⟨hunfolds, htop, hforest⟩ := Document.unfolds_ofForest a.source a.mode
    (.inr ha.current.block) hbelow
  have hlinks := sameLinks_foldl_recover
    (Document.ofForest a.source a.mode
      (.cons a.current.node (Forest.ofRev a.current.earlier) .nil))
    a.recoveries
  have hnode := Document.undamaged_foldl_recover
    (Document.ofForest a.source a.mode
      (.cons a.current.node (Forest.ofRev a.current.earlier) .nil))
    a.recoveries
  have hunlinked (id : NodeId) := congrArg Node.unlinked (hnode id)
  refine ⟨?_, ?_, ?_, ?_⟩
  · have hunfolds := hunfolds.of_sameLinks hlinks
    rw [← hlinks.children] at hunfolds
    exact hunfolds
  · rw [document, Frame.tree]
    dsimp only
    rw [hlinks.size, Document.size_ofForest]
    simp [Forest.size]
  · exact (hunlinked Document.root).trans (congrArg Node.undamaged htop)
  · have hmap := congrArg (Forest.map Node.undamaged) hforest
    refine Eq.trans ?_ hmap
    rw [Forest.map_map, Forest.map_map, Forest.map_map, Forest.map_map]
    congr 1
    funext id
    exact hunlinked id

/-- Every number of a document but that of the root is one of the numbers of the tree. -/
theorem Assembly.IsMade.mem_numbers {a : Assembly} (ha : a.IsMade) {id : NodeId}
    (hne : id ≠ Document.root) (hlt : id < a.document.size) :
    id ∈ ((Forest.ofRev a.current.earlier).numbers 1).toList := by
  obtain ⟨-, hsize, -⟩ := ha.unfolds_document
  rw [hsize, Nat.add_comm] at hlt
  rw [Forest.toList_numbers, List.mem_range'_1]
  exact ⟨Nat.pos_of_ne_zero hne, hlt⟩

end Stylesheet
