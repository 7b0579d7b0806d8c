import Mathlib.Logic.Relation
import Stylesheet.Proofs.Forest
import Stylesheet.Proofs.NodeText

/-!
# The steps of assembly

Whatever assembly does with a text, in either mode, it does in a few kinds of steps.
`Assembly.Step` lists them and `steps_of_assemble` says that there are no others, so that what
every step keeps is kept by reading as a whole: no step takes a repair back
(`Steps.repairs_kept`), and every node is made with a block if nodes are below it, without damage,
and with no written form of another text than its own (`Assembly.IsMade`).
-/

namespace Stylesheet

/-! ## Nodes as they are made -/

/-- A node as it is made is not damaged, and the written form that it keeps belongs to its
text. -/
structure Node.IsNew (n : Node) : Prop where
  undamaged : n.raws.damage = []
  fresh : n.staleCache = none

/-- `IsLayout f` says that a change of nodes neither makes nor takes a block, damages nothing, and
leaves texts with their written forms alone. -/
def Node.IsLayout (f : Node → Node) : Prop :=
  ∀ n, (f n).hasBlock = n.hasBlock ∧ (f n).raws.damage = n.raws.damage ∧
    (f n).staleCache = n.staleCache

/-- The written form of a tidied text belongs to that text. -/
theorem Value.all_raw_ofTokens (custom : Bool) (tokens : List Token) :
    (ofTokens custom tokens).raw.all (·.value = (ofTokens custom tokens).text) = true := by
  simp only [ofTokens]
  split <;> simp

namespace Assembly

theorem isNew_ruleNode (a : Assembly) (head : List Token) (brace : Token) :
    (a.ruleNode head brace).IsNew :=
  ⟨rfl, if_pos (Value.all_raw_ofTokens false _)⟩

theorem isNew_atRuleNode (a : Assembly) (word : Token) (params : List Token) (between : Text) :
    (a.atRuleNode word params between).IsNew :=
  ⟨rfl, if_pos (Value.all_raw_ofTokens false _)⟩

theorem isNew_declarationNode (a : Assembly) (custom : Bool) (tokens : List Token) (parts : Parts)
    (marked : Marked) : (a.declarationNode custom tokens parts marked).IsNew :=
  ⟨rfl, if_pos (Value.all_raw_ofTokens custom _)⟩

theorem isNew_commentNode (a : Assembly) (t : Token) : (a.commentNode t).IsNew := by
  obtain ⟨text, hkind⟩ := commentKind_fst t.text t.healed
  have hkind : (a.commentNode t).kind = .comment text := hkind
  exact ⟨rfl, by simp only [Node.staleCache, Node.cacheOf, hkind]⟩

theorem isNew_stopNode (a : Assembly) (stop : Nat) {n : Node} (h : n.IsNew) :
    (a.stopNode stop n).IsNew :=
  ⟨h.undamaged, h.fresh⟩

/-- `a.Step b` says that `b` is one step of assembly further than `a`. -/
inductive Step (a : Assembly) : Assembly → Prop where
  | repair (more) : Step a { a with recoveries := a.recoveries ++ more }
  | wait (spaces) : Step a { a with spaces }
  | mark (semicolon) : Step a { a with semicolon }
  | leaf {node : Node} (h : node.IsNew) (semicolon) : Step a (a.addLeaf node semicolon)
  | block {node : Node} (h : node.IsNew) (hblock : node.hasBlock = true) :
      Step a (a.openFrame node)
  | layout {f : Node → Node} (hf : Node.IsLayout f) :
      Step a { a with current := a.current.mapNode f }
  | relayout {tree earlier} {f : Node → Node} (h : a.current.earlier = tree :: earlier)
      (hf : Node.IsLayout f) :
      Step a { a with current := { a.current with earlier := (f tree.1, tree.2) :: earlier } }
  | close {outer enclosing} (h : a.enclosing = outer :: enclosing) :
      Step a { a with current := outer.adopt a.current.tree, enclosing }

/-- `a.Steps b` says that assembly goes from `a` to `b`. -/
def Steps : Assembly → Assembly → Prop := Relation.ReflTransGen Step

variable {a b c : Assembly}

namespace Steps

theorem refl (a : Assembly) : a.Steps a := Relation.ReflTransGen.refl

theorem trans (hab : a.Steps b) (hbc : b.Steps c) :
    a.Steps c := Relation.ReflTransGen.trans hab hbc

theorem tail (hab : a.Steps b) (hbc : b.Step c) : a.Steps c := Relation.ReflTransGen.tail hab hbc

end Steps

theorem Step.steps (h : a.Step b) : a.Steps b := Relation.ReflTransGen.single h

/-- What every step keeps is kept on the whole way. -/
theorem Steps.keeps {P : Assembly → Prop} (hstep : ∀ {a b : Assembly}, a.Step b → P a → P b)
    (h : a.Steps b) (ha : P a) : P b := by
  induction h with
  | refl => exact ha
  | tail _ hbc ih => exact hstep hbc ih

/-- No step takes a repair back. -/
theorem Step.repairs_kept (h : a.Step b) : a.recoveries <+: b.recoveries := by
  cases h with
  | repair more => exact List.prefix_append _ _
  | wait | mark | leaf | block | layout | relayout | close => exact List.prefix_refl _

theorem Steps.repairs_kept (h : a.Steps b) : a.recoveries <+: b.recoveries :=
  h.keeps (P := fun c ↦ a.recoveries <+: c.recoveries)
    (fun hstep hprefix ↦ hprefix.trans hstep.repairs_kept) (List.prefix_refl _)

/-- A step stays in its mode. -/
theorem Step.mode_eq (h : a.Step b) : b.mode = a.mode := by
  cases h <;> rfl

theorem Steps.mode_eq (h : a.Steps b) : b.mode = a.mode :=
  h.keeps (P := fun c ↦ c.mode = a.mode) (fun hstep hmode ↦ hstep.mode_eq.trans hmode) rfl

/-- A step stays in its source. -/
theorem Step.source_eq (h : a.Step b) : b.source = a.source := by
  cases h <;> rfl

theorem Steps.source_eq (h : a.Steps b) : b.source = a.source :=
  h.keeps (P := fun c ↦ c.source = a.source)
    (fun hstep hsource ↦ hstep.source_eq.trans hsource) rfl

/-- No step takes a node back. -/
theorem Step.created_le (h : a.Step b) : a.created ≤ b.created := by
  cases h with
  | leaf | block => exact Nat.le_succ _
  | repair | wait | mark | layout | relayout | close => exact Nat.le_refl _

theorem Steps.created_le (h : a.Steps b) : a.created ≤ b.created :=
  h.keeps (P := fun c ↦ a.created ≤ c.created) (fun hstep hle ↦ Nat.le_trans hle hstep.created_le)
    (Nat.le_refl _)

/-! ## What the functions of assembly do -/

/-- A report adds a repair and does nothing else. -/
theorem report_eq_ok {defect : Defect} {span : Span} {node : Option NodeId}
    (h : a.report defect span node = .ok b) :
    ∃ recovery, b = { a with recoveries := a.recoveries ++ [recovery] } := by
  unfold report at h
  split at h
  · cases h
  · cases h
    exact ⟨_, rfl⟩

theorem steps_report {defect : Defect} {span : Span} {node : Option NodeId}
    (h : a.report defect span node = .ok b) : a.Steps b := by
  obtain ⟨recovery, rfl⟩ := report_eq_ok h
  exact (Step.repair _).steps

/-- The end of the contents of a container is a change of its layout. -/
theorem settle_eq_mapNode (f : Frame) (semicolon : Bool) (spaces : Text) :
    ∃ g, Node.IsLayout g ∧ f.settle semicolon spaces = f.mapNode g := by
  let addAfter := Node.mapRaws fun raws ↦
    { raws with after := some (raws.after.getD [] ++ spaces) }
  let mark := Node.mapRaws fun raws ↦ { raws with semicolon := some semicolon }
  unfold Frame.settle
  split
  · exact ⟨addAfter, fun _ ↦ ⟨rfl, rfl, rfl⟩, rfl⟩
  · exact ⟨addAfter ∘ mark, fun _ ↦ ⟨rfl, rfl, rfl⟩, rfl⟩

theorem steps_settle (a : Assembly) (semicolon : Bool) (spaces : Text) :
    a.Steps { a with current := a.current.settle semicolon spaces } := by
  obtain ⟨g, hg, hsettle⟩ := settle_eq_mapNode a.current semicolon spaces
  rw [hsettle]
  exact (Step.layout hg).steps

theorem steps_addAfter (a : Assembly) (text : Text) :
    a.Steps { a with current := a.current.addAfter text } :=
  (Step.layout (f := Node.mapRaws fun raws ↦
    { raws with after := some (raws.after.getD [] ++ text) }) fun _ ↦ ⟨rfl, rfl, rfl⟩).steps

theorem steps_freeSemicolon (a : Assembly) (t : Token) : a.Steps (a.freeSemicolon t) := by
  obtain hwait | ⟨tree, earlier, hearlier, -, -, htaken⟩ := a.freeSemicolon_cases t
  · rw [hwait]
    exact (Step.wait _).steps
  · rw [htaken]
    exact (Step.wait []).steps.tail (Step.relayout (a := { a with spaces := [] }) hearlier
      fun _ ↦ ⟨rfl, rfl, rfl⟩)

theorem steps_closeBlock {t : Token} (h : a.closeBlock t = .ok b) : a.Steps b := by
  have hsettled := ((a.steps_settle a.semicolon a.spaces).tail (.mark false)).tail (.wait [])
  unfold closeBlock at h
  cases henclosing : a.enclosing with
  | cons outer enclosing =>
      simp only [henclosing] at h
      cases h
      exact (hsettled.tail (.layout (f := a.stopNode t.span.stop) fun _ ↦ ⟨rfl, rfl, rfl⟩)).tail
        (.close henclosing)
  | nil =>
      simp only [henclosing] at h
      obtain ⟨c, hc, h⟩ := bind_eq_ok.mp h
      cases h
      rw [← henclosing] at hc
      exact (hsettled.trans (steps_report hc)).trans (c.steps_addAfter t.text)

theorem steps_stray {tokens : List Token} (h : a.stray tokens = .ok b) : a.Steps b := by
  cases tokens with
  | nil =>
      cases h
      exact .refl _
  | cons t rest =>
      obtain ⟨c, hc, h⟩ := bind_eq_ok.mp h
      cases h
      exact (steps_report hc).tail (.wait _)

theorem steps_reportOpened {opened : Option Span} (h : a.reportOpened opened = .ok b) :
    a.Steps b := by
  unfold reportOpened at h
  split at h
  · exact steps_report h
  · cases h
    exact .refl _

theorem steps_atRuleBody {word : Token} {params : List Token} {ending : AtRuleEnd}
    (h : a.atRuleBody word params ending = .ok b) : a.Steps b := by
  have hstopped (stop : Nat) (between : Text) :
      (a.stopNode stop (a.atRuleNode word params between)).IsNew :=
    a.isNew_stopNode stop (a.isNew_atRuleNode word params between)
  cases ending with
  | semicolon t =>
      cases h
      exact (Step.leaf (hstopped _ _) _).steps
  | block t =>
      cases h
      have hwhole : (a.atRuleWhole word params).IsNew := a.isNew_atRuleNode word params _
      have hopened : (a.atRuleWhole word params).openBlock.IsNew :=
        ⟨hwhole.undamaged, hwhole.fresh⟩
      exact (Step.block hopened rfl).steps
  | close t => exact (Step.leaf (hstopped _ _) _).steps.trans (steps_closeBlock h)
  | input =>
      unfold atRuleBody at h
      dsimp only at h
      split at h
      · cases h
        exact (Step.leaf (hstopped _ _) _).steps
      · cases h
        exact (Step.leaf (hstopped _ _) _).steps.tail (.wait _)
  | failure e => cases h

theorem steps_atRule {word : Token} {params : List Token} {ending : AtRuleEnd}
    (h : a.atRule word params ending = .ok b) : a.Steps b := by
  rw [atRule_eq] at h
  obtain ⟨c, hc, h⟩ := bind_eq_ok.mp h
  refine Steps.trans ?_ (steps_atRuleBody h)
  split at hc
  · exact steps_report hc
  · cases hc
    exact .refl _

/-! ## Declarations -/

theorem steps_unknownWords {words : List Token} {id : NodeId}
    (h : words.foldlM (fun a t ↦ a.report (.unknownWord t.text) t.span (some id)) a = .ok b) :
    a.Steps b := by
  induction words generalizing a with
  | nil =>
      cases h
      exact .refl _
  | cons t words ih =>
      rw [List.foldlM_cons] at h
      obtain ⟨c, hc, h⟩ := bind_eq_ok.mp h
      exact (steps_report hc).trans (ih h)

theorem steps_reportColon {value : List Token} {id : NodeId}
    (h : a.reportColon value id = .ok b) : a.Steps b := by
  unfold reportColon at h
  split at h
  · exact steps_report h
  · cases h
    exact .refl _

theorem steps_splitValue {value : List Token} {id : NodeId} {missed : Option Missed}
    (h : a.splitValue value id = .ok (b, missed)) : a.Steps b := by
  unfold splitValue at h
  split at h
  · cases h
    exact .refl _
  · cases hmissed : Missed.ofValue? value with
    | none =>
        simp only [hmissed] at h
        obtain ⟨c, hc, h⟩ := bind_eq_ok.mp h
        cases h
        exact steps_reportColon hc
    | some cut =>
        simp only [hmissed] at h
        obtain ⟨c, hc, h⟩ := bind_eq_ok.mp h
        obtain ⟨d, hd, h⟩ := bind_eq_ok.mp h
        cases h
        exact (steps_reportColon hc).trans (steps_report hd)

theorem steps_checkColons {custom : Bool} {value : Text} {tokens : List Token} {id : NodeId}
    (h : a.checkColons custom value tokens id = .ok b) : a.Steps b := by
  unfold checkColons at h
  split at h
  · cases hsecond : secondColon tokens with
    | none =>
        simp only [hsecond] at h
        obtain ⟨c, hc, h⟩ := bind_eq_ok.mp h
        cases h
        exact steps_reportColon hc
    | some cut =>
        simp only [hsecond] at h
        obtain ⟨c, hc, h⟩ := bind_eq_ok.mp h
        exact (steps_reportColon hc).trans (steps_report h)
  · cases h
    exact .refl _

theorem steps_checkValue {custom : Bool} {value : Text} {terminator : Nat} {id : NodeId}
    (h : a.checkValue custom value terminator id = .ok b) : a.Steps b := by
  unfold checkValue at h
  split at h
  · exact steps_report h
  · cases h
    exact .refl _

/-- A run of tokens that has the parts of a declaration is cut, and added behind that. -/
theorem steps_of_parts {cuts : Nat} {tokens : List Token} {custom : Bool} {terminator : Nat}
    {parts : Parts} (hguard : ¬(a.mode = .tolerant ∧ isDeclaration tokens = false))
    (hparts : Parts.ofTokens? (Statement.bodyOf tokens) = some parts)
    (hcuts : ∀ {a b : Assembly} {tokens : List Token},
      declare cuts a tokens false terminator = .ok b → a.Steps b)
    (h : declare (cuts + 1) a tokens custom terminator = .ok b) :
    ∃ c d missed, parts.unknownWords.foldlM
        (fun c t ↦ c.report (.unknownWord t.text) t.span (some a.created)) a = .ok c ∧
      c.splitValue parts.value a.created = .ok (d, missed) ∧ d.Steps b := by
  unfold declare at h
  unfold Statement.bodyOf at hparts
  rw [if_neg hguard] at h
  simp only [hparts] at h
  obtain ⟨c, hwords, h⟩ := bind_eq_ok.mp h
  obtain ⟨⟨d, missed⟩, hsplit, h⟩ := bind_eq_ok.mp h
  refine ⟨c, d, missed, hwords, hsplit, ?_⟩
  cases missed with
  | none =>
      obtain ⟨e, he, h⟩ := bind_eq_ok.mp h
      cases he
      obtain ⟨f, hf, h⟩ := bind_eq_ok.mp h
      exact ((Step.leaf (d.isNew_declarationNode _ _ _ _) _).steps.trans
        (steps_checkColons hf)).trans (steps_checkValue h)
  | some cut =>
      obtain ⟨e, he, h⟩ := bind_eq_ok.mp h
      have hnew : (if cut.kept.isEmpty then
            d.declarationNode custom tokens parts (takeImportant cut.kept)
          else d.stopNode (Token.stopOr cut.kept 0)
            (d.declarationNode custom tokens parts (takeImportant cut.kept))).IsNew := by
        have hwhole := d.isNew_declarationNode custom tokens parts (takeImportant cut.kept)
        split
        · exact hwhole
        · exact d.isNew_stopNode _ hwhole
      have he := ((Step.leaf hnew _).steps.tail (.wait _)).trans (hcuts he)
      obtain ⟨f, hf, h⟩ := bind_eq_ok.mp h
      have hf : d.Steps f := by
        cases hf
        exact he.tail (.mark _)
      obtain ⟨g, hg, h⟩ := bind_eq_ok.mp h
      exact (hf.trans (steps_checkColons hg)).trans (steps_checkValue h)

theorem steps_declare {cuts : Nat} {tokens : List Token} {custom : Bool} {terminator : Nat}
    (h : declare cuts a tokens custom terminator = .ok b) : a.Steps b := by
  induction cuts generalizing a b tokens custom with
  | zero =>
      cases h
      exact .refl _
  | succ cuts ih =>
      by_cases hguard : a.mode = .tolerant ∧ isDeclaration tokens = false
      · unfold declare at h
        rw [if_pos hguard] at h
        exact steps_stray h
      · cases hparts : Parts.ofTokens? (Statement.bodyOf tokens) with
        | none =>
            unfold declare at h
            unfold Statement.bodyOf at hparts
            rw [if_neg hguard] at h
            simp only [hparts] at h
            exact steps_stray h
        | some parts =>
            obtain ⟨c, d, missed, hwords, hsplit, hrest⟩ := steps_of_parts hguard hparts ih h
            exact ((steps_unknownWords hwords).trans (steps_splitValue hsplit)).trans hrest

/-! ## Whole texts -/

theorem steps_add {statement : Statement} (h : a.add statement = .ok b) : a.Steps b := by
  cases statement with
  | space t =>
      cases h
      exact (Step.wait _).steps
  | semicolon t =>
      cases h
      exact a.steps_freeSemicolon t
  | close t => exact steps_closeBlock h
  | comment t =>
      cases h
      exact (Step.leaf (a.isNew_commentNode t) _).steps
  | atRule word params ending => exact steps_atRule h
  | rule head brace =>
      cases h
      exact (Step.block (a.isNew_ruleNode head brace) rfl).steps
  | declaration tokens custom terminator opened =>
      obtain ⟨c, hc, h⟩ := bind_eq_ok.mp h
      exact (steps_reportOpened hc).trans (steps_declare h)
  | stray tokens opened =>
      obtain ⟨c, hc, h⟩ := bind_eq_ok.mp h
      exact (steps_reportOpened hc).trans (steps_stray h)
  | failure e => cases h

theorem steps_foldlM_add {statements : List Statement}
    (h : statements.foldlM Assembly.add a = .ok b) : a.Steps b := by
  induction statements generalizing a with
  | nil =>
      cases h
      exact .refl _
  | cons statement statements ih =>
      rw [List.foldlM_cons] at h
      obtain ⟨c, hc, h⟩ := bind_eq_ok.mp h
      exact (steps_add hc).trans (ih h)

/-- Closing what is still open makes each container a child of the one around it. -/
theorem steps_closeOpen {enclosing : List Frame} (henclosing : a.enclosing = enclosing)
    (h : a.closeOpen enclosing = .ok b) : a.Steps b := by
  induction enclosing generalizing a with
  | nil =>
      cases h
      exact .refl _
  | cons outer enclosing ih =>
      have hclosed :=
        (Step.layout (a := a) (f := a.stopNode a.source.size) fun _ ↦ ⟨rfl, rfl, rfl⟩).steps.tail
        (.close henclosing)
      cases enclosing with
      | nil =>
          exact (hclosed.trans (steps_addAfter _ [])).trans (ih rfl h)
      | cons next enclosing =>
          obtain ⟨c, hc, h⟩ := bind_eq_ok.mp h
          obtain ⟨recovery, rfl⟩ := report_eq_ok hc
          exact ((hclosed.trans (steps_report hc)).trans (steps_addAfter _ [])).trans (ih rfl h)

theorem steps_reportHealed {run : TokenRun} (h : a.reportHealed run = .ok b) : a.Steps b := by
  unfold reportHealed at h
  split at h
  · split at h
    · exact steps_report h
    · cases h
      exact .refl _
  · cases h
    exact .refl _

theorem steps_finish {run : TokenRun} (h : a.finish run = .ok b) : a.Steps b := by
  -- Whether the innermost container is reported does not matter for what is closed then.
  have hclose {c : Assembly} (h : (do
        let settled := c.current.settle c.semicolon c.spaces
        let d ← closeOpen { c with current := settled, spaces := [] } c.enclosing
        let stop := d.source.position d.source.size
        reportHealed { d with current := d.current.mapNode (Node.stopAt stop) } run) = .ok b) :
      c.Steps b := by
    obtain ⟨d, hd, h⟩ := bind_eq_ok.mp h
    have hd := ((c.steps_settle c.semicolon c.spaces).tail (.wait [])).trans
      (steps_closeOpen rfl hd)
    let stop := d.source.position d.source.size
    have hstop : d.Steps { d with current := d.current.mapNode (Node.stopAt stop) } :=
      (Step.layout (f := Node.stopAt stop) fun _ ↦ ⟨rfl, rfl, rfl⟩).steps
    exact (hd.trans hstop).trans (steps_reportHealed h)
  unfold finish at h
  dsimp only at h
  split at h
  · exact hclose h
  · obtain ⟨c, hc, h⟩ := bind_eq_ok.mp h
    exact (steps_report hc).trans (hclose h)

theorem steps_of_assemble {source : Source} {mode : Mode} (h : assemble source mode = .ok a) :
    (start source mode).Steps a := by
  unfold assemble at h
  obtain ⟨b, hb, hfinish⟩ := bind_eq_ok.mp h
  exact (steps_foldlM_add hb).trans (steps_finish hfinish)

end Assembly

/-! ## How nodes are made -/

/-- A node is made with a block if there are nodes below it. -/
structure Node.IsMade (n : Node) (below : Forest Node) : Prop extends n.IsNew where
  block : below = .nil ∨ n.hasBlock = true

/-- `f.IsMade` says how the node of an open container, which has a block, and the nodes in it are
made. -/
structure Frame.IsMade (f : Frame) : Prop extends f.node.IsNew where
  block : f.node.hasBlock = true
  earlier : (Forest.ofRev f.earlier).Each Node.IsMade

theorem Frame.isMade_adopt {f : Frame} (hf : f.IsMade) {tree : Node × Forest Node}
    (htree : tree.1.IsMade tree.2) (hbelow : tree.2.Each Node.IsMade) : (f.adopt tree).IsMade :=
  ⟨hf.toIsNew, hf.block, Forest.each_ofRev_cons.mpr ⟨hf.earlier, htree, hbelow⟩⟩

theorem Node.IsNew.layout {n : Node} (h : n.IsNew) {f : Node → Node} (hf : Node.IsLayout f) :
    (f n).IsNew :=
  ⟨(hf n).2.1.trans h.undamaged, (hf n).2.2.trans h.fresh⟩

namespace Assembly

/-- `a.IsMade` says so of all open containers. -/
structure IsMade (a : Assembly) : Prop where
  current : a.current.IsMade
  enclosing : ∀ f ∈ a.enclosing, f.IsMade

variable {a b : Assembly}

theorem IsMade.step (h : a.Step b) (ha : a.IsMade) : b.IsMade := by
  cases h with
  | repair | wait | mark => exact ⟨ha.current, ha.enclosing⟩
  | leaf h semicolon =>
      exact ⟨Frame.isMade_adopt ha.current ⟨h, .inl rfl⟩ trivial, ha.enclosing⟩
  | block h hblock =>
      exact ⟨⟨h, hblock, trivial⟩, List.forall_mem_cons.mpr ⟨ha.current, ha.enclosing⟩⟩
  | layout hf =>
      exact ⟨⟨ha.current.toIsNew.layout hf, (hf _).1.trans ha.current.block, ha.current.earlier⟩,
        ha.enclosing⟩
  | @relayout tree earlier f hearlier hf =>
      have htrees := ha.current.earlier
      rw [hearlier, Forest.each_ofRev_cons] at htrees
      obtain ⟨hearlier, hmade, hbelow⟩ := htrees
      refine ⟨⟨ha.current.toIsNew, ha.current.block, ?_⟩, ha.enclosing⟩
      refine Forest.each_ofRev_cons.mpr ⟨hearlier, ⟨hmade.toIsNew.layout hf, ?_⟩, hbelow⟩
      exact hmade.block.imp id (hf tree.1).1.trans
  | close henclosing =>
      have houter := ha.enclosing
      rw [henclosing, List.forall_mem_cons] at houter
      refine ⟨Frame.isMade_adopt houter.1 ?_ ha.current.earlier, houter.2⟩
      exact ⟨ha.current.toIsNew, .inr ha.current.block⟩

/-- Assembly makes all nodes in this way. -/
theorem isMade_of_assemble {source : Source} {mode : Mode} (h : assemble source mode = .ok a) :
    a.IsMade :=
  (steps_of_assemble h).keeps IsMade.step ⟨⟨⟨rfl, rfl⟩, rfl, trivial⟩, List.forall_mem_nil _⟩

end Assembly

end Stylesheet
