import Mathlib.Data.List.Forall2
import Stylesheet.Proofs.Alignment
import Stylesheet.Proofs.Order
import Stylesheet.Proofs.Pieces
import Stylesheet.Proofs.Regroup
import Stylesheet.Proofs.Reporting
import Stylesheet.Proofs.Reread
import Stylesheet.Text.Slice

/-!
# The declarations that are read

Strict assembly makes one declaration of every statement that is one, and puts it behind those
that it has made before. `Assembly.declarations` lists them, so that one equation says what a
statement adds (`Takes.declarations_eq`). What a declaration keeps of the tokens that it is made
of is `Node.Holds`, and the declarations of a document hold the parts of those of its text, one
after the other (`declarations_of_parse`).
-/

namespace Stylesheet

/-! ## Lists of declarations -/

theorem Forest.toList_append {α : Type} (f g : Forest α) :
    (f ++ g).toList = f.toList ++ g.toList := by
  induction f with
  | nil => rfl
  | cons value below rest _ ih => simp [Forest.toList, ih]

/-- `f.declarations` lists the declarations of a forest in document order. -/
def Forest.declarations (f : Forest Node) : List Node :=
  f.toList.filter (·.type = .declaration)

theorem Forest.declarations_append (f g : Forest Node) :
    (f ++ g).declarations = f.declarations ++ g.declarations := by
  rw [declarations, toList_append, List.filter_append]
  rfl

/-- A node that is no declaration adds only those below it. -/
theorem Forest.declarations_cons {n : Node} (h : n.type ≠ .declaration)
    (below rest : Forest Node) :
    (cons n below rest).declarations = below.declarations ++ rest.declarations := by
  rw [declarations, toList, List.filter_cons_of_neg (by simpa using h), List.filter_append]
  rfl

/-- `f.declarations` lists the finished declarations in a container. -/
def Frame.declarations (f : Frame) : List Node := (Forest.ofRev f.earlier).declarations

theorem Frame.declarations_adopt (f : Frame) (tree : Node × Forest Node) :
    (f.adopt tree).declarations =
      f.declarations ++ (Forest.cons tree.1 tree.2 .nil).declarations := by
  rw [declarations, adopt, Forest.ofRev_cons, Forest.declarations_append]
  rfl

namespace Assembly

variable {a b : Assembly} {stop : Nat} {t : Token} {tokens rest behind : List Token}
  {statement : Statement}

/-- `a.declarations` lists the declarations that have been read, in document order. -/
def declarations (a : Assembly) : List Node :=
  a.enclosing.reverse.flatMap Frame.declarations ++ a.current.declarations

theorem declarations_addLeaf (a : Assembly) (n : Node) (ended : Bool) :
    (a.addLeaf n ended).declarations = a.declarations ++ [n].filter (·.type = .declaration) := by
  rw [declarations, addLeaf, Frame.declarations_adopt, ← List.append_assoc]
  rfl

theorem declarations_openFrame (a : Assembly) (n : Node) :
    (a.openFrame n).declarations = a.declarations := by
  rw [declarations, openFrame, List.reverse_cons, List.flatMap_append, List.flatMap_singleton]
  exact List.append_nil _

/-- A semicolon that a rule takes leaves the declarations alone. -/
theorem declarations_freeSemicolon (a : Assembly) (t : Token) :
    (a.freeSemicolon t).declarations = a.declarations := by
  obtain hwait | ⟨tree, earlier, hearlier, hrule, -, htaken⟩ := a.freeSemicolon_cases t
  · rw [hwait]
    rfl
  · have hne : tree.1.type ≠ .declaration := by rw [hrule]; nofun
    rw [htaken, declarations, declarations, Frame.declarations_adopt,
      Forest.declarations_cons (by exact hne), Frame.eq_adopt hearlier, Frame.declarations_adopt,
      Forest.declarations_cons hne]
    rfl

/-- The declarations of a container that is closed are those of the container around it. -/
theorem declarations_closed {outer : Frame} {enclosing : List Frame}
    (hopen : a.enclosing = outer :: enclosing) (hnode : a.current.node.type ≠ .declaration) :
    (a.closed t outer enclosing).declarations = a.declarations := by
  have htype : (a.closedNode t).type ≠ .declaration := by
    have hkept : (a.closedNode t).type = a.current.node.type := by
      unfold closedNode Frame.settle
      split <;> rfl
    rwa [hkept]
  rw [closed_eq, declarations, declarations, hopen, Frame.declarations_adopt,
    Forest.declarations_cons htype, List.reverse_cons, List.flatMap_append,
    List.flatMap_singleton, List.append_assoc]
  exact congrArg _ (congrArg _ (List.append_nil _))

/-- `a.declared statement` is the declaration that a statement is made into, if it is one. -/
def declared (a : Assembly) : Statement → List Node
  | .declaration tokens custom _ _ =>
      ((Parts.ofTokens? (Statement.bodyOf tokens)).map fun parts ↦
        a.declarationNode custom tokens parts (takeImportant parts.value)).toList
  | _ => []

/-- What a statement adds to the declarations. -/
theorem Takes.declarations_eq (h : a.Takes statement b) (hwhole : a.IsWhole) :
    b.declarations = a.declarations ++ a.declared statement := by
  have hinner {outer : Frame} {enclosing : List Frame}
      (hopen : a.enclosing = outer :: enclosing) :
      a.current.node.type ≠ .declaration := by
    have hnested := hwhole.nested
    rw [hopen] at hnested
    exact hnested.1.ne_declaration
  have hleaf {n : Node} (htype : n.type ≠ .declaration) (ended : Bool) :
      (a.addLeaf n ended).declarations = a.declarations := by
    rw [declarations_addLeaf, List.filter_cons_of_neg (by simpa using htype), List.filter_nil,
      List.append_nil]
  have hatRule : NodeType.atRule ≠ .declaration := nofun
  cases h with
  | declaration _ hparts _ hnode =>
      rw [declarations_addLeaf, declared, hparts, ← hnode]
      rfl
  | space => exact (List.append_nil _).symm
  | semicolon => exact (declarations_freeSemicolon a _).trans (List.append_nil _).symm
  | comment t =>
      have hcomment : (a.commentNode t).type ≠ .declaration := by
        rw [type_commentNode]
        nofun
      rw [comment_eq]
      exact (hleaf hcomment _).trans (List.append_nil _).symm
  | rule | atBlock => exact (declarations_openFrame a _).trans (List.append_nil _).symm
  | close _ hopen =>
      exact (declarations_closed hopen (hinner hopen)).trans (List.append_nil _).symm
  | atEnded | atInput => exact (hleaf (by exact hatRule) _).trans (List.append_nil _).symm
  | atInputParams => exact (hleaf (by exact hatRule) false).trans (List.append_nil _).symm
  | atClose params t _ hopen =>
      refine Eq.trans ?_ (List.append_nil _).symm
      exact (declarations_closed (a := a.addLeaf _ false) hopen (by exact hinner hopen)).trans
        (hleaf (by exact hatRule) _)

end Assembly

/-! ## Scanned tokens -/

/-- `t.IsScanned` says that a token has been scanned by a lexer for plain stylesheets. -/
def Token.IsScanned (t : Token) : Prop :=
  ∃ l next, Lexer.policy l = .fail ∧ l.classifier = .stock ∧ l.scanNext = (.ok (some t), next)

namespace Token.IsScanned

variable {t : Token}

theorem isFormed (h : t.IsScanned) : t.IsFormed := by
  obtain ⟨l, next, hpolicy, -, hscan⟩ := h
  exact Lexer.scanNext_isFormed hpolicy hscan

theorem kind_of_isCustom (h : t.IsScanned) (hcustom : Statement.isCustom t = true) :
    t.kind = .word := by
  obtain ⟨l, next, hpolicy, hclassifier, hscan⟩ := h
  exact (Lexer.isCustom_eq hpolicy hclassifier hscan).2 hcustom

theorem forall_isSpace (h : t.IsScanned) (hkind : t.kind = .space) :
    ∀ c ∈ t.text, Classifier.stock.is .space c = true := by
  obtain ⟨l, next, hpolicy, hclassifier, hscan⟩ := h
  exact Lexer.forall_isSpace hpolicy hclassifier hscan hkind

end Token.IsScanned

theorem Lexer.Reads.isScanned {l after : Lexer} {tokens : List Token} (h : l.Reads tokens after)
    (hpolicy : l.policy = .fail) (hclassifier : l.classifier = .stock) :
    ∀ t ∈ tokens, t.IsScanned := by
  induction h with
  | nil => exact List.forall_mem_nil _
  | cons l next after token tokens hscan _ ih =>
      have hframe := scanNext_frame hscan
      exact List.forall_mem_cons.mpr ⟨⟨l, next, hpolicy, hclassifier, hscan⟩,
        ih (hframe.2.1.trans hpolicy) (hframe.1.trans hclassifier)⟩

theorem Token.isScanned_of_mem_run {text : Text} (h : (run text .fail).failure = none) :
    ∀ t ∈ (run text .fail).tokens, t.IsScanned := by
  obtain ⟨hreads, -⟩ := Lexer.reads_of_runFor (run text .fail)
    (Lexer.isPlain_ofText text .fail .stock) (Nat.le_add_left _ _) rfl h
  exact hreads.isScanned rfl rfl

/-! ## The parts of a declaration -/

/-- Tokens of which a declaration is gathered have a colon among them. -/
theorem Statement.Gathered.exists_colon_of_through {custom : Bool} {expected : List TokenKind}
    {tokens : List Token} {last : List TokenKind}
    (h : through custom (false, expected) tokens = some (true, last)) :
    ∃ t ∈ tokens, t.is .colon = true := by
  induction tokens generalizing expected with
  | nil => cases h
  | cons t rest ih =>
      by_cases hcolon : t.kind = .colon
      · exact ⟨t, List.mem_cons_self, beq_iff_eq.mpr hcolon⟩
      · obtain ⟨⟨colon, next⟩, hnext, hrest⟩ := exists_next?_of_through h
        have hfalse : colon = false := by
          unfold next? at hnext
          grind
        rw [hfalse] at hrest
        obtain ⟨u, hu, hucolon⟩ := ih hrest
        exact ⟨u, List.mem_cons_of_mem _ hu, hucolon⟩

namespace Parts

variable {t : Token} {ts more : List Token} {p : Parts}

/-- `p.valueTokens` are the tokens that the value of a declaration is tidied from. -/
def valueTokens (p : Parts) : List Token :=
  let marked := takeImportant p.value
  (if marked.tokens.all Token.isTrivia then p.gap else []) ++ marked.tokens

theorem mem_tokens_of_mem_valueTokens (h : t ∈ p.valueTokens) : t ∈ p.tokens := by
  unfold valueTokens at h
  rw [tokens, List.append_assoc]
  refine List.mem_append_right _ (List.mem_append.mpr ?_)
  rcases List.mem_append.mp h with hgap | hvalue
  · refine .inl ?_
    split at hgap
    · exact hgap
    · cases hgap
  · exact .inr ((prefix_takeImportant p.value).subset hvalue)

/-- Nothing is behind the first colon where there is none. -/
theorem throughColon_of_forall (h : ∀ t ∈ (throughColon ts).1, t.is .colon = false) :
    (throughColon ts).2 = [] := by
  induction ts with
  | nil => rfl
  | cons t rest ih =>
      unfold throughColon at h ⊢
      split at h
      · next hcolon => exact absurd (h t List.mem_cons_self) (by simp [hcolon])
      · next hcolon =>
          rw [if_neg hcolon]
          exact ih fun u hu ↦ h u (List.mem_cons_of_mem _ hu)

/-- Without a colon there is no value, and none in front of it. -/
theorem value_eq_nil_of_forall (h : ofTokens? ts = some p)
    (hcolon : ∀ t ∈ p.colon, t.is .colon = false) : p.gap = [] ∧ p.value = [] := by
  unfold ofTokens? Token.splitLeading at h
  dsimp only at h
  split at h
  · cases h
  · cases h
    dsimp only at hcolon ⊢
    rw [throughColon_of_forall hcolon]
    exact ⟨rfl, rfl⟩

/-- A name has no colon. -/
theorem forall_mem_name (h : ofTokens? ts = some p) : ∀ t ∈ p.name, t.is .colon = false := by
  unfold ofTokens? Token.splitLeading at h
  dsimp only at h
  split at h
  · cases h
  · cases h
    intro t ht
    have hlead := List.mem_takeWhile_imp ht
    rw [Bool.not_eq_true', Bool.or_eq_false_iff] at hlead
    exact hlead.1

/-- A declaration with tokens of a value has a colon before them. -/
theorem exists_colon_of_valueTokens (h : ofTokens? ts = some p) (hvalue : p.valueTokens ≠ []) :
    ∃ t ∈ p.colon, t.is .colon = true := by
  by_contra hnot
  obtain ⟨hgap, hrest⟩ := value_eq_nil_of_forall h fun t ht ↦
    Bool.eq_false_iff.mpr fun ht' ↦ hnot ⟨t, ht, ht'⟩
  apply hvalue
  rw [valueTokens, hgap, hrest]
  rfl

/-- Behind a word a colon is behind the name. -/
theorem exists_colon_of_word (h : ofTokens? (t :: more) = some p) (hword : t.kind = .word)
    (hcolon : ∃ u ∈ t :: more, u.is .colon = true) : ∃ u ∈ p.colon, u.is .colon = true := by
  by_contra hnot
  have hnone : ∀ u ∈ p.colon, u.is .colon = false := fun u hu ↦
    Bool.eq_false_iff.mpr fun hu' ↦ hnot ⟨u, hu, hu'⟩
  obtain ⟨hgap, hvalue⟩ := value_eq_nil_of_forall h hnone
  obtain ⟨u, hu, hucolon⟩ := hcolon
  rw [← tokens_ofTokens? h, tokens, (starts_of_word h hword).1, hgap, hvalue, List.append_nil,
    List.append_nil, List.nil_append, List.mem_append] at hu
  rcases hu with hu | hu
  · exact absurd hucolon (by simp [forall_mem_name h u hu])
  · exact hnot ⟨u, hu, hucolon⟩

end Parts

/-! ## What a declaration keeps -/

/-- `n.startsWith s text` says that the text that a node was read from starts with `text`. -/
def Node.startsWith (s : Source) (n : Node) (text : Text) : Bool :=
  n.origin.any fun origin ↦
    s.text.slice? origin.start.offset (origin.start.offset + text.utf8Size) = some text

/-- `n.Holds s custom parts` says what a declaration keeps of the parts that it was made of. -/
structure Node.Holds (s : Source) (n : Node) (custom : Bool) (parts : Parts) : Prop where
  value : n.kind.value? = some (Value.ofTokens custom parts.valueTokens).text
  colon : ∃ between, n.raws.between = some between ∧ ':' ∈ between
  present : custom = false → (Value.ofTokens custom parts.valueTokens).text ≠ []
  dashes : custom = true → n.startsWith s "--".toList = true
  scanned : ∀ t ∈ parts.valueTokens, t.IsScanned

/-- `s.parts?` are the parts of a declaration. -/
def Statement.parts? : Statement → Option Parts
  | declaration tokens .. => Parts.ofTokens? (bodyOf tokens)
  | _ => none

namespace Assembly

variable {a b : Assembly} {stop : Nat} {t : Token} {tokens rest behind : List Token}
  {statement : Statement}

/-- A declaration whose name starts with the next token starts with what that token starts
with. -/
theorem Leaves.startsWith_declarationNode {custom : Bool} {parts : Parts} {marked : Marked}
    {us : List Token} {text : Text} (h : a.Leaves (t :: rest)) (hname : parts.name = t :: us)
    (htext : text <+: t.text) :
    (a.declarationNode custom tokens parts marked).startsWith a.source text = true := by
  obtain ⟨more, hmore⟩ := htext
  have hsource : a.source.text = a.written ++ (text ++ (more ++ Token.spelling rest)) := by
    rw [h.text, Token.spelling_cons, ← hmore, List.append_assoc]
  have hstart : (a.source.position (((parts.name.head?).map (·.span.start)).getD 0)).offset =
      a.written.utf8Size := by
    rw [hname, List.head?_cons, Option.map_some, Option.getD_some, h.start_eq,
      Source.position_utf8Size hsource, Position.advanceText_offset]
    exact Nat.zero_add _
  refine decide_eq_true ?_
  show a.source.text.slice?
    (a.source.position (((parts.name.head?).map (·.span.start)).getD 0)).offset
    _ = _
  rw [hstart, hsource, ← Text.utf8Size_append]
  exact Text.slice?_append _ _ _

/-- A declaration keeps what its statement is made of. -/
theorem Takes.holds {custom : Bool} {terminator : Nat} {parts : Parts}
    (hcut : Statement.Cut stop t rest (.declaration tokens custom terminator none) behind)
    (h : a.Takes (.declaration tokens custom terminator none) b) (hleaves : a.Leaves (t :: rest))
    (hscanned : ∀ u ∈ t :: rest, u.IsScanned)
    (hparts : Parts.ofTokens? (Statement.bodyOf tokens) = some parts) :
    (a.declarationNode custom tokens parts (takeImportant parts.value)).Holds a.source custom
      parts := by
  obtain ⟨⟨⟨u, more, hbody, hstarts, hcustom⟩, hthrough⟩, -⟩ := hcut.isDeclared
  obtain ⟨ending, -, htokens⟩ := Statement.bodyOf_append tokens
  have hall : Statement.bodyOf tokens ++ (ending ++ behind) = t :: rest := by
    rw [← List.append_assoc, htokens]
    exact hcut.tokens_append
  have hread : ∀ v ∈ Statement.bodyOf tokens, v.IsScanned := fun v hv ↦
    hscanned v (hall ▸ List.mem_append_left _ hv)
  have htokens := Parts.tokens_ofTokens? hparts
  rw [hbody, List.cons_append, List.cons.injEq] at hall
  obtain ⟨rfl, -⟩ := hall
  have hword (htrue : custom = true) : u.kind = .word :=
    (hread u (hbody ▸ List.mem_cons_self)).kind_of_isCustom (hcustom.trans htrue)
  have hpresent : custom = false → (Value.ofTokens custom parts.valueTokens).text ≠ [] := by
    cases h with
    | declaration _ hparts' _ hnode hvalue hsome _ =>
        cases hparts.symm.trans hparts'
        subst hnode
        exact fun hfalse hnil ↦ hsome hfalse ((Option.some.inj hvalue).symm.trans hnil)
  have hcolon : ∃ v ∈ parts.colon, v.is .colon = true := by
    cases hkind : custom with
    | true =>
        rw [hbody] at hparts hthrough
        exact Parts.exists_colon_of_word hparts (hword hkind)
          (Statement.Gathered.exists_colon_of_through hthrough)
    | false =>
        refine Parts.exists_colon_of_valueTokens hparts fun hnil ↦ hpresent hkind ?_
        rw [hnil]
        rfl
  refine ⟨rfl, ⟨_, rfl, ?_⟩, hpresent, fun htrue ↦ ?_, fun v hv ↦ ?_⟩
  · obtain ⟨v, hv, hvcolon⟩ := hcolon
    have hmem : v ∈ Statement.bodyOf tokens := by
      rw [← htokens, Parts.tokens]
      simp [hv]
    have htext := (hread v hmem).isFormed.single (beq_iff_eq.mp hvcolon) (c := ':') rfl
    refine List.mem_append_left _ (List.mem_flatMap.mpr ⟨v, hv, ?_⟩)
    rw [htext]
    exact List.mem_singleton_self _
  · have htwo : u.text.take 2 = "--".toList := beq_iff_eq.mp (hcustom.trans htrue)
    obtain ⟨-, us, -, hname, -⟩ := Parts.starts_of_word (hbody ▸ hparts) (hword htrue)
    exact hleaves.startsWith_declarationNode hname (htwo ▸ List.take_prefix 2 u.text)
  · exact hread v (htokens ▸ Parts.mem_tokens_of_mem_valueTokens hv)

/-- `Makes s stop R` says that `R` relates every declaration that strict assembly makes of a
statement of the source `s` to the parts that the statement is made of. -/
def Makes (s : Source) (stop : Nat) (R : Node → Parts → Prop) : Prop :=
  ∀ {a b : Assembly} {t : Token} {tokens rest behind : List Token} {custom : Bool}
    {terminator : Nat} {parts : Parts},
    a.source = s → Statement.Cut stop t rest (.declaration tokens custom terminator none) behind →
    a.Takes (.declaration tokens custom terminator none) b → a.Leaves (t :: rest) →
    (∀ u ∈ t :: rest, u.IsScanned) → Parts.ofTokens? (Statement.bodyOf tokens) = some parts →
    R (a.declarationNode custom tokens parts (takeImportant parts.value)) parts

variable {s : Source} {R : Node → Parts → Prop}

/-- What a statement adds to the declarations is related to what the statement is made of. -/
theorem Takes.forall₂_declared (hmakes : Makes s stop R) (hsource : a.source = s)
    (hcut : Statement.Cut stop t rest statement behind) (h : a.Takes statement b)
    (hleaves : a.Leaves (t :: rest)) (hscanned : ∀ u ∈ t :: rest, u.IsScanned) :
    List.Forall₂ R (a.declared statement) statement.parts?.toList := by
  cases statement with
  | declaration tokens custom terminator opened =>
      obtain rfl : opened = none := by
        cases h
        rfl
      cases hparts : Parts.ofTokens? (Statement.bodyOf tokens) with
      | none =>
          simp only [declared, Statement.parts?, hparts]
          exact .nil
      | some parts =>
          simp only [declared, Statement.parts?, hparts]
          exact .cons (hmakes hsource hcut h hleaves hscanned hparts) .nil
  | _ => exact .nil

/-- What a run of tokens adds to the declarations is related to what their statements are made
of. -/
theorem TakesRun.forall₂_declared {steps : Nat} (hmakes : Makes s stop R) (hsource : a.source = s)
    (hrun : TakesRun stop a tokens b) (hwhole : a.IsWhole)
    (hsettled : a.IsSettled ∨ EndsBlock tokens) (hleaves : a.Leaves tokens)
    (htokens : ∀ u ∈ tokens, u.IsScanned ∧ u.healed = false) (hsteps : tokens.length < steps) :
    ∃ added, b.declarations = a.declarations ++ added ∧
      List.Forall₂ R added
      ((Statement.group stop none steps tokens).filterMap Statement.parts?) := by
  induction hrun generalizing steps with
  | nil =>
      obtain ⟨steps, rfl⟩ := Nat.exists_eq_add_one_of_ne_zero (Nat.ne_zero_of_lt hsteps)
      exact ⟨[], (List.append_nil _).symm, .nil⟩
  | @cons a b c t rest statement behind hfirst htakes _ ih =>
      obtain ⟨steps, rfl⟩ := Nat.exists_eq_add_one_of_ne_zero (Nat.ne_zero_of_lt hsteps)
      have hcut := Statement.first_cut stop t rest
      have hlength := Statement.length_first_le stop none t rest
      rw [hfirst] at hcut hlength
      have hshorter : behind.length < steps :=
        Nat.lt_of_le_of_lt hlength (Nat.lt_of_succ_lt_succ hsteps)
      have hb := written_takes hwhole hsettled
        (fun u hu ↦ ⟨(htokens u hu).1.isFormed, (htokens u hu).2⟩) hcut htakes
      have hnew := htakes.forall₂_declared hmakes hsource hcut hleaves fun u hu ↦ (htokens u hu).1
      rw [← hcut.tokens_append] at htokens hleaves
      obtain ⟨added, hadded, hrelated⟩ := ih (htakes.frame.1.trans hsource) hb.whole hb.settled
        (hleaves.advance hb.written htakes.frame.1)
        (fun u hu ↦ htokens u (List.mem_append_right _ hu)) hshorter
      refine ⟨a.declared statement ++ added, ?_, ?_⟩
      · rw [hadded, htakes.declarations_eq hwhole, List.append_assoc]
      · simp only [Statement.group, hfirst, List.filterMap_cons]
        cases hparts : statement.parts? with
        | none =>
            rw [hparts, Option.toList_none, List.forall₂_nil_right_iff] at hnew
            rw [hnew]
            exact hrelated
        | some parts =>
            rw [hparts] at hnew
            exact List.rel_append hnew hrelated

end Assembly

/-! ## Documents that were read -/

theorem Node.Holds.of_unlinked {s : Source} {n m : Node} {custom : Bool} {parts : Parts}
    (h : n.Holds s custom parts) (heq : m.unlinked = n.unlinked) : m.Holds s custom parts := by
  have hkind : m.unlinked.kind = n.unlinked.kind := congrArg Node.kind heq
  have hraws : m.unlinked.raws = n.unlinked.raws := congrArg Node.raws heq
  have horigin : m.unlinked.origin = n.unlinked.origin := congrArg Node.origin heq
  refine ⟨(congrArg Kind.value? hkind).trans h.value, ?_, h.present, fun htrue ↦ ?_, h.scanned⟩
  · obtain ⟨between, hbetween, hcolon⟩ := h.colon
    exact ⟨between, (congrArg Raws.between hraws).trans hbetween, hcolon⟩
  · rw [← h.dashes htrue]
    exact congrArg (Option.any _) horigin

/-- `doc.declarations` lists the declarations below the root, in document order. -/
def Document.declarations (doc : Document) : List NodeId :=
  (doc.walk Document.root).filter (doc.type · = .declaration)

/-- The declarations of a document are those that have been read, up to their links. -/
theorem Assembly.IsWhole.declarations_document {a : Assembly} (h : a.IsWhole)
    (hopen : a.enclosing = []) :
    (a.ended.document.declarations.map a.ended.document.node).map Node.unlinked =
      a.declarations.map Node.unlinked := by
  obtain ⟨top, hdocument, -, hblock, hrecorded, -⟩ := h.document_ended hopen
  have hblocked : (Forest.ofRev a.current.earlier).IsBlocked := hrecorded.imp fun n below hn ↦ by
    by_cases hnil : below = .nil
    · exact .inl hnil
    · exact .inr (hn.block hnil)
  obtain ⟨hunfolds, -, hnodes⟩ := Document.unfolds_ofForest a.source .strict
    (.inr hblock) hblocked
  rw [← hdocument] at hunfolds hnodes
  have hsize : ((Forest.ofRev a.current.earlier).numbers 1).size ≤ a.ended.document.size := by
    rw [hdocument, Document.size_ofForest, Forest.size_numbers, Forest.size]
    omega
  -- Filtering by the sort of a node does not look at its links.
  have hfilter (nodes : List Node) : (nodes.filter (·.type = .declaration)).map Node.unlinked =
      (nodes.map Node.unlinked).filter (·.type = .declaration) := by
    rw [List.filter_map]
    rfl
  have hwalk : (a.ended.document.declarations.map a.ended.document.node) =
      (((a.ended.document.walk Document.root).map a.ended.document.node).filter
        (·.type = .declaration)) := by
    rw [Document.declarations, List.filter_map]
    rfl
  rw [hwalk, hfilter, Document.walk_of_unfolds hunfolds hsize, ← Forest.toList_map,
    ← Forest.toList_map, hnodes, Forest.toList_map, ← hfilter, declarations, hopen]
  rfl

/-- What relates the declarations that assembly makes to their parts, whatever their links are,
relates the declarations of a document that strict reading takes to those of its text, one after
the other. -/
theorem declared_of_parse {source : Source} {doc : Document} {R : Node → Parts → Prop}
    (hmakes : Assembly.Makes source source.size R)
    (hlinks : ∀ {n m : Node} {parts : Parts}, m.unlinked = n.unlinked → R n parts → R m parts)
    (h : parse source .strict = .ok doc) :
    List.Forall₂ (fun id parts ↦ R (doc.node id) parts) doc.declarations
      ((Statement.ofRun source.size (Token.run source.text .fail)).filterMap
        Statement.parts?) := by
  obtain ⟨a, hfailure, hruns, hopen, rfl⟩ := parse_strict_eq_ok.mp h
  have htokens : ∀ u ∈ (Token.run source.text .fail).tokens, u.IsScanned ∧ u.healed = false :=
    fun u hu ↦ ⟨Token.isScanned_of_mem_run hfailure u hu, Token.healed_of_mem_run hfailure hu⟩
  have hleaves : (Assembly.start source .strict).Leaves (Token.run source.text .fail).tokens :=
    ⟨(Token.spelling_run hfailure).symm, Token.placed_run hfailure⟩
  obtain ⟨added, hadded, hrelated⟩ := hruns.forall₂_declared hmakes rfl
    (Assembly.isWhole_start source) (.inl rfl)
    hleaves htokens (Nat.lt_succ_self _)
  have hwhole : a.IsWhole := Assembly.TakesRun.isWhole hfailure hruns
  have hnodes := hwhole.declarations_document hopen
  rw [hadded, show (Assembly.start source .strict).declarations = [] from rfl,
    List.nil_append] at hnodes
  have hrun : Statement.ofRun source.size (Token.run source.text .fail) =
      Statement.group source.size none ((Token.run source.text .fail).tokens.length + 1)
        (Token.run source.text .fail).tokens := by
    rw [Statement.ofRun, hfailure]
  have hunlinked : List.Forall₂ R (added.map Node.unlinked)
      ((Statement.ofRun source.size (Token.run source.text .fail)).filterMap
        Statement.parts?) := by
    rw [hrun, List.forall₂_map_left_iff]
    exact hrelated.imp fun n _ ↦ hlinks (n.unlinked_link none [])
  rw [← hnodes, List.forall₂_map_left_iff, List.forall₂_map_left_iff] at hunlinked
  exact hunlinked.imp fun id _ ↦ hlinks ((a.ended.document.node id).unlinked_link none []).symm

/-- The declarations of a document that strict reading takes keep the parts of the declarations of
its text, one after the other. -/
theorem declarations_of_parse {source : Source} {doc : Document}
    (h : parse source .strict = .ok doc) :
    List.Forall₂ (fun id parts ↦ ∃ custom, (doc.node id).Holds source custom parts)
      doc.declarations
      ((Statement.ofRun source.size (Token.run source.text .fail)).filterMap
        Statement.parts?) := by
  refine declared_of_parse (R := fun n parts ↦ ∃ custom, n.Holds source custom parts) ?_
    (fun heq ⟨custom, hn⟩ ↦ ⟨custom, hn.of_unlinked heq⟩) h
  rintro a b t tokens rest behind custom terminator parts rfl hcut htakes hleaves hscanned hparts
  exact ⟨custom, htakes.holds hcut hleaves hscanned hparts⟩

/-- No declaration of a document that was read is left out. -/
theorem mem_declarations_of_parse {source : Source} {mode : Mode} {doc : Document}
    (h : parse source mode = .ok doc) {id : NodeId} (htype : doc.type id = .declaration) :
    id ∈ doc.declarations := by
  refine List.mem_filter.mpr ⟨?_, decide_eq_true htype⟩
  have hne : id ≠ Document.root := by
    rintro rfl
    rw [(root_of_parse h).2] at htype
    cases htype
  have hlt : id < doc.size := by
    by_contra hnot
    rw [Document.type, Document.node_of_size_le (Nat.le_of_not_lt hnot)] at htype
    cases htype
  obtain ⟨a, hassemble, rfl⟩ := parse_eq_ok.mp h
  have hmade := Assembly.isMade_of_assemble hassemble
  obtain ⟨hunfolds, hsize, -⟩ := hmade.unfolds_document
  rw [Document.walk_of_unfolds hunfolds (by simp [hsize])]
  exact hmade.mem_numbers hne hlt

end Stylesheet
