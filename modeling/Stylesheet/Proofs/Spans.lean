import Stylesheet.Proofs.NodeText
import Stylesheet.Proofs.Places
import Stylesheet.Proofs.Repairs

/-!
# The places of nodes

A node reaches over a range of bytes of the source. `Forest.Nested` says of trees in a row that
they stand in a range, one behind the other, each with the trees below it in its own range.
Assembly in either mode keeps this of all open containers (`Assembly.ReadTo`): it only ever adds a
node behind what has been read. `spans_of_parse` says it of the document.
-/

namespace Stylesheet

/-! ## Nodes and forests -/

namespace Source

/-- `s.IsLast p` says that the position `p` has the line and the column of a character of the
source and the offset behind it. -/
def IsLast (s : Source) (p : Position) : Prop :=
  ∃ before c behind, s.text = before ++ c :: behind ∧
    p = { Position.start.advanceText before with offset := Text.utf8Size (before ++ [c]) }

/-- The end of a range that is not empty is told by its last character. -/
theorem isLast_endPosition {s : Source} {stop : Nat} (h : s.IsBoundary stop) (hpos : 0 < stop) :
    s.IsLast (s.endPosition stop) := by
  obtain ⟨first, second, htext, rfl⟩ := h
  obtain ⟨before, c, rfl⟩ : ∃ before c, first = before ++ [c] := by
    rcases List.eq_nil_or_concat first with rfl | ⟨before, c, rfl⟩
    · exact absurd hpos (Nat.lt_irrefl 0)
    · exact ⟨before, c, List.concat_eq_append⟩
  rw [List.append_assoc, List.singleton_append] at htext
  refine ⟨before, c, second, htext, ?_⟩
  -- The byte before the end belongs to the last character.
  have hsize : Text.utf8Size (before ++ [c]) = Text.utf8Size before + c.utf8Size := by simp
  have hc := c.utf8Size_pos
  have hposition : s.position (Text.utf8Size (before ++ [c]) - 1) =
      Position.start.advanceText before := by
    refine position_of_le htext (by omega) fun d hd ↦ ?_
    cases hd
    omega
  rw [endPosition, hposition]

end Source

namespace Node

/-- `n.StartsAt s start` says that the node was read from the byte offset `start` on. -/
def StartsAt (s : Source) (start : Nat) (n : Node) : Prop :=
  s.IsBoundary start ∧ n.origin.map (·.start) = some (s.position start)

/-- `n.IsRead s start stop` says that the node was read from the bytes from `start` up to
`stop`. -/
structure IsRead (s : Source) (start stop : Nat) (n : Node) : Prop where
  startsAt : n.StartsAt s start
  stop_boundary : s.IsBoundary stop
  lt : start < stop
  origin_stop : n.origin.bind (·.stop) = some (s.endPosition stop)

/-- The range that a node was read from is told by its origin. -/
theorem IsRead.origin_eq {s : Source} {start stop : Nat} {n : Node} (h : n.IsRead s start stop) :
    n.origin = some ⟨s.position start, some (s.endPosition stop)⟩ := by
  obtain ⟨origin, hsome, hstart⟩ := Option.map_eq_some_iff.mp h.startsAt.2
  have hstop := h.origin_stop
  rw [hsome, Option.bind_some] at hstop
  rw [hsome, ← hstart, ← hstop]

theorem IsRead.of_origin {s : Source} {start stop : Nat} {n m : Node} (h : n.IsRead s start stop)
    (horigin : m.origin = n.origin) : m.IsRead s start stop := by
  obtain ⟨⟨hstart, hposition⟩, hstop, hlt, hend⟩ := h
  exact ⟨⟨hstart, by rw [horigin, hposition]⟩, hstop, hlt, by rw [horigin, hend]⟩

theorem StartsAt.stopAt {s : Source} {start stop : Nat} {n : Node} (h : n.StartsAt s start)
    (hstop : s.IsBoundary stop) (hlt : start < stop) :
    (n.stopAt (s.endPosition stop)).IsRead s start stop := by
  obtain ⟨hstart, horigin⟩ := h
  obtain ⟨origin, hsome, hposition⟩ := Option.map_eq_some_iff.mp horigin
  refine ⟨⟨hstart, ?_⟩, hstop, hlt, ?_⟩ <;> rw [Node.stopAt, hsome]
  · exact congrArg some hposition
  · rfl

end Node

namespace Forest

/-- `f.Nested s start stop` says that the trees of `f` were read from ranges of bytes between
`start` and `stop`, one behind the other, and the trees below each node from ranges within its
own. -/
def Nested (s : Source) : Forest Node → Nat → Nat → Prop
  | nil, start, stop => start ≤ stop
  | cons n below rest, start, stop => ∃ first last, start ≤ first ∧ n.IsRead s first last ∧
      below.Nested s first last ∧ rest.Nested s last stop

variable {s : Source} {f g : Forest Node} {start middle stop : Nat}

theorem Nested.le (h : f.Nested s start stop) : start ≤ stop := by
  induction f generalizing start with
  | nil => exact h
  | cons n below rest _ ih =>
      obtain ⟨first, last, hle, hn, -, hrest⟩ := h
      exact Nat.le_trans hle (Nat.le_trans (Nat.le_of_lt hn.lt) (ih hrest))

theorem Nested.mono (h : f.Nested s start stop) {further : Nat} (hle : stop ≤ further) :
    f.Nested s start further := by
  induction f generalizing start with
  | nil => exact Nat.le_trans h hle
  | cons n below rest _ ih =>
      obtain ⟨first, last, hstart, hn, hbelow, hrest⟩ := h
      exact ⟨first, last, hstart, hn, hbelow, ih hrest⟩

theorem nested_append :
    (f ++ g).Nested s start stop ↔ ∃ middle,
      f.Nested s start middle ∧ g.Nested s middle stop := by
  induction f generalizing start with
  | nil =>
      refine ⟨fun h ↦ ⟨start, Nat.le_refl _, h⟩, fun ⟨middle, hle, hg⟩ ↦ ?_⟩
      cases g with
      | nil => exact Nat.le_trans hle hg
      | cons n below rest =>
          obtain ⟨first, last, hmiddle, hn⟩ := hg
          exact ⟨first, last, Nat.le_trans hle hmiddle, hn⟩
  | cons n below rest _ ih =>
      constructor
      · rintro ⟨first, last, hle, hn, hbelow, hrest⟩
        obtain ⟨middle, hrest, hg⟩ := ih.mp hrest
        exact ⟨middle, ⟨first, last, hle, hn, hbelow, hrest⟩, hg⟩
      · rintro ⟨middle, ⟨first, last, hle, hn, hbelow, hrest⟩, hg⟩
        exact ⟨first, last, hle, hn, hbelow, ih.mpr ⟨middle, hrest, hg⟩⟩

/-- Only the origins of nodes matter for where they are. -/
theorem Nested.of_origins (h : f.Nested s start stop)
    (horigins : g.map (·.origin) = f.map (·.origin)) : g.Nested s start stop := by
  induction f generalizing g start stop with
  | nil =>
      rw [map_eq_nil_iff.mp horigins]
      exact h
  | cons n below rest ihBelow ihRest =>
      cases g with
      | nil => cases horigins
      | cons m below' rest' =>
          simp only [map, cons.injEq] at horigins
          obtain ⟨first, last, hle, hn, hbelow, hrest⟩ := h
          exact ⟨first, last, hle, hn.of_origin horigins.1, ihBelow hbelow horigins.2.1,
            ihRest hrest horigins.2.2⟩

/-- One more tree stands behind the others. -/
theorem nested_ofRev_cons {tree : Node × Forest Node} {trees : List (Node × Forest Node)} :
    (ofRev (tree :: trees)).Nested s start stop ↔
      ∃ middle, (ofRev trees).Nested s start middle ∧
        (cons tree.1 tree.2 nil).Nested s middle stop := by
  rw [ofRev_cons, nested_append]

end Forest

/-! ## Open containers -/

namespace Frame

variable {s : Source} {f : Frame} {enclosing : List Frame} {start point : Nat}

/-- `f.IsFilled s start point` says that the node of an open container starts at `start`, and that
what is finished in it was read up to `point`. -/
def IsFilled (s : Source) (start point : Nat) (f : Frame) : Prop :=
  f.node.StartsAt s start ∧ (Forest.ofRev f.earlier).Nested s start point

/-- `f.ReadTo s point enclosing` says this of a container and of those around it, in which
everything is finished that goes before the container. -/
def ReadTo (s : Source) (f : Frame) (point : Nat) : List Frame → Prop
  | [] => ∃ start, f.IsFilled s start point
  | outer :: enclosing =>
      ∃ start, f.IsFilled s start point ∧ start < point ∧ outer.ReadTo s start enclosing

theorem IsFilled.mono (h : f.IsFilled s start point) {further : Nat} (hle : point ≤ further) :
    f.IsFilled s start further :=
  ⟨h.1, h.2.mono hle⟩

theorem ReadTo.mono (h : f.ReadTo s point enclosing) {further : Nat} (hle : point ≤ further) :
    f.ReadTo s further enclosing := by
  cases enclosing with
  | nil =>
      obtain ⟨start, hf⟩ := h
      exact ⟨start, hf.mono hle⟩
  | cons outer enclosing =>
      obtain ⟨start, hf, hlt, houter⟩ := h
      exact ⟨start, hf.mono hle, Nat.lt_of_lt_of_le hlt hle, houter⟩

/-- A container can be filled further, or its layout be changed. -/
theorem ReadTo.imp (h : f.ReadTo s point enclosing) {f' : Frame} {further : Nat}
    (hle : point ≤ further)
    (hf : ∀ start, f.IsFilled s start point → f'.IsFilled s start further) :
    f'.ReadTo s further enclosing := by
  cases enclosing with
  | nil =>
      obtain ⟨start, h⟩ := h
      exact ⟨start, hf start h⟩
  | cons outer enclosing =>
      obtain ⟨start, h, hlt, houter⟩ := h
      exact ⟨start, hf start h, Nat.lt_of_lt_of_le hlt hle, houter⟩

theorem IsFilled.adopt {first last : Nat} (h : f.IsFilled s start point) (hle : point ≤ first)
    {tree : Node × Forest Node} (htree : tree.1.IsRead s first last)
    (hbelow : tree.2.Nested s first last) : (f.adopt tree).IsFilled s start last :=
  ⟨h.1, Forest.nested_ofRev_cons.mpr
    ⟨point, h.2, first, last, hle, htree, hbelow, Nat.le_refl last⟩⟩

theorem isFilled_settle {semicolon : Bool} {spaces : Text} :
    (f.settle semicolon spaces).IsFilled s start point ↔ f.IsFilled s start point := by
  unfold settle
  split <;> exact Iff.rfl

end Frame

namespace Assembly

variable {a b : Assembly} {point further start stop : Nat} {t : Token} {tokens : List Token}

/-- `a.ReadTo point` says that all nodes of the assembly were read from the bytes before `point`,
and stand one behind the other and within each other. -/
def ReadTo (a : Assembly) (point : Nat) : Prop :=
  a.current.ReadTo a.source point a.enclosing

theorem ReadTo.mono (h : a.ReadTo point) (hle : point ≤ further) : a.ReadTo further :=
  Frame.ReadTo.mono h hle

/-! ## Adding nodes -/

theorem ReadTo.addLeaf (h : a.ReadTo point) {first last : Nat} (hle : point ≤ first) {n : Node}
    (hn : n.IsRead a.source first last) (semicolon : Bool) :
    (a.addLeaf n semicolon).ReadTo last :=
  Frame.ReadTo.imp h (Nat.le_trans hle (Nat.le_of_lt hn.lt)) fun _ hf ↦
    hf.adopt hle hn (Nat.le_of_lt hn.lt)

theorem ReadTo.openFrame (h : a.ReadTo point) {first : Nat} (hle : point ≤ first) {n : Node}
    (hn : n.StartsAt a.source first) (hlt : first < further) : (a.openFrame n).ReadTo further :=
  ⟨first, ⟨hn, Nat.le_of_lt hlt⟩, hlt, h.mono hle⟩

/-- The innermost container ends at a boundary behind what has been read. -/
theorem ReadTo.close (h : a.ReadTo point) {outer : Frame} {enclosing : List Frame}
    (hopen : a.enclosing = outer :: enclosing) (hle : point ≤ stop)
    (hstop : a.source.IsBoundary stop) :
    (outer.adopt (a.current.mapNode (a.stopNode stop)).tree).ReadTo a.source stop enclosing := by
  unfold ReadTo at h
  rw [hopen] at h
  obtain ⟨start, ⟨hnode, hearlier⟩, hlt, houter⟩ := h
  refine houter.imp (Nat.le_trans (Nat.le_of_lt hlt) hle) fun _ houter ↦
    houter.adopt (Nat.le_refl _) ?_ ?_
  · exact hnode.stopAt hstop (Nat.lt_of_lt_of_le hlt hle)
  · exact hearlier.mono hle

/-! ## Statements -/

theorem startsAt_newNode (a : Assembly) (kind : Kind) {start : Nat}
    (hstart : a.source.IsBoundary start) : (a.newNode kind start).StartsAt a.source start :=
  ⟨hstart, rfl⟩

theorem ReadTo.freeSemicolon (h : a.ReadTo point) (t : Token) :
    (a.freeSemicolon t).ReadTo point := by
  obtain hwait | ⟨tree, earlier, hearlier, -, -, htaken⟩ := a.freeSemicolon_cases t
  · rw [hwait]
    exact h
  · rw [htaken]
    refine Frame.ReadTo.imp h (Nat.le_refl _) fun start hf ↦ ⟨hf.1, ?_⟩
    have htrees := hf.2
    rw [hearlier, Forest.nested_ofRev_cons] at htrees
    obtain ⟨middle, hf, first, last, hle, ⟨hstart, hstop, hlt, horigin⟩, hrest⟩ := htrees
    exact Forest.nested_ofRev_cons.mpr
      ⟨middle, hf, first, last, hle, ⟨hstart, hstop, hlt, horigin⟩, hrest⟩

/-- What only repairs change is not read from elsewhere. -/
theorem ReadTo.of_quiet (h : a.ReadTo point) (hquiet : b.quiet = a.quiet) : b.ReadTo point := by
  have hread : b.quiet.ReadTo point := by
    rw [hquiet]
    exact h
  exact hread

theorem source_of_quiet (hquiet : b.quiet = a.quiet) : b.source = a.source :=
  congrArg (·.source) hquiet

theorem ReadTo.stray (h : a.ReadTo point) (hb : a.stray tokens = .ok b) : b.ReadTo point :=
  ReadTo.of_quiet (a := a.wait (Token.spelling tokens)) h (quiet_stray hb)

theorem ReadTo.closeBlock (h : a.ReadTo start) (ht : Token.Placed a.source start [t] stop)
    (hb : a.closeBlock t = .ok b) : b.ReadTo stop := by
  obtain ⟨-, -, hrest⟩ := ht.head
  cases hrest
  have hsettled : ({ a with
      semicolon := false
      spaces := []
      current := a.current.settle a.semicolon a.spaces } : Assembly).ReadTo start :=
    Frame.ReadTo.imp h (Nat.le_refl _) fun _ hf ↦ Frame.isFilled_settle.mpr hf
  unfold Assembly.closeBlock at hb
  cases henclosing : a.enclosing with
  | cons outer enclosing =>
      simp only [henclosing] at hb
      cases hb
      exact hsettled.close henclosing ht.le ht.isBoundary_stop
  | nil =>
      simp only [henclosing] at hb
      obtain ⟨c, hc, hb⟩ := bind_eq_ok.mp hb
      cases hb
      rw [henclosing] at hsettled
      have hc := hsettled.of_quiet (quiet_report hc)
      exact Frame.ReadTo.imp hc ht.le fun _ hf ↦ hf.mono ht.le

/-- The parameters of an at-rule without what is around them end where the at-rule ends. -/
theorem place_atRuleCore {s : Source} {params : List Token}
    (h : Token.Placed s start params stop) :
    start ≤ Token.stopOr (atRuleCore params) start ∧
      Token.stopOr (atRuleCore params) start ≤ stop ∧
      s.IsBoundary (Token.stopOr (atRuleCore params) start) := by
  have happend := Token.splitTrailing_append Token.isTrivia params
  rw [← Token.splitLeading_append Token.isTrivia (Token.splitTrailing Token.isTrivia params).1]
    at happend
  rw [← happend] at h
  obtain ⟨middle, hfirst, htrivia⟩ := h.split
  obtain ⟨first, hlead, hcore⟩ := hfirst.split
  by_cases hempty : atRuleCore params = []
  · rw [hempty]
    exact ⟨Nat.le_refl _, Nat.le_trans hfirst.le htrivia.le, hfirst.isBoundary_start⟩
  · have hstop : Token.stopOr (atRuleCore params) start = middle := hcore.stopOr_eq hempty start
    rw [hstop]
    exact ⟨hfirst.le, htrivia.le, hfirst.isBoundary_stop⟩

theorem ReadTo.atRule {word : Token} {params : List Token} {ending : AtRuleEnd}
    (h : a.ReadTo start)
    (hplaced : Token.Placed a.source start (word :: params ++ ending.tokens) stop)
    (hb : a.atRule word params ending = .ok b) : b.ReadTo stop := by
  obtain ⟨c, hquiet, -, hb⟩ := quiet_atRule hb
  replace h := h.of_quiet hquiet
  rw [← source_of_quiet hquiet, List.cons_append] at hplaced
  have hboundary := hplaced.isBoundary_start
  obtain ⟨hstart, hlt, hbehind⟩ := hplaced.head
  obtain ⟨last, hparams, hending⟩ := hbehind.split
  have hnode (between : Text) : (c.atRuleNode word params between).StartsAt c.source start := by
    rw [← hstart] at hboundary ⊢
    exact ⟨hboundary, rfl⟩
  have hwhole : (c.atRuleWhole word params).StartsAt c.source start := hnode _
  cases ending with
  | semicolon t =>
      cases hb
      obtain ⟨-, hend, hrest⟩ := hending.head
      cases hrest
      have hlt := Nat.lt_of_lt_of_le hlt (Nat.le_trans hparams.le hending.le)
      exact h.addLeaf (Nat.le_refl _) (hwhole.stopAt hending.isBoundary_stop hlt) true
  | block t =>
      cases hb
      have hlt := Nat.lt_of_lt_of_le hlt (Nat.le_trans hparams.le hending.le)
      exact h.openFrame (Nat.le_refl _) hwhole hlt
  | close t =>
      rw [← Token.splitTrailing_append (·.is .space) params] at hparams
      obtain ⟨middle, hfirst, hspaces⟩ := hparams.split
      have hstop : atRuleStop word params = middle := hfirst.stopOr_start
      unfold atRuleBody at hb
      rw [hstop] at hb
      have hleaf := hwhole.stopAt hfirst.isBoundary_stop (Nat.lt_of_lt_of_le hlt hfirst.le)
      exact ((h.addLeaf (Nat.le_refl _) hleaf false).mono hspaces.le).closeBlock hending hb
  | input =>
      cases hending
      obtain ⟨hfirst, hle, hstop⟩ := place_atRuleCore hparams
      have hlt := Nat.lt_of_lt_of_le hlt hfirst
      unfold atRuleBody at hb
      dsimp only at hb
      split at hb
      · cases hb
        exact (h.addLeaf (Nat.le_refl _) ((hnode _).stopAt hstop hlt) false).mono hle
      · cases hb
        exact (h.addLeaf (Nat.le_refl _) ((hnode _).stopAt hstop hlt) false).mono hle
  | failure e => cases hb

/-! ## Declarations -/

/-- The tokens of a declaration are what is stray in front of it, its head, and its value with
what ends it. -/
theorem place_parts {s : Source} {parts : Parts}
    (hparts : Parts.ofTokens? (Statement.bodyOf tokens) = some parts)
    (h : Token.Placed s start tokens stop) :
    ∃ first middle last, start ≤ first ∧ s.IsBoundary first ∧ first < middle ∧
      Token.Placed s middle parts.value last ∧ last ≤ stop ∧
      ((parts.name.head?).map (·.span.start)).getD 0 = first := by
  obtain ⟨ending, -, htokens⟩ := Statement.bodyOf_append tokens
  rw [← htokens, ← Parts.tokens_ofTokens? hparts] at h
  unfold Parts.tokens at h
  obtain ⟨last, h, hending⟩ := h.split
  obtain ⟨middle, h, hvalue⟩ := h.split
  obtain ⟨gap, h, hgap⟩ := h.split
  obtain ⟨colon, h, hcolon⟩ := h.split
  obtain ⟨first, hstray, hname⟩ := h.split
  obtain ⟨⟨w, more, hw, -⟩, -⟩ := Parts.heads_ofTokens? hparts
  rw [hw] at hname
  have hlt := Nat.lt_of_lt_of_le (hname.lt_of_ne_nil (List.cons_ne_nil w more)) hcolon.le
  refine ⟨first, middle, last, hstray.le, hname.isBoundary_start, Nat.lt_of_lt_of_le hlt hgap.le,
    hvalue, hending.le, ?_⟩
  rw [hw]
  exact hname.head.1

/-- The node of a declaration reaches from its name to the end of its tokens. -/
theorem isRead_declarationNode {parts : Parts} {first : Nat} (custom : Bool) (marked : Marked)
    (hplaced : Token.Placed a.source start tokens stop) (hne : tokens ≠ [])
    (hboundary : a.source.IsBoundary first) (hlt : first < stop)
    (hfirst : ((parts.name.head?).map (·.span.start)).getD 0 = first) :
    (a.declarationNode custom tokens parts marked).IsRead a.source first stop := by
  have hstop := hplaced.stopOr_eq hne 0
  subst hfirst
  refine ⟨⟨hboundary, rfl⟩, hplaced.isBoundary_stop, hlt, ?_⟩
  rw [← hstop]
  rfl

theorem ReadTo.declare {cuts : Nat} {custom : Bool} {terminator : Nat} (h : a.ReadTo start)
    (hplaced : Token.Placed a.source start tokens stop)
    (hb : declare cuts a tokens custom terminator = .ok b) : b.ReadTo stop := by
  induction cuts generalizing a b start stop tokens custom with
  | zero =>
      cases hb
      exact h.mono hplaced.le
  | succ cuts ih =>
      cases declares_of_declare hb with
      | stray _ hb => exact (h.mono hplaced.le).stray hb
      | @single parts hparts hb =>
          obtain ⟨first, middle, last, hle, hboundary, hlt, hvalue, hlast, hfirst⟩ :=
            place_parts hparts hplaced
          have hnode := isRead_declarationNode custom (takeImportant parts.value) hplaced
            (ne_nil_of_parts hparts) hboundary
            (Nat.lt_of_lt_of_le hlt (Nat.le_trans hvalue.le hlast)) hfirst
          exact (h.addLeaf hle hnode _).of_quiet hb
      | @cut parts missed c d hparts hmissed hc hd hb _ =>
          obtain ⟨first, middle, last, hle, hboundary, hlt, hvalue, hlast, hfirst⟩ :=
            place_parts hparts hplaced
          have hnode := isRead_declarationNode custom (takeImportant missed.kept) hplaced
            (ne_nil_of_parts hparts) hboundary
            (Nat.lt_of_lt_of_le hlt (Nat.le_trans hvalue.le hlast)) hfirst
          -- The value does not start with white space, so that something of it is kept.
          obtain ⟨happend, hkept⟩ := Missed.append_of_ofValue? hmissed
          have hne : missed.kept ≠ [] := by
            refine hkept fun t ht ↦ ?_
            have htrivia := (Parts.heads_ofTokens? hparts).2 t ht
            cases hspace : t.is .space
            · rfl
            · simp only [Token.is, beq_iff_eq] at hspace
              simp [Token.isTrivia, hspace, TokenKind.isTrivia] at htrivia
          rw [← happend] at hvalue
          obtain ⟨next, hvalue, hnext⟩ := hvalue.split
          obtain ⟨gap, hkept, hgap⟩ := hvalue.split
          have hcut : (a.cutNode custom tokens parts missed).IsRead a.source first gap := by
            have hlt := Nat.lt_of_lt_of_le hlt hkept.le
            unfold cutNode
            rw [if_neg (mt List.isEmpty_iff.mp hne), hkept.stopOr_eq hne]
            exact hnode.startsAt.stopAt hkept.isBoundary_stop hlt
          have hadded : (a.addCut custom tokens parts missed).ReadTo next :=
            (h.addLeaf hle hcut (Statement.isEnded tokens)).mono hgap.le
          have hsource : c.source = a.source :=
            source_of_quiet (a := a.addCut custom tokens parts missed) hc
          have hnext := ih (hadded.of_quiet hc) (by rw [hsource]; exact hnext) hd
          exact ReadTo.of_quiet (a := { d with semicolon := Statement.isEnded tokens })
            (hnext.mono hlast) hb

/-! ## Whole texts -/

/-- A statement is read from the bytes of its tokens. -/
theorem ReadTo.add {statement : Statement} (h : a.ReadTo start)
    (hplaced : Token.Placed a.source start statement.tokens stop) (hb : a.add statement = .ok b) :
    b.ReadTo stop := by
  cases statement with
  | space t =>
      cases hb
      exact h.mono hplaced.le
  | semicolon t =>
      cases hb
      exact (h.mono hplaced.le).freeSemicolon t
  | close t => exact h.closeBlock hplaced hb
  | comment t =>
      cases hb
      obtain ⟨rfl, hlt, hrest⟩ := hplaced.head
      cases hrest
      have hstart := a.startsAt_newNode (commentKind t.text t.healed).1 hplaced.isBoundary_start
      have hnode : (a.commentNode t).IsRead a.source t.span.start t.span.stop :=
        ⟨hstart, hplaced.isBoundary_stop, hlt, rfl⟩
      exact h.addLeaf (Nat.le_refl _) hnode a.semicolon
  | atRule word params ending => exact h.atRule hplaced hb
  | rule head brace =>
      cases hb
      obtain ⟨t, more, hcons, hfirst⟩ : ∃ t more, head ++ [brace] = t :: more ∧
          head.head?.getD brace = t := by
        cases head with
        | nil => exact ⟨brace, [], rfl, rfl⟩
        | cons t head => exact ⟨t, head ++ [brace], rfl, rfl⟩
      have hboundary := hplaced.isBoundary_start
      have hlt := hplaced.lt_of_ne_nil (by simp [Statement.tokens])
      have hstart : (head.head?.getD brace).span.start = start := by
        rw [Statement.tokens, hcons] at hplaced
        rw [hfirst]
        exact hplaced.head.1
      subst hstart
      exact h.openFrame (Nat.le_refl _) ⟨hboundary, rfl⟩ hlt
  | declaration tokens custom terminator opened =>
      obtain ⟨c, hc, hb⟩ := bind_eq_ok.mp hb
      have hc := quiet_reportOpened hc
      have hsource := source_of_quiet hc
      exact (h.of_quiet hc).declare (by rw [hsource]; exact hplaced) hb
  | stray tokens opened =>
      obtain ⟨c, hc, hb⟩ := bind_eq_ok.mp hb
      exact ((h.mono hplaced.le).of_quiet (quiet_reportOpened hc)).stray hb
  | failure e => cases hb

theorem ReadTo.group {size steps : Nat} (h : a.ReadTo start) (hsteps : tokens.length < steps)
    (hplaced : Token.Placed a.source start tokens stop)
    (hb : (Statement.group size none steps tokens).foldlM Assembly.add a = .ok b) :
    b.ReadTo stop := by
  induction steps generalizing a start tokens with
  | zero => exact absurd hsteps (Nat.not_lt_zero _)
  | succ steps ih =>
      cases tokens with
      | nil =>
          cases hb
          exact h.mono hplaced.le
      | cons t rest =>
          simp only [Statement.group, List.foldlM_cons] at hb
          obtain ⟨c, hc, hb⟩ := bind_eq_ok.mp hb
          rw [← Statement.tokens_first size t rest] at hplaced
          obtain ⟨middle, hfirst, hbehind⟩ := hplaced.split
          have hlength := Statement.length_first_le size none t rest
          rw [← (steps_add hc).source_eq] at hbehind
          refine ih (h.add hfirst hc) ?_ hbehind hb
          exact Nat.lt_of_le_of_lt hlength (Nat.lt_of_succ_lt_succ hsteps)

/-- Closing what is still open ends it where the source ends. -/
theorem ReadTo.closeOpen {enclosing : List Frame} (h : a.ReadTo a.source.size)
    (henclosing : a.enclosing = enclosing) (hb : a.closeOpen enclosing = .ok b) :
    b.ReadTo b.source.size ∧ b.enclosing = [] := by
  induction enclosing generalizing a with
  | nil =>
      cases hb
      exact ⟨h, henclosing⟩
  | cons outer enclosing ih =>
      have hclosed : ({ a with
          current := outer.adopt (a.current.mapNode (a.stopNode a.source.size)).tree
          enclosing } : Assembly).ReadTo a.source.size :=
        h.close henclosing (Nat.le_refl _) a.source.isBoundary_size
      cases enclosing with
      | nil => exact ih (by exact Frame.ReadTo.imp hclosed (Nat.le_refl _) fun _ hf ↦ hf) rfl hb
      | cons next enclosing =>
          obtain ⟨c, hc, hb⟩ := bind_eq_ok.mp hb
          have hread := hclosed.of_quiet (quiet_report hc)
          obtain ⟨recovery, rfl⟩ := report_eq_ok hc
          exact ih (by exact Frame.ReadTo.imp hread (Nat.le_refl _) fun _ hf ↦ hf) rfl hb

/-- `a.IsPlaced` says that the root of a finished document is read over the whole rest of the
source from where it starts, and the nodes below it from ranges within. -/
def IsPlaced (a : Assembly) : Prop :=
  ∃ start, a.source.IsBoundary start ∧ a.current.node.origin =
      some ⟨a.source.position start, some (a.source.position a.source.size)⟩ ∧
    (Forest.ofRev a.current.earlier).Nested a.source start a.source.size

theorem IsPlaced.of_quiet (h : a.IsPlaced) (hquiet : b.quiet = a.quiet) : b.IsPlaced := by
  have hplaced : b.quiet.IsPlaced := by
    rw [hquiet]
    exact h
  exact hplaced

theorem ReadTo.finish {run : TokenRun} (h : a.ReadTo a.source.size) (hb : a.finish run = .ok b) :
    b.IsPlaced := by
  have hsettled {c : Assembly} (h : c.ReadTo c.source.size) : Assembly.ReadTo { c with
      current := c.current.settle c.semicolon c.spaces
      spaces := [] } c.source.size :=
    Frame.ReadTo.imp h (Nat.le_refl _) fun _ hf ↦ Frame.isFilled_settle.mpr hf
  have hstopped {c : Assembly} (h : c.ReadTo c.source.size) (hclosed : c.enclosing = []) :
      Assembly.IsPlaced { c with
        current := c.current.mapNode (Node.stopAt (c.source.position c.source.size)) } := by
    unfold ReadTo at h
    rw [hclosed] at h
    obtain ⟨start, ⟨hboundary, horigin⟩, hnested⟩ := h
    obtain ⟨origin, hsome, hposition⟩ := Option.map_eq_some_iff.mp horigin
    refine ⟨start, hboundary, ?_, hnested⟩
    simp [Frame.mapNode, Node.stopAt, hsome, ← hposition]
  obtain ⟨c, d, hquiet, hd, hb, -, -⟩ := finish_quiet hb
  have hc : c.ReadTo c.source.size := by
    rw [source_of_quiet hquiet]
    exact h.of_quiet hquiet
  obtain ⟨hread, hclosed⟩ := (hsettled hc).closeOpen rfl hd
  exact (hstopped hread hclosed).of_quiet hb

/-- What is read from a source is placed in it. -/
theorem isPlaced_of_assemble {source : Source} {mode : Mode} (h : assemble source mode = .ok a) :
    a.source = source ∧ a.IsPlaced := by
  have hsource := (steps_of_assemble h).source_eq
  unfold assemble at h
  obtain ⟨b, hfold, hfinish⟩ := bind_eq_ok.mp h
  have hnone := failure_eq_none_of_group (Nat.lt_succ_self _) hfold
  have hplaced := Token.placed_run hnone
  have hstart : (start source mode).ReadTo 0 := by
    refine ⟨0, ⟨source.isBoundary_zero, ?_⟩, Nat.le_refl 0⟩
    exact congrArg some source.position_zero.symm
  unfold Statement.ofRun at hfold
  rw [hnone] at hfold
  have hread := hstart.group (Nat.lt_succ_self _) hplaced hfold
  have hb : b.source = source := (steps_foldlM_add hfold).source_eq
  rw [← hb] at hread
  exact ⟨hsource, hread.finish hfinish⟩

end Assembly

/-! ## Documents -/

namespace Document

/-- `doc.Reaches id start stop` says that a node was read from the text between two positions. -/
def Reaches (doc : Document) (id : NodeId) (start stop : Position) : Prop :=
  (doc.node id).origin = some ⟨start, some stop⟩

/-- `doc.ReachIn s start stop ids` says that nodes were read from ranges of bytes between `start`
and `stop`, one behind the other. -/
structure ReachIn (doc : Document) (s : Source) (start stop : Nat)
    (ids : List NodeId) : Prop where
  within : ∀ id ∈ ids, ∃ first last, start ≤ first ∧ last ≤ stop ∧
    (doc.node id).IsRead s first last
  ordered : ids.Pairwise fun id later ↦ ∀ first last next further,
    doc.Reaches id first last → doc.Reaches later next further → last.offset ≤ next.offset

variable {doc : Document} {s : Source} {ids : List NodeId} {f : Forest NodeId} {start stop : Nat}

theorem Reaches.offsets {id : NodeId} {first last : Position} (h : doc.Reaches id first last)
    (hread : (doc.node id).IsRead s start stop) :
    first = s.position start ∧ last = s.endPosition stop ∧
      first.offset = start ∧ last.offset = stop := by
  unfold Reaches at h
  rw [hread.origin_eq] at h
  cases h
  exact ⟨rfl, rfl, hread.startsAt.1.offset_position, rfl⟩

/-- Nodes whose trees stand in a range stand in it, and so do the children of each node below them
in its own range. -/
theorem Unfolds.reachIn (h : doc.Unfolds ids f) (hnested : (f.map doc.node).Nested s start stop) :
    doc.ReachIn s start stop ids ∧ ∀ id ∈ f.toList, ∃ first last,
      (doc.node id).IsRead s first last ∧ start ≤ first ∧ last ≤ stop ∧
        doc.ReachIn s first last (doc.children id) := by
  induction h generalizing start stop with
  | nil => exact ⟨⟨List.forall_mem_nil _, .nil⟩, List.forall_mem_nil _⟩
  | cons id ids below rest _ _ ihBelow ihRest =>
      obtain ⟨first, last, hle, hread, hbelow, hrest⟩ := hnested
      obtain ⟨hchildren, hdeep⟩ := ihBelow hbelow
      obtain ⟨hlater, hbehind⟩ := ihRest hrest
      have hlt := hread.lt
      have hstop := hrest.le
      refine ⟨⟨?_, ?_⟩, ?_⟩
      · refine List.forall_mem_cons.mpr ⟨⟨first, last, hle, hstop, hread⟩, fun later hin ↦ ?_⟩
        obtain ⟨next, further, hnext, hfurther, hlater⟩ := hlater.within later hin
        exact ⟨next, further, by omega, hfurther, hlater⟩
      · refine List.pairwise_cons.mpr ⟨fun later hin first' last' next' further' hid hit ↦ ?_,
          hlater.ordered⟩
        obtain ⟨next, further, hnext, -, hlater⟩ := hlater.within later hin
        rw [(hid.offsets hread).2.2.2, (hit.offsets hlater).2.2.1]
        exact hnext
      · intro inner hin
        rcases List.mem_cons.mp hin with rfl | hin
        · exact ⟨first, last, hread, hle, hstop, hchildren⟩
        · rcases List.mem_append.mp hin with hin | hin
          · obtain ⟨next, further, hinner, hnext, hfurther, hbelow⟩ := hdeep inner hin
            exact ⟨next, further, hinner, by omega, by omega, hbelow⟩
          · obtain ⟨next, further, hinner, hnext, hfurther, hbelow⟩ := hbehind inner hin
            exact ⟨next, further, hinner, by omega, hfurther, hbelow⟩

/-- `doc.SpansNest s` says that each node of a document was read from a range of the source, with
the children of a node one behind the other within its range. A range starts at the position of
its first character and, but for the root, ends behind its last one. -/
structure SpansNest (doc : Document) (s : Source) : Prop where
  reaches : ∀ id < doc.size, ∃ start stop, doc.Reaches id start stop ∧
    start.offset ≤ stop.offset ∧ stop.offset ≤ s.size ∧ start = s.position start.offset ∧
    if id = root then stop = s.position s.size else s.IsLast stop
  within : ∀ parent child start stop first last, child ∈ doc.children parent →
    doc.Reaches parent start stop → doc.Reaches child first last →
      start.offset ≤ first.offset ∧ last.offset ≤ stop.offset
  ordered : ∀ parent, (doc.children parent).Pairwise fun child later ↦
    ∀ first last next further, doc.Reaches child first last → doc.Reaches later next further →
      last.offset ≤ next.offset

/-- A document nests if its root reaches up to the end of the source, and the trees below it,
which have all other nodes, stand within. -/
theorem spansNest_of_unfolds (hunfolds : doc.Unfolds (doc.children root) f)
    (hroot : doc.Reaches root (s.position start) (s.position s.size))
    (hstart : s.IsBoundary start) (hnested : (f.map doc.node).Nested s start s.size)
    (hnodes : ∀ id < doc.size, id ≠ root → id ∈ f.toList) : doc.SpansNest s := by
  obtain ⟨htops, hbelow⟩ := hunfolds.reachIn hnested
  have hsize : (s.position s.size).offset = s.size := s.isBoundary_size.offset_position
  -- The children of a node are in its range, which is told by its origin.
  have hchildren {id : NodeId} (hid : id < doc.size) : ∃ first last,
      doc.ReachIn s first last (doc.children id) ∧
        ∀ start stop, doc.Reaches id start stop → start.offset = first ∧ stop.offset = last := by
    by_cases hne : id = root
    · subst hne
      refine ⟨start, s.size, htops, fun first last hreaches ↦ ?_⟩
      unfold Reaches at hroot hreaches
      rw [hroot] at hreaches
      cases hreaches
      exact ⟨hstart.offset_position, hsize⟩
    · obtain ⟨first, last, hread, -, -, hin⟩ := hbelow id (hnodes id hid hne)
      exact ⟨first, last, hin, fun _ _ hreaches ↦ (hreaches.offsets hread).2.2⟩
  have hlt {parent child : NodeId} (hchild : child ∈ doc.children parent) : parent <
      doc.size := by
    refine Nat.lt_of_not_le fun hle ↦ ?_
    rw [doc.children_of_size_le hle] at hchild
    cases hchild
  refine ⟨fun id hid ↦ ?_, fun parent child start stop first last hchild hparent hreaches ↦ ?_,
    fun parent ↦ ?_⟩
  · by_cases hne : id = root
    · subst hne
      refine ⟨_, _, hroot, ?_, Nat.le_of_eq hsize, ?_, rfl⟩
      · rw [hstart.offset_position, hsize]
        exact hstart.le_size
      · rw [hstart.offset_position]
    · obtain ⟨first, last, hread, -, hle, -⟩ := hbelow id (hnodes id hid hne)
      have hfirst := hread.startsAt.1.offset_position
      refine ⟨_, _, hread.origin_eq, ?_, hle, by rw [hfirst], ?_⟩
      · rw [hfirst]
        exact Nat.le_of_lt hread.lt
      · rw [if_neg hne]
        exact s.isLast_endPosition hread.stop_boundary
          (Nat.lt_of_le_of_lt (Nat.zero_le _) hread.lt)
  · obtain ⟨outer, further, hin, hoffsets⟩ := hchildren (hlt hchild)
    obtain ⟨hstart, hstop⟩ := hoffsets start stop hparent
    obtain ⟨inner, last', hfirst, hlast, hread⟩ := hin.within child hchild
    obtain ⟨-, -, hinner, hinnerStop⟩ := hreaches.offsets hread
    omega
  · by_cases hparent : parent < doc.size
    · obtain ⟨_, _, hin, -⟩ := hchildren hparent
      exact hin.ordered
    · rw [doc.children_of_size_le (Nat.le_of_not_lt hparent)]
      exact .nil

end Document

/-- In either mode, each node of a document that was read has a range of the source, children are
within their parents and behind each other, and the positions are those of the text. -/
theorem spans_of_parse {source : Source} {mode : Mode} {doc : Document}
    (h : parse source mode = .ok doc) : doc.SpansNest source := by
  obtain ⟨final, hfinal, rfl⟩ := parse_eq_ok.mp h
  obtain ⟨rfl, start, hstart, hroot, hnested⟩ := Assembly.isPlaced_of_assemble hfinal
  have hmade := Assembly.isMade_of_assemble hfinal
  obtain ⟨hunfolds, hsize, htop, hforest⟩ := hmade.unfolds_document
  have horigin := congrArg Node.origin htop
  have horigins := congrArg (Forest.map (·.origin)) hforest
  simp only [Forest.map_map] at horigins
  refine Document.spansNest_of_unfolds hunfolds (horigin.trans hroot) hstart
    (hnested.of_origins (by rw [Forest.map_map]; exact horigins)) fun id hid hne ↦ ?_
  rw [Forest.toList_numbers, List.mem_range'_1]
  rw [hsize] at hid
  have hpos : 0 < id := Nat.pos_of_ne_zero hne
  omega

/-- Two declarations without a semicolon between them are cut apart, and nest in their rule. -/
theorem spans_of_missed_semicolon :
    ∃ doc, parse ⟨"a{b:c d:e}".toList, none⟩ .tolerant = .ok doc ∧
      doc.children 1 = [2, 3] ∧
      doc.Reaches 1 ⟨1, 1, 0⟩ ⟨1, 10, 10⟩ ∧
      doc.Reaches 2 ⟨1, 3, 2⟩ ⟨1, 5, 5⟩ ∧
      doc.Reaches 3 ⟨1, 7, 6⟩ ⟨1, 9, 9⟩ ∧
      doc.SpansNest ⟨"a{b:c d:e}".toList, none⟩ :=
  ⟨_, rfl, rfl, rfl, rfl, rfl, @spans_of_parse ⟨"a{b:c d:e}".toList, none⟩ .tolerant _ rfl⟩

end Stylesheet
