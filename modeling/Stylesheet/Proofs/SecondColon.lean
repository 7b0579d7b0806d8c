import Mathlib.Data.List.DropRight
import Stylesheet.Proofs.Gathering
import Stylesheet.Proofs.Locating

/-!
# Second colons and brackets

Strict assembly refuses a declaration with a colon in its value that can only belong to another
one. `findColon` looks for it with a number: parentheses count up and down, square brackets do not
count, and no account is taken of what stands in front of the value (`FindsColon`). When the
tokens of the declaration are gathered, on the other hand, it is known from the first token on
which brackets are open (`openBrackets_of_through`), and a colon that is outside all of them and
not directly behind `progid` is an outer colon (`HasOuterColon`).

`finds_iff_outer` says that the two agree on values that are `IsBalanced`: every closing
parenthesis closes one, no colon is within square brackets alone, and no `progid` has two colons
behind it. `refuses_colon_iff` says that a declaration behind statements that are taken is refused
for a colon that is found, which is an outer one if its value is balanced.
-/

namespace Stylesheet

open Statement (closer?)

/-! ## Colons in a value -/

/-- `ColonBehind p tokens` says that there is a colon among tokens, and that `p` holds of the
tokens in front of it. -/
def ColonBehind (p : List Token → Prop) (tokens : List Token) : Prop :=
  ∃ first c behind, tokens = first ++ c :: behind ∧ c.kind = .colon ∧ p first

section ColonBehind

variable {p q : List Token → Prop} {t : Token} {tokens : List Token}

theorem not_colonBehind_nil : ¬ColonBehind p [] := by
  rintro ⟨first, c, behind, h, -⟩
  cases first <;> cases h

theorem colonBehind_cons :
    ColonBehind p (t :: tokens) ↔
      (t.kind = .colon ∧ p []) ∨ ColonBehind (fun first ↦ p (t :: first)) tokens := by
  constructor
  · rintro ⟨_ | ⟨u, first⟩, c, behind, h, hcolon, hp⟩
    · cases h
      exact .inl ⟨hcolon, hp⟩
    · cases h
      exact .inr ⟨first, c, behind, rfl, hcolon, hp⟩
  · rintro (⟨hcolon, hp⟩ | ⟨first, c, behind, rfl, hcolon, hp⟩)
    · exact ⟨[], t, tokens, rfl, hcolon, hp⟩
    · exact ⟨t :: first, c, behind, rfl, hcolon, hp⟩

instance decidableColonBehind (p : List Token → Prop) [DecidablePred p] :
    (tokens : List Token) → Decidable (ColonBehind p tokens)
  | [] => .isFalse not_colonBehind_nil
  | t :: tokens =>
      have := decidableColonBehind (fun first ↦ p (t :: first)) tokens
      decidable_of_iff _ colonBehind_cons.symm

theorem ColonBehind.congr
    (h : ∀ first c behind, tokens = first ++ c :: behind → c.kind = .colon →
      (p first ↔ q first)) :
    ColonBehind p tokens ↔ ColonBehind q tokens := by
  constructor
  · rintro ⟨first, c, behind, htokens, hcolon, hp⟩
    exact ⟨first, c, behind, htokens, hcolon, (h first c behind htokens hcolon).mp hp⟩
  · rintro ⟨first, c, behind, htokens, hcolon, hq⟩
    exact ⟨first, c, behind, htokens, hcolon, (h first c behind htokens hcolon).mpr hq⟩

end ColonBehind

/-! ## The colon that is found -/

/-- `parenDepth tokens` is how many more opening than closing parentheses there are among
tokens. -/
def parenDepth (tokens : List Token) : Int :=
  tokens.foldl (fun depth t ↦ nesting t depth) 0

/-- `behindProgid tokens` says that the last of the tokens is `progid`. -/
def behindProgid (tokens : List Token) : Bool :=
  tokens.getLast?.any isProgid

/-- `sinceProgid tokens` says that the last of the tokens but for colons is `progid`. -/
def sinceProgid (tokens : List Token) : Bool :=
  behindProgid (tokens.rdropWhile (·.is .colon))

/-- `FindsColon value` says that a value has a colon in front of which as many parentheses are
closed as are opened, and that no `progid` is in front of it with nothing but colons in
between. -/
def FindsColon (value : List Token) : Prop :=
  ColonBehind (fun first ↦ parenDepth first = 0 ∧ sinceProgid first = false) value

section FindsColon

variable {t : Token} {tokens value : List Token}

theorem parenDepth_concat (tokens : List Token) (t : Token) :
    parenDepth (tokens ++ [t]) = nesting t (parenDepth tokens) :=
  List.foldl_concat ..

theorem behindProgid_concat (tokens : List Token) (t : Token) :
    behindProgid (tokens ++ [t]) = isProgid t := by
  rw [behindProgid, List.getLast?_concat, Option.any_some]

theorem isProgid_of_colon (h : t.kind = .colon) : isProgid t = false := by
  simp [isProgid, Token.is, h]

theorem sinceProgid_concat_colon (tokens : List Token) (h : t.kind = .colon) :
    sinceProgid (tokens ++ [t]) = sinceProgid tokens := by
  have his : t.is .colon = true := beq_iff_eq.mpr h
  exact congrArg behindProgid (List.rdropWhile_concat_pos _ _ _ his)

theorem sinceProgid_concat (tokens : List Token) (h : t.kind ≠ .colon) :
    sinceProgid (tokens ++ [t]) = isProgid t := by
  rw [sinceProgid, List.rdropWhile_concat_neg _ _ _ (by simpa [Token.is] using h),
    behindProgid_concat]

theorem nesting_of_colon (h : t.kind = .colon) (depth : Int) : nesting t depth = depth := by
  simp [nesting, h]

/-- The search for a colon goes on behind tokens that were read. Outside parentheses the token
that it remembers is `progid` exactly if nothing but colons stand behind one. -/
theorem isSome_findColon_iff (read : List Token) (previous : Token) (tokens : List Token)
    (h : parenDepth read = 0 → sinceProgid read = isProgid previous) :
    (findColon (parenDepth read) previous tokens).isSome = true ↔
      ColonBehind (fun first ↦ parenDepth (read ++ first) = 0 ∧
        sinceProgid (read ++ first) = false) tokens := by
  induction tokens generalizing read previous with
  | nil => exact iff_of_false Bool.false_ne_true not_colonBehind_nil
  | cons t rest ih =>
      have hmore (previous : Token)
          (h : parenDepth (read ++ [t]) = 0 → sinceProgid (read ++ [t]) = isProgid previous) :
          (findColon (nesting t (parenDepth read)) previous rest).isSome = true ↔
            ColonBehind (fun first ↦ parenDepth (read ++ t :: first) = 0 ∧
              sinceProgid (read ++ t :: first) = false)
              rest := by
        have hrest := ih (read ++ [t]) previous h
        simpa only [parenDepth_concat, List.append_assoc, List.singleton_append] using hrest
      rw [findColon, colonBehind_cons, List.append_nil]
      by_cases hcolon : t.kind = .colon
      · have his : t.is .colon = true := beq_iff_eq.mpr hcolon
        by_cases hdepth : parenDepth read = 0
        · cases hprogid : isProgid previous with
          | true =>
              -- A colon behind `progid` is passed over, and `progid` is remembered.
              have hsince := (h hdepth).trans hprogid
              have hrest := hmore previous fun _ ↦ by
                rw [sinceProgid_concat_colon _ hcolon, h hdepth]
              rw [nesting_of_colon hcolon] at hrest
              simp [his, hdepth, hsince, ← hrest]
          | false =>
              simp [his, hcolon, hdepth, (h hdepth).trans hprogid]
        · have hrest := hmore t fun hzero ↦ by
            rw [parenDepth_concat, nesting_of_colon hcolon] at hzero
            exact absurd hzero hdepth
          simp [hdepth, ← hrest]
      · have his : t.is .colon = false := by simpa [Token.is] using hcolon
        have hrest := hmore t fun _ ↦ sinceProgid_concat read hcolon
        simp [his, hcolon, ← hrest]

/-- A value has a colon at its start or a second colon exactly if there is one that is found. -/
theorem findsColon_iff :
    FindsColon value ↔
      (leadingColon value).isSome = true ∨ (secondColon value).isSome = true := by
  cases value with
  | nil => exact iff_of_false not_colonBehind_nil (by rintro (h | h) <;> cases h)
  | cons t rest =>
      rw [FindsColon, colonBehind_cons, secondColon, Option.isSome_map]
      by_cases hcolon : t.kind = .colon
      · exact iff_of_true (.inl ⟨hcolon, rfl, rfl⟩)
          (.inl (by simp [leadingColon, Token.is, hcolon]))
      · have hfind := isSome_findColon_iff [t] t rest fun _ ↦ sinceProgid_concat [] hcolon
        rw [show parenDepth [t] = nesting t 0 from rfl] at hfind
        rw [hfind]
        simp [leadingColon, Token.is, hcolon]

end FindsColon

/-! ## The brackets that are open -/

/-- `nest expected t` are the closers that are expected behind a token of a declaration. A closer
that is not expected closes nothing. -/
def Statement.Gathered.nest (expected : List TokenKind) (t : Token) : List TokenKind :=
  match closer? t.kind, expected with
  | some closer, _ => closer :: expected
  | none, [] => []
  | none, closer :: outer => if t.kind = closer then outer else expected

/-- `openBrackets tokens` are the closers of the brackets that tokens leave open, the innermost
first. -/
def openBrackets (tokens : List Token) : List TokenKind :=
  tokens.foldl Statement.Gathered.nest []

/-- `HasOuterColon head value` says that a value behind other tokens of a declaration has a colon
that is outside all brackets and not directly behind `progid`. -/
def HasOuterColon (head value : List Token) : Prop :=
  ColonBehind (fun first ↦ openBrackets (head ++ first) = [] ∧ behindProgid first = false) value

instance (head value : List Token) : Decidable (HasOuterColon head value) :=
  inferInstanceAs (Decidable (ColonBehind _ value))

namespace Statement.Gathered

theorem nest_of_next? {state next : Bool × List TokenKind} {t : Token}
    (h : next? false state t.kind = some next) : nest state.2 t = next.2 := by
  obtain ⟨colon, expected⟩ := state
  simp only [next?, Bool.false_eq_true, false_and, and_false, if_false] at h
  unfold nest
  generalize closer? t.kind = opening at h ⊢
  cases opening with
  | some closer =>
      cases h
      rfl
  | none =>
      cases expected with
      | nil =>
          dsimp only at h ⊢
          split at h <;> cases h <;> rfl
      | cons closer outer =>
          dsimp only at h ⊢
          split at h <;> cases h
          · next hkind => exact if_pos hkind
          · next hkind => exact if_neg hkind

/-- The closers that are expected when the tokens of a declaration are gathered are those of the
brackets that the tokens leave open. -/
theorem openBrackets_of_through {colon : Bool} {tokens : List Token}
    {last : Bool × List TokenKind} (h : through false (colon, []) tokens = some last) :
    openBrackets tokens = last.2 := by
  suffices hfold : ∀ state, through false state tokens = some last →
      tokens.foldl nest state.2 = last.2 from hfold _ h
  clear h
  intro state h
  induction tokens generalizing state with
  | nil =>
      cases h
      rfl
  | cons t rest ih =>
      obtain ⟨next, hnext, h⟩ := exists_next?_of_through h
      rw [List.foldl_cons, nest_of_next? hnext]
      exact ih next h

end Statement.Gathered

/-! ## Values on which both agree -/

/-- `IsBalanced head value` says that the parentheses of a value behind other tokens of a
declaration tell which of its colons are outside all brackets. -/
structure IsBalanced (head value : List Token) : Prop where
  opened : .rightParen ∉ openBrackets head
  closes : ∀ first t behind, value = first ++ t :: behind → t.kind = .rightParen →
    (openBrackets (head ++ first)).head? = some .rightParen
  covers : ∀ first c behind, value = first ++ c :: behind → c.kind = .colon →
    openBrackets (head ++ first) ≠ [] → .rightParen ∈ openBrackets (head ++ first)
  progid : ∀ first w c t behind, value = first ++ w :: c :: t :: behind → isProgid w = true →
    c.kind = .colon → t.kind ≠ .colon

section IsBalanced

variable {head value first behind : List Token} {c t : Token}

theorem openBrackets_concat (tokens : List Token) (t : Token) :
    openBrackets (tokens ++ [t]) = Statement.Gathered.nest (openBrackets tokens) t :=
  List.foldl_concat ..

/-- A token changes the number of parentheses that are open as it changes the depth, unless it is
a closing parenthesis that closes none. -/
theorem count_nest (expected : List TokenKind)
    (h : t.kind = .rightParen → expected.head? = some .rightParen) :
    ((Statement.Gathered.nest expected t).count .rightParen : Int) =
      nesting t (expected.count .rightParen) := by
  unfold Statement.Gathered.nest nesting
  cases hkind : t.kind with
  | leftParen => simp [closer?]
  | leftBracket => simp [closer?]
  | rightParen =>
      obtain ⟨outer, rfl⟩ := List.head?_eq_some_iff.mp (h hkind)
      simp [closer?]
  | _ =>
      cases expected with
      | nil => rfl
      | cons closer outer =>
          dsimp only [closer?]
          split
          · next hcloser =>
              rw [← hcloser, List.count_cons_of_ne (by decide)]
          · rfl

/-- The depth in a balanced value is the number of parentheses that are open. -/
theorem IsBalanced.parenDepth_eq (h : IsBalanced head value) (hfirst : first <+: value) :
    parenDepth first = (openBrackets (head ++ first)).count .rightParen := by
  induction first using List.reverseRecOn with
  | nil =>
      rw [List.append_nil, List.count_eq_zero_of_not_mem h.opened]
      rfl
  | append_singleton first t ih =>
      obtain ⟨behind, hvalue⟩ := hfirst
      rw [List.append_assoc] at hvalue
      rw [parenDepth_concat, ih ⟨_, hvalue⟩, ← List.append_assoc, openBrackets_concat]
      exact (count_nest _ (h.closes first t behind hvalue.symm)).symm

theorem behindProgid_of_sinceProgid (h : sinceProgid first = false) :
    behindProgid first = false := by
  rcases List.eq_nil_or_concat first with rfl | ⟨front, t, rfl⟩
  · rfl
  · rw [List.concat_eq_append] at h ⊢
    rw [behindProgid_concat]
    by_cases hcolon : t.kind = .colon
    · exact isProgid_of_colon hcolon
    · rwa [sinceProgid_concat _ hcolon] at h

/-- The last token but for colons, with the colons behind it. -/
theorem exists_progid_of_sinceProgid (h : sinceProgid first = true) :
    ∃ front w colons, first = front ++ w :: colons ∧ isProgid w = true ∧
      ∀ c ∈ colons, c.kind = .colon := by
  induction first using List.reverseRecOn with
  | nil => cases h
  | append_singleton first t ih =>
      by_cases hcolon : t.kind = .colon
      · rw [sinceProgid_concat_colon _ hcolon] at h
        obtain ⟨front, w, colons, rfl, hw, hcolons⟩ := ih h
        refine ⟨front, w, colons ++ [t], by simp, hw, ?_⟩
        exact List.forall_mem_append.mpr ⟨hcolons, List.forall_mem_singleton.mpr hcolon⟩
      · rw [sinceProgid_concat _ hcolon] at h
        exact ⟨first, t, [], rfl, h, List.forall_mem_nil _⟩

theorem IsBalanced.sinceProgid_iff (h : IsBalanced head value)
    (hvalue : value = first ++ c :: behind) (hcolon : c.kind = .colon) :
    sinceProgid first = false ↔ behindProgid first = false := by
  refine ⟨behindProgid_of_sinceProgid, fun hdirect ↦ ?_⟩
  by_contra hsince
  obtain ⟨front, w, colons, rfl, hw, hcolons⟩ :=
    exists_progid_of_sinceProgid (eq_true_of_ne_false hsince)
  cases colons with
  | nil => rw [behindProgid_concat, hw] at hdirect; cases hdirect
  | cons d colons =>
      obtain ⟨hd, hcolons⟩ := List.forall_mem_cons.mp hcolons
      -- Behind the first colon another one follows: of those in between, or the one that is
      -- looked at.
      cases colons with
      | nil => exact h.progid front w d c behind (by simpa using hvalue) hw hd hcolon
      | cons d' colons =>
          exact h.progid front w d d' (colons ++ c :: behind) (by simpa using hvalue) hw hd
            (hcolons d' List.mem_cons_self)

theorem openBrackets_eq_nil {tokens : List Token} (h : ∀ t ∈ tokens, closer? t.kind = none) :
    openBrackets tokens = [] := by
  induction tokens using List.reverseRecOn with
  | nil => rfl
  | append_singleton tokens t ih =>
      obtain ⟨htokens, ht⟩ := List.forall_mem_append.mp h
      rw [openBrackets_concat, ih htokens]
      simp only [Statement.Gathered.nest, List.forall_mem_singleton.mp ht]

/-- A value is balanced if nothing opens a bracket in front of it or in it, and it has neither a
closing parenthesis nor a `progid`. -/
theorem isBalanced_of_plain (hopens : ∀ t ∈ head ++ value, closer? t.kind = none)
    (hvalue : ∀ t ∈ value, t.kind ≠ .rightParen ∧ isProgid t = false) :
    IsBalanced head value := by
  obtain ⟨hhead, htokens⟩ := List.forall_mem_append.mp hopens
  refine ⟨by rw [openBrackets_eq_nil hhead]; exact List.not_mem_nil, ?_, ?_, ?_⟩
  · rintro first t behind rfl hkind
    exact absurd hkind (hvalue t (List.mem_append_right _ List.mem_cons_self)).1
  · rintro first c behind rfl - hopen
    refine absurd (openBrackets_eq_nil ?_) hopen
    exact List.forall_mem_append.mpr ⟨hhead, (List.forall_mem_append.mp htokens).1⟩
  · rintro first w c t behind rfl hprogid
    rw [(hvalue w (List.mem_append_right _ List.mem_cons_self)).2] at hprogid
    cases hprogid

/-- In a balanced value the colons that are found are the outer ones. -/
theorem finds_iff_outer (h : IsBalanced head value) :
    FindsColon value ↔ HasOuterColon head value := by
  refine ColonBehind.congr fun first c behind hvalue hcolon ↦
    and_congr ?_ (h.sinceProgid_iff hvalue hcolon)
  rw [h.parenDepth_eq ⟨_, hvalue.symm⟩, Int.natCast_eq_zero, List.count_eq_zero]
  constructor
  · intro hnone
    by_contra hopen
    exact hnone (h.covers first c behind hvalue hcolon hopen)
  · intro hnil
    rw [hnil]
    exact List.not_mem_nil

end IsBalanced

/-! ## Tokens of a run that may fail -/

/-- The tokens of a run that does not heal are what their kinds promise, also if it fails behind
them. -/
theorem Token.isFormed_of_mem_run_fail {text : Text} {t : Token}
    (ht : t ∈ (run text .fail).tokens) : t.IsFormed := by
  obtain ⟨last, hreads, -⟩ := Lexer.stops_of_runFor (run text .fail)
    (Lexer.isPlain_ofText text .fail .stock)
    (Nat.le_add_left _ _) rfl
  exact hreads.isFormed rfl ht

namespace Statement

theorem subset_first (size : Nat) (failure : Option TokenizeError) (t : Token)
    (rest : List Token) :
    (first size failure t rest).1.tokens ⊆ t :: rest ∧
      (first size failure t rest).2 ⊆ t :: rest := by
  rcases tokens_first_or size failure t rest with happend | ⟨e, -, hcut⟩
  · rw [← happend]
    exact ⟨List.subset_append_left _ _, List.subset_append_right _ _⟩
  · rw [hcut]
    exact ⟨List.nil_subset _, List.nil_subset _⟩

theorem subset_of_mem_group {size steps : Nat} {failure : Option TokenizeError}
    {tokens : List Token} : ∀ x ∈ group size failure steps tokens, x.tokens ⊆ tokens := by
  induction steps generalizing tokens with
  | zero => exact List.forall_mem_nil _
  | succ steps ih =>
      cases tokens with
      | nil =>
          intro x h
          obtain ⟨e, -, rfl⟩ := List.mem_map.mp h
          exact List.Subset.refl _
      | cons t rest =>
          obtain ⟨htokens, hbehind⟩ := subset_first size failure t rest
          exact List.forall_mem_cons.mpr ⟨htokens, fun x hx ↦ List.Subset.trans (ih x hx) hbehind⟩

/-- The tokens of a statement are tokens of the run. -/
theorem subset_of_mem_ofRun {size : Nat} {run : TokenRun} {x : Statement}
    (h : x ∈ ofRun size run) : x.tokens ⊆ run.tokens :=
  subset_of_mem_group x h

end Statement

/-! ## Declarations that are refused -/

/-- `d.IsColon` says of a defect that it is a colon which cannot belong to a value. -/
def Defect.IsColon (d : Defect) : Prop := d = .missedSemicolon ∨ d = .doubleColon

/-- `p.head` are the tokens of a declaration in front of its value. -/
def Parts.head (p : Parts) : List Token := p.stray ++ p.name ++ p.colon ++ p.gap

namespace Assembly

variable {a : Assembly} {tokens : List Token} {terminator : Nat} {parts : Parts}

/-- Strict assembly refuses a value with a colon that is found. -/
theorem checkColons_of_findsColon (hmode : a.mode = .strict) {value : Text} (id : NodeId)
    (hmem : ':' ∈ value) (hfinds : FindsColon tokens) :
    ∃ e, a.checkColons false value tokens id = .error e ∧ e.defect.IsColon := by
  unfold checkColons
  rw [if_pos ⟨hmode, rfl, hmem⟩]
  cases hleading : leadingColon tokens with
  | some t =>
      refine ⟨ParseError.place a.source .doubleColon t.span, ?_, .inr rfl⟩
      simp only [reportColon, hleading, report, hmode]
      rfl
  | none =>
      have hsome := (findsColon_iff.mp hfinds).resolve_left
        (by rw [hleading]; exact Bool.false_ne_true)
      obtain ⟨⟨before, behind⟩, hsecond⟩ := Option.isSome_iff_exists.mp hsome
      refine ⟨ParseError.place a.source .missedSemicolon (.point (missedAt before)), ?_, .inl rfl⟩
      simp only [reportColon, hleading, hsecond]
      show a.report _ _ _ = _
      simp only [report, hmode]

/-- Nothing but a missing value is refused where colons are in order. -/
theorem not_isColon_of_checkValue {custom : Bool} {value : Text} {id : NodeId} {e : ParseError}
    (h : a.checkValue custom value terminator id = .error e) : ¬e.defect.IsColon := by
  unfold checkValue at h
  split at h
  · unfold report at h
    split at h
    · cases h
      rintro (h | h) <;> cases h
    · cases h
  · cases h

/-- A declaration with known words only is refused for a colon exactly if there is one that is
found in its value. -/
theorem refuses_declaration_iff (hmode : a.mode = .strict)
    (hparts : Parts.ofTokens? (Statement.bodyOf tokens) = some parts)
    (hwords : parts.unknownWords = [])
    (hformed : ∀ t ∈ (takeImportant parts.value).tokens, t.IsFormed) :
    (∃ e, a.add (.declaration tokens false terminator none) = .error e ∧ e.defect.IsColon) ↔
      FindsColon (takeImportant parts.value).tokens := by
  obtain ⟨t, more, rfl⟩ : ∃ t more, tokens = t :: more := by
    refine List.exists_cons_of_ne_nil fun hnil ↦ ?_
    rw [hnil] at hparts
    cases hparts
  have hsplit : a.splitValue parts.value a.created = .ok (a, none) := by
    simp only [splitValue, hmode]
  rw [show a.add (.declaration (t :: more) false terminator none) =
    declare (more.length + 1) a (t :: more) false terminator from rfl,
    declare_of_parts (.inl hmode) hparts hwords hsplit]
  have hvalue :
      (a.declarationNode false (t :: more) parts (takeImportant parts.value)).kind.value? =
        some _ := rfl
  rw [hvalue, Option.getD_some]
  constructor
  · rintro ⟨e, he, hdefect⟩
    by_contra hnot
    rw [findsColon_iff, not_or, Bool.not_eq_true, Bool.not_eq_true, Option.isSome_eq_false_iff,
      Option.isSome_eq_false_iff, Option.isNone_iff_eq_none, Option.isNone_iff_eq_none] at hnot
    rw [checkColons_eq_self _ fun _ _ ↦ hnot] at he
    exact not_isColon_of_checkValue he hdefect
  · intro hfinds
    obtain ⟨first, c, behind, htokens, hcolon, -⟩ := id hfinds
    have hc : c ∈ (takeImportant parts.value).tokens :=
      htokens ▸ List.mem_append_right _ List.mem_cons_self
    have hmem := colon_mem_of_token hc hcolon (hformed c hc) hvalue
    obtain ⟨e, he, hdefect⟩ := checkColons_of_findsColon (a := a.addLeaf
      (a.declarationNode false (t :: more) parts (takeImportant parts.value))
      ((t :: more).getLast?.any (·.is .semicolon))) hmode a.created hmem hfinds
    exact ⟨e, by rw [he]; rfl, hdefect⟩

/-- What is wrong with the first statement that is not taken is what reading fails with. -/
theorem parse_of_add_error {source : Source} {statement : Statement}
    {before behind : List Statement} {e : ParseError}
    (hrun : Statement.ofRun source.size (Token.run source.text .fail) =
      before ++ statement :: behind) (htaken : before.foldlM add (start source .strict) = .ok a)
        (h : a.add statement = .error e) :
    parse source .strict = .error e := by
  unfold parse assemble Mode.openPolicy
  dsimp only
  rw [hrun, List.foldlM_append, htaken]
  show Except.map _ (((statement :: behind).foldlM add a) >>= _) = _
  rw [List.foldlM_cons, h]
  rfl

end Assembly

/-- A declaration behind statements that strict reading takes is refused because of a colon
exactly if one is found in its value. If the value is balanced, that is so exactly if it has an
outer colon. -/
theorem refuses_colon_iff {source : Source} {before behind : List Statement} {tokens : List Token}
    {terminator : Nat} {a : Assembly} {parts : Parts}
    (hrun : Statement.ofRun source.size (Token.run source.text .fail) =
      before ++ .declaration tokens false terminator none :: behind)
    (htaken : before.foldlM Assembly.add (Assembly.start source .strict) = .ok a)
    (hparts : Parts.ofTokens? (Statement.bodyOf tokens) = some parts)
    (hwords : parts.unknownWords = []) :
    let value := (takeImportant parts.value).tokens
    let refused := ∃ e, a.add (.declaration tokens false terminator none) = .error e ∧
      parse source .strict = .error e ∧ e.defect.IsColon
    (refused ↔ FindsColon value) ∧
      (IsBalanced parts.head value → (refused ↔ HasOuterColon parts.head value)) := by
  dsimp only
  have hmode : a.mode = .strict := (Assembly.steps_foldlM_add htaken).mode_eq
  have hformed : ∀ t ∈ (takeImportant parts.value).tokens, t.IsFormed := by
    intro t ht
    have hbody : t ∈ Statement.bodyOf tokens := by
      rw [← Parts.tokens_ofTokens? hparts]
      exact List.mem_append_right _ ((prefix_takeImportant parts.value).subset ht)
    have hmem : Statement.declaration tokens false terminator none ∈
        Statement.ofRun source.size (Token.run source.text .fail) :=
      hrun ▸ List.mem_append_right _ List.mem_cons_self
    exact Token.isFormed_of_mem_run_fail
      (Statement.subset_of_mem_ofRun hmem (Statement.bodyOf_subset tokens hbody))
  have hiff : (∃ e, a.add (.declaration tokens false terminator none) = .error e ∧
      parse source .strict = .error e ∧ e.defect.IsColon) ↔
        FindsColon (takeImportant parts.value).tokens := by
    rw [← Assembly.refuses_declaration_iff hmode hparts hwords hformed]
    refine exists_congr fun e ↦ and_congr_right fun he ↦ ?_
    exact and_iff_right (Assembly.parse_of_add_error hrun htaken he)
  exact ⟨hiff, fun h ↦ hiff.trans (finds_iff_outer h)⟩

/-- The second of two declarations without a semicolon between them makes the first one
refused. -/
theorem refuses_colon_iff_missed :
    ∃ e, parse ⟨"a\x7bb:c d:e\x7d".toList, none⟩ .strict = .error e ∧ e.defect.IsColon := by
  have hiff :=
    (@refuses_colon_iff ⟨"a\x7bb:c d:e\x7d".toList, none⟩ [_] _ _ _ _ _ rfl rfl rfl rfl).2
    (isBalanced_of_plain (by decide) (by decide))
  obtain ⟨e, -, he⟩ := hiff.mpr (by decide)
  exact ⟨e, he⟩

/-- A colon within square brackets is refused, although it is not outside all brackets. -/
theorem not_refuses_colon_iff_outer :
    ¬∀ (source : Source) (before behind : List Statement) (tokens : List Token) (terminator : Nat)
      (a : Assembly) (parts : Parts), Statement.ofRun source.size (Token.run source.text .fail) =
        before ++ .declaration tokens false terminator none :: behind →
      before.foldlM Assembly.add (Assembly.start source .strict) = .ok a →
      Parts.ofTokens? (Statement.bodyOf tokens) = some parts → parts.unknownWords = [] →
      ((∃ e, a.add (.declaration tokens false terminator none) = .error e ∧
          parse source .strict = .error e ∧ e.defect.IsColon) ↔
        HasOuterColon parts.head (takeImportant parts.value).tokens) := by
  intro h
  have hiff := h ⟨"a\x7bb:[c:d]\x7d".toList, none⟩ [_] _ _ _ _ _ rfl rfl rfl rfl
  have houter := hiff.mp ⟨_, rfl, rfl, .inl rfl⟩
  revert houter
  decide

end Stylesheet
