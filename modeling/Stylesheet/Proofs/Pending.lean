import Mathlib.Tactic.ByContra
import Stylesheet.Proofs.Nesting
import Stylesheet.Proofs.Recast
import Stylesheet.Proofs.Reporting

/-!
# Closing braces behind the statements of a run

What closing braces behind a run of tokens do depends on its statements. If one of them has a
bracket open at the end of the run, it takes braces in, one at least; if none has, each brace
closes a block (`nests_append_braces`). In neither case a semicolon is missed that was not missed
before.
-/

namespace Stylesheet

open Token

/-! ## Missed semicolons -/

theorem findColon_eq_none {tokens : List Token} (h : ∀ t ∈ tokens, t.kind ≠ .colon) (depth : Int)
    (previous : Token) : findColon depth previous tokens = none :=
  Option.eq_none_iff_forall_ne_some.mpr fun _ hcut ↦
    have ⟨t, ht, hcolon⟩ := exists_colon_of_findColon hcut
    h t ht hcolon

/-- A colon that is found does not depend on tokens behind that are no colons. -/
theorem findColon_append_of_ne_colon {more : List Token} (hmore : ∀ t ∈ more, t.kind ≠ .colon)
    (depth : Int) (previous : Token) (tokens : List Token) :
    findColon depth previous (tokens ++ more) =
      (findColon depth previous tokens).map fun cut ↦ (cut.1, cut.2 ++ more) := by
  induction tokens generalizing depth previous with
  | nil => exact findColon_eq_none hmore depth previous
  | cons t tokens ih =>
      rw [List.cons_append, findColon, findColon]
      split
      · split
        · rw [ih, Option.map_map, Option.map_map]
          rfl
        · rfl
      · rw [ih, Option.map_map, Option.map_map]
        rfl

namespace Missed

theorem ofValue?_eq_none {value : List Token} (h : ∀ t ∈ value, t.kind ≠ .colon) :
    ofValue? value = none := by
  unfold ofValue?
  cases value with
  | nil => rfl
  | cons t rest =>
      rw [secondColon, findColon_eq_none (List.forall_mem_cons.mp h).2]
      rfl

/-- Whether a value holds two declarations does not depend on tokens behind it that are no
colons. -/
theorem isSome_ofValue?_append {value more : List Token} (hne : value ≠ [])
    (hmore : ∀ t ∈ more, t.kind ≠ .colon) :
    (ofValue? (value ++ more)).isSome = (ofValue? value).isSome := by
  obtain ⟨t, value, rfl⟩ := List.exists_cons_of_ne_nil hne
  unfold ofValue?
  rw [List.cons_append, secondColon, secondColon, findColon_append_of_ne_colon hmore]
  cases findColon (nesting t 0) t value with
  | none => rfl
  | some cut =>
      simp only [Option.map_some, Option.bind_some]
      split <;> rfl

end Missed

namespace Parts

variable {tokens more : List Token}

/-- What stands behind the first colon does not depend on tokens before it. -/
theorem throughColon_dropWhile {p : Token → Bool} (hp : ∀ t, p t = true → t.is .colon = false)
    (tokens : List Token) : (throughColon (tokens.dropWhile p)).2 = (throughColon tokens).2 := by
  induction tokens with
  | nil => rfl
  | cons t rest ih =>
      rw [List.dropWhile_cons]
      split
      · next ht => rw [ih, throughColon, hp t ht, if_neg Bool.false_ne_true]
      · rfl

theorem throughColon_append_of_ne_colon (hmore : ∀ t ∈ more, t.kind ≠ .colon)
    (tokens : List Token) :
    (throughColon (tokens ++ more)).2 = (throughColon tokens).2 ++ more ∨
      (throughColon (tokens ++ more)).2 = [] ∧ (throughColon tokens).2 = [] := by
  induction tokens with
  | nil =>
      refine .inr ⟨?_, rfl⟩
      rw [List.nil_append]
      induction more with
      | nil => rfl
      | cons t more ih =>
          obtain ⟨ht, hmore⟩ := List.forall_mem_cons.mp hmore
          rw [throughColon, if_neg (by simpa [Token.is] using ht)]
          exact ih hmore
  | cons t rest ih =>
      rw [List.cons_append, throughColon, throughColon]
      split
      · exact .inl rfl
      · exact ih

theorem map_value_ofTokens? (tokens : List Token) :
    (ofTokens? tokens).map value =
      if (tokens.dropWhile (!·.is .word)).isEmpty then none
      else some ((throughColon (tokens.dropWhile (!·.is .word))).2.dropWhile Token.isTrivia) := by
  have hname := throughColon_dropWhile (p := fun t ↦ !(t.is .colon || t.isTrivia))
    (fun t ht ↦ by simp_all) (tokens.dropWhile (!·.is .word))
  by_cases hempty : (tokens.dropWhile (!·.is .word)).isEmpty = true
  · simp only [ofTokens?, splitLeading, hempty, if_true, Option.map_none]
  · simp only [ofTokens?, splitLeading, hempty, if_false, Bool.false_eq_true,
      Option.map_some, hname]

/-- `misses body` says that the value of a declaration holds two of them. -/
def misses (body : List Token) : Bool :=
  ((ofTokens? body).map value).any fun value ↦ (Missed.ofValue? value).isSome

/-- Whether the value of a declaration holds two of them does not depend on tokens behind it that
are neither words nor colons. -/
theorem misses_append (hmore : ∀ t ∈ more, t.kind ≠ .word ∧ t.kind ≠ .colon) (body : List Token) :
    misses (body ++ more) = misses body := by
  have hcolon : ∀ t ∈ more, t.kind ≠ .colon := fun t ht ↦ (hmore t ht).2
  have hwords : more.dropWhile (!·.is .word) = [] := by
    rw [List.dropWhile_eq_nil_iff]
    intro t ht
    simpa [Token.is] using (hmore t ht).1
  unfold misses
  rw [map_value_ofTokens?, map_value_ofTokens?, List.dropWhile_append, hwords]
  generalize body.dropWhile (!·.is .word) = front
  cases front with
  | nil => rfl
  | cons w front =>
      simp only [List.isEmpty_cons, Bool.false_eq_true, if_false, List.cons_append,
        Option.any_some]
      rw [← List.cons_append]
      rcases throughColon_append_of_ne_colon hcolon (w :: front) with hboth | ⟨hlong, hshort⟩
      · rw [hboth, List.dropWhile_append]
        split
        · next hempty =>
            rw [List.isEmpty_iff.mp hempty]
            have hdropped : ∀ t ∈ more.dropWhile Token.isTrivia, t.kind ≠ .colon :=
              fun t ht ↦ hcolon t ((List.dropWhile_sublist _).subset ht)
            rw [Missed.ofValue?_eq_none hdropped]
            rfl
        · next hempty =>
            exact Missed.isSome_ofValue?_append
              (fun hnil ↦ hempty (List.isEmpty_iff.mpr hnil)) hcolon
      · rw [hlong, hshort]

theorem misses_map {f : Token → Token} (hf : IsRecast f) (body : List Token) :
    misses (body.map f) = misses body := by
  unfold misses
  rw [ofTokens?_map hf]
  cases ofTokens? body with
  | none => rfl
  | some parts => exact Missed.isSome_ofValue?_map hf parts.value

/-- Where a semicolon is missed there are a word and a colon. -/
theorem exists_of_misses {body : List Token} (h : misses body = true) :
    (∃ t ∈ body, t.is .word = true) ∧ ∃ t ∈ body, t.kind = .colon := by
  unfold misses at h
  cases hparts : ofTokens? body with
  | none =>
      rw [hparts] at h
      cases h
  | some parts =>
      rw [hparts, Option.map_some, Option.any_some, Missed.ofValue?] at h
      obtain ⟨missed, hmissed⟩ := Option.isSome_iff_exists.mp h
      obtain ⟨cut, hcut, -⟩ := Option.bind_eq_some_iff.mp hmissed
      obtain ⟨u, hu, hcolon⟩ := exists_colon_of_secondColon hcut
      refine ⟨exists_word hparts, u, ?_, hcolon⟩
      rw [← tokens_ofTokens? hparts, Parts.tokens]
      exact List.mem_append_right _ hu

end Parts

namespace Statement

variable {tokens more : List Token}

theorem misses_eq (tokens : List Token) : misses tokens = Parts.misses (bodyOf tokens) := by
  have hany : misses tokens =
      (Assembly.isDeclaration tokens && Parts.misses (bodyOf tokens)) := by
    rw [misses, Parts.misses, Option.any_map]
  cases hmisses : Parts.misses (bodyOf tokens) with
  | false => rw [hany, hmisses, Bool.and_false]
  | true =>
      obtain ⟨⟨t, ht, hword⟩, u, hu, hcolon⟩ := Parts.exists_of_misses hmisses
      have ht := bodyOf_subset tokens ht
      have hlength : 1 < tokens.length := by
        refine Nat.lt_of_not_le fun hshort ↦ ?_
        have htu : t = u := by
          obtain ⟨x, rfl⟩ := List.length_eq_one_iff.mp
            (Nat.le_antisymm hshort (List.length_pos_of_mem ht))
          exact (List.mem_singleton.mp ht).trans
            (List.mem_singleton.mp (bodyOf_subset [x] hu)).symm
        rw [htu, Token.is, hcolon] at hword
        cases hword
      have hwords : tokens.any (·.is .word) = true := List.any_eq_true.mpr ⟨t, ht, hword⟩
      rw [hany, hmisses, Assembly.isDeclaration, decide_eq_true hlength, hwords]
      rfl

/-- Whether a semicolon is missed does not depend on white space, comments and closing braces
behind. -/
theorem misses_append (hmore : ∀ t ∈ more, t.isTrivia = true ∨ t.kind = .rightBrace)
    (tokens : List Token) : misses (tokens ++ more) = misses tokens := by
  have hkinds : ∀ t ∈ more, t.kind ≠ .word ∧ t.kind ≠ .colon ∧ t.kind ≠ .semicolon := by
    intro t ht
    rcases hmore t ht with htrivia | hbrace
    · rw [Token.isTrivia] at htrivia
      refine ⟨?_, ?_, ?_⟩ <;> (intro hkind; rw [hkind] at htrivia; cases htrivia)
    · rw [hbrace]
      decide
  rcases List.eq_nil_or_concat more with rfl | ⟨front, u, rfl⟩
  · rw [List.append_nil]
  rw [List.concat_eq_append] at hkinds ⊢
  -- A semicolon at the end of the first tokens is one within the value now.
  obtain ⟨ended, hended, htokens⟩ := bodyOf_append tokens
  have hbody : bodyOf (tokens ++ (front ++ [u])) =
      bodyOf tokens ++ (ended ++ (front ++ [u])) := by
    have hu : u.kind ≠ .semicolon := (hkinds u (by simp)).2.2
    have hlast : (tokens ++ (front ++ [u])).getLast?.any (·.is .semicolon) = false := by
      rw [← List.append_assoc, List.getLast?_concat, Option.any_some]
      exact beq_eq_false_iff_ne.mpr hu
    rw [bodyOf, hlast, if_neg Bool.false_ne_true, ← List.append_assoc (bodyOf tokens), htokens]
  rw [misses_eq, misses_eq, hbody, Parts.misses_append]
  intro t ht
  rcases List.mem_append.mp ht with ht | ht
  · rw [hended t ht]
    decide
  · exact ⟨(hkinds t ht).1, (hkinds t ht).2.1⟩

theorem nest_sketch (depth : Nat) (s : Statement) : s.sketch.nest depth = s.nest depth := by
  cases s with
  | atRule word params ending => cases ending <;> rfl
  | declaration tokens custom terminator opened =>
      have hmisses : misses (tokens.map Token.sketch) = misses tokens := by
        rw [misses_eq, misses_eq, bodyOf_map isRecast_sketch, Parts.misses_map isRecast_sketch]
      show (if misses (tokens.map Token.sketch) then none else some depth) = _
      rw [hmisses]
      rfl
  | _ => rfl

/-! ## The statements of a run -/

/-- `ofTokens tokens` are the statements of a run. -/
def ofTokens (tokens : List Token) : List Statement :=
  group 0 none (tokens.length + 1) tokens

theorem group_steps (stop : Nat) {first second : Nat} (hfirst : tokens.length < first)
    (hsecond : tokens.length < second) :
    group stop none first tokens = group stop none second tokens := by
  induction first generalizing second tokens with
  | zero => exact absurd hfirst (Nat.not_lt_zero _)
  | succ first ih =>
      cases second with
      | zero => exact absurd hsecond (Nat.not_lt_zero _)
      | succ second =>
          cases tokens with
          | nil => rfl
          | cons t rest =>
              have hlength := length_first_le stop none t rest
              rw [List.length_cons] at hfirst hsecond
              simp only [group]
              exact congrArg _ (ih (by omega) (by omega))

theorem ofTokens_cons (t : Token) (rest : List Token) :
    ofTokens (t :: rest) = (first 0 none t rest).1 :: ofTokens (first 0 none t rest).2 := by
  have hlength := length_first_le 0 none t rest
  rw [ofTokens, List.length_cons, group]
  simp only
  rw [ofTokens, group_steps 0 (by omega) (Nat.lt_succ_self _)]

theorem ofTokens_map_sketch (stop : Nat) (tokens : List Token) :
    ofTokens (tokens.map Token.sketch) =
      (group stop none (tokens.length + 1) tokens).map sketch := by
  rw [ofTokens, List.length_map, group_map_sketch stop]

/-! ## Brackets that are open at the end -/

/-- `s.isPending` says that a statement has a bracket open at the end of the text. -/
def isPending : Statement → Bool
  | atRule _ params .input => Params.through [] params != some []
  | declaration _ _ _ opened | stray _ opened => opened.isSome
  | _ => false

variable {t : Token} {rest behind braces : List Token} {s : Statement}

/-- Closing braces close brackets of the parameters of an at-rule, but never the outermost one. -/
theorem Params.through_of_braces {expected : List TokenKind} (hne : expected ≠ [])
    (hbased : IsBased expected) (hbraces : ∀ b ∈ braces, b.kind = .rightBrace) :
    ∃ last, through expected braces = some last := by
  induction braces generalizing expected with
  | nil => exact ⟨expected, rfl⟩
  | cons b more ih =>
      obtain ⟨hb, hmore⟩ := List.forall_mem_cons.mp hbraces
      obtain ⟨next, hnext⟩ : ∃ next, next? expected b.kind = some next :=
        Option.ne_none_iff_exists'.mp fun hnone ↦ hne (eq_nil_of_next?_eq_none hnone hbased)
      have hnil : next ≠ [] := by
        obtain ⟨closer, outer, rfl⟩ := List.exists_cons_of_ne_nil hne
        rw [eq_nestParams_of_next? hnext, hb]
        show (if TokenKind.rightBrace = closer then outer else closer :: outer) ≠ []
        split
        · next hcloser =>
            rintro rfl
            have houtermost := hbased closer rfl
            rw [← hcloser] at houtermost
            rcases houtermost with h | h <;> cases h
        · exact List.cons_ne_nil _ _
      obtain ⟨last, hlast⟩ := ih hnil (isBased_of_next? hnext hbased) hmore
      exact ⟨last, (through_cons hnext more).trans hlast⟩

/-- Gathered tokens that the end of the text ends leave brackets open as it is noted. -/
theorem Gathered.through_of_gather_input {custom colon colon' : Bool} {expected : List TokenKind}
    {opened opened' : Option Span} {tokens taken left : List Token}
    (h : gather custom colon expected opened tokens = ⟨taken, .input, colon', opened', left⟩)
    (hopened : opened.isSome = !expected.isEmpty) :
    ∃ last, through custom (colon, expected) taken = some (colon', last) ∧
      opened'.isSome = !last.isEmpty := by
  induction tokens generalizing colon expected opened taken with
  | nil =>
      cases h
      exact ⟨expected, rfl, hopened⟩
  | cons t rest ih =>
      cases hnext : next? custom (colon, expected) t.kind with
      | none =>
          rw [gather_of_next?_eq_none rest hnext] at h
          unfold ofEnd at h
          split at h <;> cases h
      | some next =>
          obtain ⟨inner, hinner, hadd⟩ := gather_of_next? rest hopened hnext
          generalize hgather : gather custom next.1 next.2 inner rest = gathered at hadd
          obtain ⟨more, ending, moreColon, moreOpened, moreLeft⟩ := gathered
          rw [hadd] at h
          cases h
          obtain ⟨last, hlast, hnote⟩ := ih hgather hinner
          exact ⟨last, (through_cons hnext more).trans hlast, hnote⟩

/-- Closing braces are taken in until no closer is expected any more. -/
theorem Gathered.through_of_braces (custom colon : Bool) {expected : List TokenKind}
    (hne : expected ≠ []) (hbraces : ∀ b ∈ braces, b.kind = .rightBrace) (hsome : braces ≠ []) :
    ∃ front behind last, braces = front ++ behind ∧ front ≠ [] ∧
      through custom (colon, expected) front = some (colon, last) ∧
      (behind = [] ∨ last = []) := by
  induction braces generalizing expected with
  | nil => exact absurd rfl hsome
  | cons b more ih =>
      obtain ⟨hb, hmore⟩ := List.forall_mem_cons.mp hbraces
      obtain ⟨next, hnext⟩ : ∃ next, next? custom (colon, expected) b.kind =
        some (colon, next) := by
        obtain ⟨closer, outer, rfl⟩ := List.exists_cons_of_ne_nil hne
        rw [hb]
        show ∃ next, (if TokenKind.rightBrace = closer then some (colon, outer)
          else some (colon, closer :: outer)) = some (colon, next)
        split <;> exact ⟨_, rfl⟩
      by_cases hstop : more = [] ∨ next = []
      · exact ⟨[b], more, next, rfl, List.cons_ne_nil _ _,
          (through_cons hnext []).trans rfl, hstop⟩
      · obtain ⟨hsome, hnil⟩ := not_or.mp hstop
        obtain ⟨front, behind, last, hcut, -, hthrough, hlast⟩ := ih hnil hmore hsome
        exact ⟨b :: front, behind, last, by rw [hcut]; rfl, List.cons_ne_nil _ _,
          (through_cons hnext front).trans hthrough, hlast⟩

/-- `TakesBraces s behind braces cut` says that `cut` is the first statement of a run, with what
it leaves, if closing braces stand behind the run, where `s` and `behind` are without them. Either
the statement is the same, or an at-rule ends with the first brace, or a bracket is open that
takes braces in. -/
inductive TakesBraces (s : Statement) (behind braces : List Token) :
    Statement × List Token → Prop where
  | same {s'} (hnest : ∀ depth, s'.nest depth = s.nest depth) (hpending : s.isPending = false) :
      TakesBraces s behind braces (s', behind ++ braces)
  | ended {word params b more} (hs : s = atRule word params .input) (hbehind : behind = [])
      (hbraces : braces = b :: more) (hpending : s.isPending = false) :
      TakesBraces s behind braces (atRule word params (.close b), more)
  | pending {s' front left} (hbraces : braces = front ++ left) (hfront : front ≠ [])
      (hnest : ∀ depth, s'.nest depth = s.nest depth) (hpending : s.isPending = true)
      (htrivia : ∀ t ∈ behind, t.isTrivia = true) : TakesBraces s behind braces (s', left)

/-- `GathersBraces g braces g'` says that `g'` is gathered with closing braces behind the run that
`g` is gathered from. The gathering ends as before; or it ends with the first brace instead of the
end of the text; or a bracket is open, which takes braces in. -/
inductive Gathered.GathersBraces (braces : List Token) : Gathered → Gathered → Prop where
  | same {taken ending colon left} (hinput : ending ≠ .input) (hfits : ending.Fits left) :
      GathersBraces braces ⟨taken, ending, colon, none, left⟩ ⟨taken, ending, colon, none,
        left ++ braces⟩
  | closed {taken colon} :
      GathersBraces braces ⟨taken, .input, colon, none, []⟩ ⟨taken, .close, colon, none, braces⟩
  | pending {taken colon span front left ending opened} (hbraces : braces = front ++ left)
      (hfront : front ≠ [])
      (hending : ending = .close ∨ ending = .input) :
      GathersBraces braces ⟨taken, .input, colon, some span, []⟩ ⟨taken ++ front, ending, colon,
        opened, left⟩

theorem Gathered.gathersBraces (custom : Bool) (tokens : List Token)
    (hbraces : ∀ b ∈ braces, b.kind = .rightBrace) (hsome : braces ≠ []) :
    GathersBraces braces (gather custom false [] none tokens)
      (gather custom false [] none (tokens ++ braces)) := by
  have htokens := tokens_gather custom false [] none tokens
  generalize hgather : gather custom false [] none tokens = gathered at htokens ⊢
  obtain ⟨taken, ending, colon, opened, left⟩ := gathered
  have hfits : ending.Fits left := fits_of_gather hgather
  have htokens : taken ++ ending.tokens ++ left = tokens := htokens
  by_cases hinput : ending = .input
  · subst hinput
    obtain rfl : left = [] := hfits
    obtain rfl : taken = tokens := by simpa [GatherEnd.tokens] using htokens
    obtain ⟨expected, hthrough, hopened⟩ := through_of_gather_input hgather rfl
    cases expected with
    | nil =>
        obtain rfl : opened = none :=
          Option.not_isSome_iff_eq_none.mp (by rw [hopened]; exact Bool.false_ne_true)
        obtain ⟨b, more, rfl⟩ := List.exists_cons_of_ne_nil hsome
        have hclose : (GatherEnd.close).Fits (b :: more) :=
          ⟨b, more, rfl, hbraces b List.mem_cons_self⟩
        rw [show gather custom false [] none (taken ++ b :: more) = _ from
          gather_of_through hthrough hclose fun _ hbrace ↦ by cases hbrace]
        exact .closed
    | cons closer outer =>
        obtain ⟨span, rfl⟩ := Option.isSome_iff_exists.mp hopened
        obtain ⟨front, left, last, rfl, hfront, hmore, hlast⟩ :=
          through_of_braces custom colon (List.cons_ne_nil closer outer) hbraces hsome
        have hwhole : through custom (false, []) (taken ++ front) = some (colon, last) := by
          rw [through_append, hthrough]
          exact hmore
        have hnone : (none : Option Span).isSome = !([] : List TokenKind).isEmpty := rfl
        obtain ⟨inner, -, hadd⟩ := gather_append hnone hwhole left
        have hend : ∃ ending, (ending = .close ∨ ending = .input) ∧
            gather custom colon last inner left = ⟨[], ending, colon, inner, left⟩ := by
          cases left with
          | nil => exact ⟨.input, .inr rfl, rfl⟩
          | cons b more =>
              obtain rfl := hlast.resolve_left (List.cons_ne_nil b more)
              have hb : b.kind = .rightBrace :=
                hbraces b (List.mem_append_right _ List.mem_cons_self)
              refine ⟨.close, .inl rfl, ?_⟩
              rw [gather_of_next?_eq_none more (by rw [hb]; rfl), ofEnd, hb]
        obtain ⟨ending, hending, hlast⟩ := hend
        rw [← List.append_assoc, hadd, hlast, prepend, List.append_nil]
        exact .pending rfl hfront hending
  · obtain ⟨hthrough, rfl, hbrace⟩ := through_of_gather hgather rfl fun h ↦ absurd h hinput
    have hfits' : ending.Fits (left ++ braces) := by
      cases ending with
      | semicolon | brace => exact hfits
      | close =>
          obtain ⟨t, more, rfl, ht⟩ := hfits
          exact ⟨t, more ++ braces, rfl, ht⟩
      | input => exact absurd rfl hinput
    rw [← htokens, List.append_assoc, List.append_assoc, gather_of_through hthrough hfits' hbrace]
    exact .same hinput hfits

/-- Without an open bracket a declaration without a semicolon is the same in front of closing
braces. -/
theorem settle_append_braces (custom : Bool) (tokens : List Token) (stop stop' : Nat)
    (colon : Bool) (left braces : List Token) :
    TakesBraces (settle custom tokens stop none colon left).1
      (settle custom tokens stop none colon left).2 braces
      (settle custom tokens stop' none colon (left ++ braces)) := by
  cases colon with
  | false => exact .same (fun _ ↦ rfl) rfl
  | true =>
      cases custom with
      | true => exact .same (fun _ ↦ rfl) rfl
      | false =>
          unfold settle
          simp only [Bool.not_true, Bool.false_eq_true, if_false]
          rw [← List.append_assoc]
          exact .same (fun _ ↦ rfl) rfl

/-- With an open bracket closing braces are tokens of the declaration, and so are the white space
and the comments in front of them. -/
theorem settle_pending {front left : List Token} {span : Span} (custom : Bool)
    (tokens : List Token) (stop stop' : Nat) (opened : Option Span) (colon : Bool)
    (hfront : front ≠ []) (hbraces : ∀ b ∈ front, b.kind = .rightBrace) :
    TakesBraces (settle custom tokens stop (some span) colon []).1
      (settle custom tokens stop (some span) colon []).2
      (front ++ left) (settle custom (tokens ++ front) stop' opened colon left) := by
  cases colon with
  | false => exact .pending rfl hfront (fun _ ↦ rfl) rfl (List.forall_mem_nil _)
  | true =>
      cases custom with
      | true =>
          refine .pending rfl hfront (fun depth ↦ ?_) rfl (List.forall_mem_nil _)
          show (if misses (tokens ++ front) then none else some depth) = _
          rw [misses_append fun b hb ↦ .inr (hbraces b hb)]
          rfl
      | false =>
          have happend := Token.splitTrailing_append Token.isTrivia tokens
          have htrivia := forall_mem_splitTrailing_snd Token.isTrivia tokens
          have hwhole : Token.splitTrailing Token.isTrivia (tokens ++ front) =
              (tokens ++ front, []) := by
            have hlast : ∀ v ∈ (tokens ++ front).getLast?, v.isTrivia = false := by
              intro v hv
              rw [List.getLast?_append, List.getLast?_eq_some_getLast hfront,
                Option.some_or] at hv
              cases hv
              rw [Token.isTrivia, hbraces _ (List.getLast_mem hfront)]
              rfl
            have h := splitTrailing_append_of_forall (p := Token.isTrivia)
              (List.forall_mem_nil _) hlast
            rwa [List.append_nil] at h
          unfold settle
          simp only [Bool.not_true, Bool.false_eq_true, if_false, hwhole]
          refine .pending rfl hfront (fun depth ↦ ?_) rfl (by rwa [List.append_nil])
          show (if misses (tokens ++ front) then none else some depth) =
            if misses (Token.splitTrailing Token.isTrivia tokens).1 then none else some depth
          rw [← happend, List.append_assoc, misses_append, happend]
          exact fun u hu ↦ (List.mem_append.mp hu).imp (htrivia u) (hbraces u)

theorem other_takesBraces (t : Token) (rest : List Token)
    (hbraces : ∀ b ∈ braces, b.kind = .rightBrace) (hsome : braces ≠ []) :
    TakesBraces (other 0 none t rest).1 (other 0 none t rest).2 braces
      (other 0 none t (rest ++ braces)) := by
  have hgathers := Gathered.gathersBraces (isCustom t) (t :: rest) hbraces hsome
  unfold other
  dsimp only
  rw [← List.cons_append]
  generalize Gathered.gather (isCustom t) false [] none (t :: rest) = gathered at hgathers ⊢
  generalize Gathered.gather (isCustom t) false [] none (t :: rest ++ braces) =
    gathered' at hgathers ⊢
  cases hgathers with
  | @same taken ending colon left hinput hfits =>
      cases ending with
      | semicolon s => cases colon <;> exact .same (fun _ ↦ rfl) rfl
      | brace b => exact .same (fun _ ↦ rfl) rfl
      | close => exact settle_append_braces _ taken _ _ colon left braces
      | input => exact absurd rfl hinput
  | @closed taken colon => exact settle_append_braces _ taken _ _ colon [] braces
  | @pending taken colon span front left ending opened hcut hfront hending =>
      subst hcut
      have hfrontBraces : ∀ b ∈ front, b.kind = .rightBrace :=
        fun b hb ↦ hbraces b (List.mem_append_left _ hb)
      rcases hending with rfl | rfl
      · exact settle_pending _ taken _ _ _ colon hfront hfrontBraces
      · exact settle_pending _ taken _ _ _ colon hfront hfrontBraces

theorem atRule_takesBraces (t : Token) (rest : List Token)
    (hbraces : ∀ b ∈ braces, b.kind = .rightBrace) (hsome : braces ≠ []) :
    let params := Params.gather none [] rest
    let params' := Params.gather none [] (rest ++ braces)
    TakesBraces (atRule t params.tokens params.ending) params.rest braces
      (atRule t params'.tokens params'.ending, params'.rest) := by
  have htokens := Params.tokens_gather none [] rest
  have hfits := Params.fits_gather none [] rest
  generalize hgather : Params.gather none [] rest = params at htokens hfits ⊢
  obtain ⟨tokens, ending, left⟩ := params
  have htokens : tokens ++ ending.tokens ++ left = rest := htokens
  -- What ends the parameters does so whatever follows.
  have hsame (hinput : ending ≠ .input) (hfits' : ending.Fits none (left ++ braces)) :
      Params.gather none [] (rest ++ braces) = ⟨tokens, ending, left ++ braces⟩ := by
    have hthrough : Params.through [] tokens = some [] := Params.through_of_gather hgather hinput
    rw [← htokens, List.append_assoc, List.append_assoc, Params.gather_of_through hthrough hfits']
  cases ending with
  | semicolon s | block s | close s =>
      rw [hsame (by rintro ⟨⟩) hfits]
      exact .same (fun _ ↦ rfl) rfl
  | failure e => cases hfits
  | input =>
      obtain ⟨rfl, -⟩ := hfits
      obtain rfl : tokens = rest := by simpa [AtRuleEnd.tokens] using htokens
      obtain ⟨expected, hthrough, -⟩ := Params.exists_through_of_gather hgather
      have hthrough : Params.through [] tokens = some expected := hthrough
      have hpending : (atRule t tokens .input).isPending = (expected != []) := by
        rw [isPending, hthrough]
        rfl
      cases expected with
      | nil =>
          obtain ⟨b, more, rfl⟩ := List.exists_cons_of_ne_nil hsome
          have hclose : (AtRuleEnd.close b).Fits none more := hbraces b List.mem_cons_self
          rw [show Params.gather none [] (tokens ++ b :: more) = _ from
            Params.gather_of_through hthrough hclose]
          exact .ended rfl rfl rfl hpending
      | cons closer outer =>
          have hbased := Params.isBased_of_through hthrough fun _ hk ↦ by cases hk
          obtain ⟨last, hlast⟩ :=
            Params.through_of_braces (List.cons_ne_nil closer outer) hbased hbraces
          have hwhole : Params.through [] (tokens ++ braces) = some last := by
            rw [Params.through_append, hthrough]
            exact hlast
          have hadd := Params.gather_append hwhole []
          rw [List.append_nil] at hadd
          rw [hadd]
          exact .pending (List.append_nil braces).symm hsome (fun _ ↦ rfl) hpending
            (List.forall_mem_nil _)

/-- The first statement of a run is the same with closing braces behind the run, unless they end
an at-rule or are taken in by a bracket that is open. -/
theorem first_takesBraces (t : Token) (rest : List Token)
    (hbraces : ∀ b ∈ braces, b.kind = .rightBrace) (hsome : braces ≠ []) :
    TakesBraces (first 0 none t rest).1 (first 0 none t rest).2 braces
      (first 0 none t (rest ++ braces)) := by
  unfold first
  split
  case h_6 => exact atRule_takesBraces t rest hbraces hsome
  case h_7 => exact other_takesBraces t rest hbraces hsome
  all_goals exact .same (fun _ ↦ rfl) rfl

/-! ## Open blocks -/

/-- `nests tokens depth` is the number of open blocks behind a run, as `nest` follows it. -/
def nests (tokens : List Token) (depth : Nat) : Option Nat := (ofTokens tokens).foldlM nest depth

theorem nests_cons (t : Token) (rest : List Token) (depth : Nat) :
    nests (t :: rest) depth =
      ((first 0 none t rest).1.nest depth).bind (nests (first 0 none t rest).2) := by
  rw [nests, ofTokens_cons, List.foldlM_cons]
  rfl

theorem nests_of_trivia {tokens : List Token} (h : ∀ t ∈ tokens, t.isTrivia = true)
    (depth : Nat) :
    nests tokens depth = some depth ∧ (ofTokens tokens).any isPending = false := by
  induction tokens with
  | nil => exact ⟨rfl, rfl⟩
  | cons t rest ih =>
      obtain ⟨ht, hrest⟩ := List.forall_mem_cons.mp h
      obtain ⟨hnests, hpending⟩ := ih hrest
      have hfirst : first 0 none t rest = (space t, rest) ∨
          first 0 none t rest = (comment t, rest) := by
        unfold Token.isTrivia TokenKind.isTrivia at ht
        unfold first
        split at ht
        · next hkind => exact .inl (by simp only [hkind])
        · next hkind => exact .inr (by simp only [hkind])
        · cases ht
      rw [nests_cons, ofTokens_cons]
      rcases hfirst with hfirst | hfirst <;> (rw [hfirst]; exact ⟨hnests, hpending⟩)

theorem nests_of_braces (hbraces : ∀ b ∈ braces, b.kind = .rightBrace) {depth : Nat}
    (hle : braces.length ≤ depth) : nests braces depth = some (depth - braces.length) := by
  induction braces generalizing depth with
  | nil => rfl
  | cons b more ih =>
      obtain ⟨hb, hmore⟩ := List.forall_mem_cons.mp hbraces
      rw [List.length_cons] at hle ⊢
      obtain ⟨inner, rfl⟩ :=
        Nat.exists_eq_add_of_le' (Nat.le_trans (Nat.succ_le_succ (Nat.zero_le _)) hle)
      have hfirst : first 0 none b more = (close b, more) := by
        unfold first
        simp only [hb]
      rw [nests_cons, hfirst]
      show nests more inner = _
      rw [ih hmore (by omega), Nat.add_sub_add_right]

/-- Closing braces behind a run close its open blocks, but for those that an open bracket takes
in. If one is open, it takes in one at least. -/
theorem nests_append_braces (hbraces : ∀ b ∈ braces, b.kind = .rightBrace) {tokens : List Token}
    {depth inner : Nat} (h : nests tokens depth = some inner) (hle : braces.length ≤ inner) :
    ∃ left, nests (tokens ++ braces) depth = some left ∧ inner ≤ left + braces.length ∧
      (left + braces.length = inner ↔ braces = [] ∨ (ofTokens tokens).any isPending = false) := by
  by_cases hnone : braces = []
  · subst hnone
    exact ⟨inner, by rwa [List.append_nil], Nat.le_refl _, by simp⟩
  generalize hlength : tokens.length = length
  induction length using Nat.strong_induction_on generalizing tokens depth with
  | _ length ih =>
      cases tokens with
      | nil =>
          cases h
          refine ⟨inner - braces.length, nests_of_braces hbraces hle, ?_, ?_⟩
          · omega
          · exact ⟨fun _ ↦ .inr rfl, fun _ ↦ by omega⟩
      | cons t rest =>
          have hrest := length_first_le 0 none t rest
          have htakes := first_takesBraces t rest hbraces hnone
          rw [nests_cons] at h
          rw [List.cons_append, nests_cons, ofTokens_cons, List.any_cons]
          generalize first 0 none t rest = cut at h hrest htakes ⊢
          generalize first 0 none t (rest ++ braces) = cut' at htakes ⊢
          obtain ⟨s, behind⟩ := cut
          obtain ⟨middle, hmiddle, h⟩ := Option.bind_eq_some_iff.mp h
          dsimp only at hmiddle h hrest htakes ⊢
          cases htakes with
          | same hnest hpending =>
              obtain ⟨left, hleft, hsum, hiff⟩ :=
                ih behind.length (by rw [← hlength, List.length_cons]; omega) h rfl
              refine ⟨left, ?_, hsum, ?_⟩
              · rw [hnest, hmiddle]
                exact hleft
              · rw [hpending, Bool.false_or, hiff]
          | @ended word params b more hs hbehind hcut hpending =>
              subst hs hbehind hcut
              cases hmiddle
              cases h
              rw [List.length_cons] at hle ⊢
              obtain ⟨outer, rfl⟩ :=
                Nat.exists_eq_add_of_le' (Nat.le_trans (Nat.succ_le_succ (Nat.zero_le _)) hle)
              have hclosed := nests_of_braces (List.forall_mem_cons.mp hbraces).2
                (by omega : more.length ≤ outer)
              refine ⟨outer - more.length, hclosed, by omega, ?_⟩
              rw [hpending]
              exact ⟨fun _ ↦ .inr rfl, fun _ ↦ by omega⟩
          | @pending s' front left hcut hfront hnest hpending htrivia =>
              rw [(nests_of_trivia htrivia middle).1] at h
              cases h
              subst hcut
              have hpos := List.length_pos_iff.mpr hfront
              rw [List.length_append] at hle ⊢
              have hclosed := nests_of_braces (fun b hb ↦ hbraces b (List.mem_append_right _ hb))
                (by omega : left.length ≤ inner)
              refine ⟨inner - left.length, ?_, by omega, ?_⟩
              · rw [hnest, hmiddle]
                exact hclosed
              · rw [hpending, Bool.true_or]
                refine ⟨fun heq ↦ ?_, fun hor ↦ ?_⟩
                · omega
                · rcases hor with hnil | htrue
                  · exact absurd hnil hnone
                  · cases htrue

/-! ## Sketches -/

theorem isPending_sketch (s : Statement) : s.sketch.isPending = s.isPending := by
  cases s with
  | atRule word params ending =>
      cases ending with
      | input =>
          have hthrough : Params.through [] (params.map Token.sketch) =
              Params.through [] params := by
            rw [Params.through, List.map_map]
            rfl
          show (Params.through [] (params.map Token.sketch) != some []) = _
          rw [hthrough]
          rfl
      | _ => rfl
  | declaration _ _ _ opened | stray _ opened => cases opened <;> rfl
  | _ => rfl

/-- How many blocks the statements of a run leave open depends on its sketch, and not on where
they end. -/
theorem foldlM_nest_group (stop : Nat) (tokens : List Token) (depth : Nat) :
    (group stop none (tokens.length + 1) tokens).foldlM nest depth =
      nests (tokens.map Token.sketch) depth := by
  rw [nests, ofTokens_map_sketch stop, List.foldlM_map]
  simp only [nest_sketch]

/-- Whether a bracket is open depends on the sketch of a run, and not on where its statements
end. -/
theorem any_isPending_group (stop : Nat) (tokens : List Token) :
    (group stop none (tokens.length + 1) tokens).any isPending =
      (ofTokens (tokens.map Token.sketch)).any isPending := by
  rw [ofTokens_map_sketch stop, List.any_map]
  congr 1
  exact funext fun s ↦ (isPending_sketch s).symm

end Statement

end Stylesheet
