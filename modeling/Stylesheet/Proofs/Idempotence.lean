import Stylesheet.Proofs.Attribution
import Stylesheet.Proofs.Closing
import Stylesheet.Proofs.Pending
import Stylesheet.Proofs.Trailing

/-!
# Repairing twice

A repaired text ends with a closing brace for each block that was open. These braces close the
blocks when the text is read again, unless something else is open behind the last of its
statements and takes them in: a string, the body of a url, a bracket, or an escape.
`process_again_iff` says that this is the only reason for which repairing a text again changes it,
where no closing brace was left over and no semicolon was missed.
-/

namespace Stylesheet

open Token

/-! ## Statements that are open -/

namespace Statement

/-- `s.isOpen` says that a statement takes in what is added at the end of the text: it has a
bracket open, or its last token is, unless that is a comment of its own, which gets its end. -/
def isOpen : Statement → Bool
  | comment _ => false
  | s => s.isPending || s.tokens.any (·.healed)

variable {stop steps : Nat} {tokens init : List Token} {u : Token}

theorem flatMap_tokens_group (hsteps : tokens.length < steps) :
    (group stop none steps tokens).flatMap Statement.tokens = tokens := by
  induction steps generalizing tokens with
  | zero => exact absurd hsteps (Nat.not_lt_zero _)
  | succ steps ih =>
      cases tokens with
      | nil => rfl
      | cons t rest =>
          have hlength := length_first_le stop none t rest
          rw [List.length_cons] at hsteps
          rw [group, List.flatMap_cons, ih (by omega), tokens_first]

theorem tokens_ne_nil_of_mem_group {s : Statement} (h : s ∈ group stop none steps tokens) :
    s.tokens ≠ [] := by
  induction steps generalizing tokens with
  | zero => cases h
  | succ steps ih =>
      cases tokens with
      | nil => cases h
      | cons t rest =>
          rcases List.mem_cons.mp h with hs | h
          · intro hnil
            have hs : s = (first stop none t rest).1 := hs
            rw [hs] at hnil
            have hlength := length_first_le stop none t rest
            have htokens := tokens_first stop t rest
            rw [hnil, List.nil_append] at htokens
            rw [htokens, List.length_cons] at hlength
            omega
          · exact ih h

theorem kind_of_comment_mem_group {v : Token} (h : .comment v ∈ group stop none steps tokens) :
    v.kind = .comment := by
  induction steps generalizing tokens with
  | zero => cases h
  | succ steps ih =>
      cases tokens with
      | nil => cases h
      | cons t rest =>
          rcases List.mem_cons.mp h with hs | h
          · have hcut := first_cut stop t rest
            have hs : comment v = (first stop none t rest).1 := hs
            rw [← hs] at hcut
            generalize (first stop none t rest).2 = behind at hcut
            cases hcut with
            | comment hkind => exact hkind
          · exact ih h

/-- A comment that is healed is the last statement. -/
theorem group_of_healed_comment {v : Token} (hsteps : (init ++ [u]).length < steps)
    (hinit : ∀ t ∈ init, t.healed = false) (h : .comment v ∈ group stop none steps (init ++ [u]))
    (hhealed : v.healed = true) :
    v = u ∧ ∃ front, group stop none steps (init ++ [u]) = front ++ [.comment u] ∧
      front.flatMap Statement.tokens = init := by
  have htokens : (group stop none steps (init ++ [u])).flatMap Statement.tokens = init ++ [u] :=
    flatMap_tokens_group hsteps
  obtain ⟨front, behind, hgroup⟩ := List.append_of_mem h
  rw [hgroup, List.flatMap_append, List.flatMap_cons] at htokens
  have hnone : behind = [] := by
    rcases List.eq_nil_or_concat behind with hnil | ⟨more, s, hmore⟩
    · exact hnil
    -- A statement behind the comment has the last token, so that the comment is before it.
    rw [List.concat_eq_append] at hmore
    have hs : s.tokens ≠ [] := tokens_ne_nil_of_mem_group (by rw [hgroup, hmore]; simp)
    obtain ⟨left, w, hleft⟩ := (List.eq_nil_or_concat s.tokens).resolve_left hs
    rw [List.concat_eq_append] at hleft
    have hcut :
        (front.flatMap Statement.tokens ++ v :: (more.flatMap Statement.tokens ++ left)) ++ [w] =
        init ++ [u] := by
      rw [← htokens, hmore, List.flatMap_append, List.flatMap_singleton, hleft]
      simp [Statement.tokens]
    have hv := hinit v (by rw [← (List.append_inj' hcut rfl).1]; simp)
    rw [hhealed] at hv
    cases hv
  subst hnone
  have hcut : front.flatMap Statement.tokens ++ [v] = init ++ [u] := by
    rw [← htokens, List.flatMap_nil, List.append_nil]
    rfl
  obtain ⟨hfront, hlast⟩ := List.append_inj' hcut rfl
  cases hlast
  exact ⟨rfl, front, hgroup, hfront⟩

/-- Without a comment that is healed statements are written as their tokens. -/
theorem flatMap_written {statements : List Statement}
    (h : ∀ v, .comment v ∈ statements → v.healed = false) :
    statements.flatMap written = Token.spelling (statements.flatMap Statement.tokens) := by
  induction statements with
  | nil => rfl
  | cons s rest ih =>
      have hs : s.written = Token.spelling s.tokens := by
        cases s with
        | comment v => simp [written, Statement.tokens, Token.commentText, h v List.mem_cons_self]
        | space | semicolon | close | atRule | rule | declaration | stray | failure => rfl
      rw [List.flatMap_cons, List.flatMap_cons, Token.spelling_append, hs,
        ih fun v hv ↦ h v (List.mem_cons_of_mem _ hv)]

theorem isOpen_eq {s : Statement} (h : ∀ v, s ≠ .comment v) :
    s.isOpen = (s.isPending || s.tokens.any (·.healed)) := by
  cases s with
  | comment v => exact absurd rfl (h v)
  | space | semicolon | close | atRule | rule | declaration | stray | failure => rfl

/-- Without a healed token only an open bracket makes a statement open. -/
theorem isOpen_of_healed {s : Statement} (h : ∀ t ∈ s.tokens, t.healed = false) :
    s.isOpen = s.isPending := by
  have hnone : s.tokens.any (·.healed) = false :=
    List.any_eq_false.mpr fun t ht ↦ by rw [h t ht]; exact Bool.false_ne_true
  by_cases hcomment : ∃ v, s = .comment v
  · obtain ⟨v, rfl⟩ := hcomment
    rfl
  · rw [isOpen_eq (not_exists.mp hcomment), hnone, Bool.or_false]

theorem any_isOpen_of_healed {statements : List Statement}
    (h : ∀ t ∈ statements.flatMap Statement.tokens, t.healed = false) :
    statements.any isOpen = statements.any isPending := by
  induction statements with
  | nil => rfl
  | cons s rest ih =>
      rw [List.flatMap_cons, List.forall_mem_append] at h
      rw [List.any_cons, List.any_cons, isOpen_of_healed h.1, ih h.2]

end Statement

/-! ## Sources -/

namespace Source

/-- `source.tokens` are the tokens that tolerant reading finds in a source. -/
def tokens (source : Source) : List Token := (Token.run source.text .heal).tokens

/-- `source.endsOpen` says that a closing brace at the end of a source would not close a block: a
statement is open there, or an escape has nothing left to escape. -/
def endsOpen (source : Source) : Bool :=
  source.statements.any Statement.isOpen ||
    source.tokens.getLast?.any fun t ↦ Scan.isHungry t.text

theorem statements_eq (source : Source) :
    source.statements =
      Statement.group source.size none (source.tokens.length + 1) source.tokens := by
  have hfailure := Lexer.failure_run_heal source.text .stock
  rw [statements, Statement.ofRun,
    show (Token.run source.text .heal).failure = none from hfailure]
  rfl

theorem spelling_tokens (source : Source) : Token.spelling source.tokens = source.text :=
  Token.spelling_run (Lexer.failure_run_heal source.text .stock)

theorem foldlM_nest (source : Source) (depth : Nat) :
    source.statements.foldlM Statement.nest depth =
      Statement.nests (source.tokens.map Token.sketch) depth := by
  rw [statements_eq, Statement.foldlM_nest_group]

theorem any_isPending (source : Source) :
    source.statements.any Statement.isPending =
      (Statement.ofTokens (source.tokens.map Token.sketch)).any Statement.isPending := by
  rw [statements_eq, Statement.any_isPending_group]

theorem flatMap_tokens (source : Source) :
    source.statements.flatMap Statement.tokens = source.tokens := by
  rw [statements_eq, Statement.flatMap_tokens_group (Nat.lt_succ_self _)]

/-- Without a comment that is healed the statements of a source are written as its text. -/
theorem written_of_comments {source : Source}
    (h : ∀ v, .comment v ∈ source.statements → v.healed = false) :
    source.statements.flatMap Statement.written = source.text := by
  rw [Statement.flatMap_written h, flatMap_tokens, spelling_tokens]

/-- A comment that is healed is the last statement of a source, and it gets its end. -/
theorem written_of_healed_comment {source : Source} {v : Token}
    (h : .comment v ∈ source.statements) (hhealed : v.healed = true) :
    (∃ init front, source.tokens = init ++ [v] ∧ source.statements = front ++ [.comment v] ∧
      front.flatMap Statement.tokens = init) ∧ v.kind = .comment ∧
      source.statements.flatMap Statement.written = source.text ++ "*/".toList ∧
      source.statements.any Statement.isOpen = source.statements.any Statement.isPending := by
  have htext := source.spelling_tokens
  rw [statements_eq] at h ⊢
  have hkind := Statement.kind_of_comment_mem_group h
  rcases List.eq_nil_or_concat source.tokens with hnil | ⟨init, u, hconcat⟩
  · rw [hnil] at h
    cases h
  rw [List.concat_eq_append] at hconcat
  obtain ⟨_, _, -, -, -, -, -, hinit⟩ := Token.reads_of_run_concat hconcat
  rw [hconcat] at h htext ⊢
  obtain ⟨rfl, front, hgroup, hfront⟩ :=
    Statement.group_of_healed_comment (Nat.lt_succ_self _) hinit h hhealed
  refine ⟨⟨init, front, rfl, hgroup, hfront⟩, hkind, ?_, ?_⟩
  · have hcomments : ∀ w, .comment w ∈ front → w.healed = false := fun w hw ↦
      hinit w (by rw [← hfront]; exact List.mem_flatMap.mpr ⟨_, hw, List.mem_singleton_self w⟩)
    have hwritten := Statement.flatMap_written hcomments
    rw [hgroup, List.flatMap_append, hwritten, hfront, ← htext, List.flatMap_singleton,
      Token.spelling_append]
    simp [Statement.written, Token.commentText, hhealed]
  · rw [hgroup, List.any_append, List.any_append,
      Statement.any_isOpen_of_healed (by rwa [hfront])]
    rfl

theorem unhealed_of_last {source : Source} (h : ∀ u ∈ source.tokens.getLast?, u.healed = false) :
    ∀ t ∈ source.tokens, t.healed = false := by
  rcases List.eq_nil_or_concat source.tokens with hnil | ⟨init, u, hconcat⟩
  · rw [hnil]
    exact List.forall_mem_nil _
  · rw [List.concat_eq_append] at hconcat
    obtain ⟨_, _, -, -, -, -, -, hinit⟩ := Token.reads_of_run_concat hconcat
    rw [hconcat, List.getLast?_concat] at h
    rw [hconcat]
    exact List.forall_mem_append.mpr ⟨hinit, List.forall_mem_singleton.mpr (h u rfl)⟩

/-- Without a healed token the statements of a source are written as its text. -/
theorem written_of_unhealed {source : Source} (h : ∀ t ∈ source.tokens, t.healed = false) :
    source.statements.flatMap Statement.written = source.text :=
  written_of_comments fun v hv ↦ h v <| by
    rw [← flatMap_tokens]
    exact List.mem_flatMap.mpr ⟨_, hv, List.mem_singleton_self v⟩

/-- A healed token belongs to a statement that is open, if it is no comment of its own. -/
theorem any_isOpen_of_healed {source : Source} {init : List Token} {u : Token}
    (h : source.tokens = init ++ [u]) (hhealed : u.healed = true)
    (hcomments : ∀ v, .comment v ∈ source.statements → v.healed = false) :
    source.statements.any Statement.isOpen = true := by
  have hu : u ∈ source.statements.flatMap Statement.tokens := by
    rw [flatMap_tokens, h]
    exact List.mem_append_right _ (List.mem_singleton_self u)
  obtain ⟨s, hs, hu⟩ := List.mem_flatMap.mp hu
  refine List.any_eq_true.mpr ⟨s, hs, ?_⟩
  have hany : s.tokens.any (·.healed) = true := List.any_eq_true.mpr ⟨u, hu, hhealed⟩
  rw [Statement.isOpen_eq, hany, Bool.or_true]
  rintro v rfl
  obtain rfl := List.mem_singleton.mp hu
  rw [hcomments u hs] at hhealed
  cases hhealed

/-- Sources with the same sketch have their comments at the same places. -/
theorem comments_of_sketch {source again : Source} {init : List Token} {u : Token}
    (h : source.tokens = init ++ [u]) (hhealed : u.healed = true)
    (hsketch : again.tokens.map Token.sketch = source.tokens.map Token.sketch)
    (hcomments : ∀ v, .comment v ∈ source.statements → v.healed = false) :
    ∀ v, .comment v ∈ again.statements → v.healed = false := by
  intro v hv
  refine eq_false_of_ne_true fun hvhealed ↦ ?_
  obtain ⟨⟨_, front, -, hagain, -⟩, -⟩ := written_of_healed_comment hv hvhealed
  have hmap : source.statements.map Statement.sketch = again.statements.map Statement.sketch := by
    rw [statements_eq, statements_eq, ← Statement.ofTokens_map_sketch,
      ← Statement.ofTokens_map_sketch, hsketch]
  rw [hagain, List.map_append, List.map_singleton, List.map_eq_append_iff] at hmap
  obtain ⟨first, last, hstatements, -, hlast⟩ := hmap
  obtain ⟨s, rfl, hs⟩ := List.map_eq_singleton_iff.mp hlast
  have hcomment : s = .comment u := by
    cases s with
    | comment w =>
        have htokens := source.flatMap_tokens
        rw [hstatements, List.flatMap_append, List.flatMap_singleton, h] at htokens
        have hw : [w] = [u] := (List.append_inj' htokens rfl).2
        cases hw
        rfl
    | space | semicolon | close | atRule | rule | declaration | stray | failure => cases hs
  have hfalse := hcomments u (by rw [hstatements, hcomment]; simp)
  rw [hhealed] at hfalse
  cases hfalse

/-- How many blocks closing braces behind the tokens of a source leave open. -/
theorem nests_of_isBraced {ts tokens : List Token} {n depth : Nat}
    (hbraced : Token.IsBraced ts n tokens)
    (h : Statement.nests (ts.map Token.sketch) 0 = some depth) (hle : n ≤ depth) :
    ∃ left, Statement.nests (tokens.map Token.sketch) 0 = some left ∧ depth ≤ left + n ∧
      (left + n = depth ↔
        n = 0 ∨ (Statement.ofTokens (ts.map Token.sketch)).any Statement.isPending = false) := by
  obtain ⟨us, braces, rfl, hus, rfl, hkinds⟩ := hbraced
  have hbraces : ∀ b ∈ braces.map Token.sketch, b.kind = .rightBrace := by
    intro b hb
    obtain ⟨c, hc, rfl⟩ := List.mem_map.mp hb
    exact (hkinds c hc).1
  obtain ⟨left, hleft, hsum, hiff⟩ := Statement.nests_append_braces hbraces h
    (by rwa [List.length_map])
  rw [List.length_map] at hsum hiff
  refine ⟨left, by rw [List.map_append, hus, hleft], hsum, ?_⟩
  rw [hiff, List.map_eq_nil_iff, List.length_eq_zero_iff]

/-- All braces close blocks if no bracket takes them in. -/
theorem closes_iff {left depth : Nat} {pending : Bool}
    (h : left + depth = depth ↔ depth = 0 ∨ pending = false) :
    left = 0 ↔ ¬(depth ≠ 0 ∧ pending = true) := by
  cases pending <;> simp at h ⊢ <;> omega

/-- `source.Closes depth again` says that what is read again for a source is written as its text,
and that the braces at its end close the `depth` blocks of the source unless the source ends
open. -/
structure Closes (source : Source) (depth : Nat) (again : Source) : Prop where
  written : again.statements.flatMap Statement.written = again.text
  nests : ∃ left, Statement.nests (again.tokens.map Token.sketch) 0 = some left ∧
    (left = 0 ↔ ¬(depth ≠ 0 ∧ source.endsOpen = true))

section Closes

variable {source again : Source} {depth : Nat} {init : List Token} {u : Token}

theorem isBraces_replicate (n : Nat) : Text.IsBraces (List.replicate n '\x7d') :=
  fun _ ↦ List.eq_of_mem_replicate

/-- The end of a comment that is open is before the braces. -/
theorem closes_of_comment {v : Token} (hv : .comment v ∈ source.statements)
    (hhealed : v.healed = true)
    (h : Statement.nests (source.tokens.map Token.sketch) 0 = some depth) (hagain : again.text =
      source.statements.flatMap Statement.written ++ List.replicate depth '\x7d') :
    source.Closes depth again := by
  obtain ⟨⟨init, _, htokens, -⟩, hkind, hwritten, hopen⟩ := written_of_healed_comment hv hhealed
  obtain ⟨hbraced, hunhealed⟩ :=
    Token.run_append_end_of_comment (isBraces_replicate depth) htokens hhealed hkind
  rw [hwritten, List.append_assoc] at hagain
  rw [← hagain, List.length_replicate] at hbraced
  rw [← hagain] at hunhealed
  obtain ⟨left, hleft, -, hiff⟩ := nests_of_isBraced hbraced h (Nat.le_refl depth)
  have hends : source.endsOpen = source.statements.any Statement.isPending := by
    rw [endsOpen, hopen, htokens, List.getLast?_concat, Option.any_some,
      Token.isHungry_of_healed htokens hhealed, Bool.or_false]
  refine ⟨written_of_unhealed hunhealed, left, hleft, ?_⟩
  rw [hends, any_isPending]
  exact closes_iff hiff

/-- A token that is open takes all the braces in. -/
theorem closes_of_healed (htokens : source.tokens = init ++ [u]) (hhealed : u.healed = true)
    (hcomments : ∀ v, .comment v ∈ source.statements → v.healed = false)
    (h : Statement.nests (source.tokens.map Token.sketch) 0 = some depth)
    (hagain : again.text = source.text ++ List.replicate depth '\x7d') :
    source.Closes depth again := by
  have hbraced := Token.run_append_braces_of_healed (isBraces_replicate depth) htokens hhealed
  rw [← hagain] at hbraced
  have hsketch : again.tokens.map Token.sketch = source.tokens.map Token.sketch := by
    obtain ⟨us, braces, hus, hmap, hlength, -⟩ := hbraced
    rw [List.length_eq_zero_iff.mp hlength, List.append_nil] at hus
    rw [tokens, hus, hmap]
    rfl
  refine ⟨written_of_comments (comments_of_sketch htokens hhealed hsketch hcomments), depth,
    hsketch ▸ h, ?_⟩
  rw [endsOpen, any_isOpen_of_healed htokens hhealed hcomments]
  simp

/-- An escape with nothing left to escape takes a brace in. -/
theorem closes_of_isHungry (htokens : source.tokens = init ++ [u])
    (hhungry : Scan.isHungry u.text = true) (hunhealed : ∀ t ∈ source.tokens, t.healed = false)
    (h : Statement.nests (source.tokens.map Token.sketch) 0 = some depth)
    (hagain : again.text = source.text ++ List.replicate depth '\x7d') :
    source.Closes depth again := by
  have hends : source.endsOpen = true := by
    rw [endsOpen, htokens, List.getLast?_concat, Option.any_some, hhungry, Bool.or_true]
  cases depth with
  | zero =>
      have hsame : again.tokens = source.tokens := by
        rw [tokens, hagain, List.replicate_zero, List.append_nil]
        rfl
      rw [← hsame] at h hunhealed
      exact ⟨written_of_unhealed hunhealed, 0, h, by simp⟩
  | succ depth =>
      obtain ⟨hbraced, hunhealed⟩ :=
        Token.run_append_braces_of_isHungry (isBraces_replicate depth) htokens hhungry
      rw [List.replicate_succ] at hagain
      rw [← hagain, List.length_replicate] at hbraced
      rw [← hagain] at hunhealed
      obtain ⟨left, hleft, hsum, -⟩ := nests_of_isBraced hbraced h (Nat.le_succ depth)
      refine ⟨written_of_unhealed hunhealed, left, hleft, ?_⟩
      rw [hends]
      exact iff_of_false (by omega) fun hnot ↦ hnot ⟨Nat.succ_ne_zero depth, rfl⟩

/-- Where no token takes a brace in an open bracket does. -/
theorem closes_of_fed
    (hfed : ∀ u ∈ source.tokens.getLast?, u.healed = false ∧ Scan.isHungry u.text = false)
    (h : Statement.nests (source.tokens.map Token.sketch) 0 = some depth)
    (hagain : again.text = source.text ++ List.replicate depth '\x7d') :
    source.Closes depth again := by
  obtain ⟨hbraced, hunhealed⟩ := Token.run_append_braces (x := source.text)
    (isBraces_replicate depth) hfed
  rw [← hagain, List.length_replicate] at hbraced
  rw [← hagain] at hunhealed
  obtain ⟨left, hleft, -, hiff⟩ := nests_of_isBraced hbraced h (Nat.le_refl depth)
  have hends : source.endsOpen = source.statements.any Statement.isPending := by
    have hopen : source.statements.any Statement.isOpen =
        source.statements.any Statement.isPending :=
      Statement.any_isOpen_of_healed (by
        rw [flatMap_tokens]
        exact unhealed_of_last fun u hu ↦ (hfed u hu).1)
    have hnone : (source.tokens.getLast?.any fun t ↦ Scan.isHungry t.text) = false := by
      cases hlast : source.tokens.getLast? with
      | none => rfl
      | some u => exact (hfed u hlast).2
    rw [endsOpen, hopen, hnone, Bool.or_false]
  refine ⟨written_of_unhealed hunhealed, left, hleft, ?_⟩
  rw [hends, any_isPending]
  exact closes_iff hiff

/-- The text that is printed for a source is written for its statements when it is read again, and
its braces close all blocks unless the source ends open. -/
theorem closes_of_written (h : Statement.nests (source.tokens.map Token.sketch) 0 = some depth)
    (hagain : again.text =
      source.statements.flatMap Statement.written ++ List.replicate depth '\x7d') :
    source.Closes depth again := by
  by_cases hcomment : ∃ v, .comment v ∈ source.statements ∧ v.healed = true
  · obtain ⟨v, hv, hhealed⟩ := hcomment
    exact closes_of_comment hv hhealed h hagain
  have hcomments : ∀ v, .comment v ∈ source.statements → v.healed = false :=
    fun v hv ↦ eq_false_of_ne_true fun hhealed ↦ hcomment ⟨v, hv, hhealed⟩
  rw [written_of_comments hcomments] at hagain
  by_cases hlast : ∃ u ∈ source.tokens.getLast?, u.healed = true ∨ Scan.isHungry u.text = true
  · obtain ⟨u, hu, hopen⟩ := hlast
    obtain ⟨init, htokens⟩ := List.getLast?_eq_some_iff.mp hu
    by_cases hhealed : u.healed = true
    · exact closes_of_healed htokens hhealed hcomments h hagain
    · have hunhealed : ∀ t ∈ source.tokens, t.healed = false := by
        refine unhealed_of_last fun w hw ↦ ?_
        obtain rfl := Option.mem_unique hu hw
        exact eq_false_of_ne_true hhealed
      exact closes_of_isHungry htokens (hopen.resolve_left hhealed) hunhealed h hagain
  · exact closes_of_fed
      (fun u hu ↦ ⟨eq_false_of_ne_true fun hhealed ↦ hlast ⟨u, hu, .inl hhealed⟩,
      eq_false_of_ne_true fun hhungry ↦ hlast ⟨u, hu, .inr hhungry⟩⟩) h hagain

end Closes

end Source

/-! ## Documents -/

namespace Assembly

/-- Behind the last statement an open block is recorded exactly if there is one. -/
theorem recorded_unclosedBlock_iff {a b : Assembly} {run : TokenRun} (hbenign : a.IsBenign)
    (h : a.finish run = .ok b) :
    (∃ r ∈ b.recoveries, r.damage = .unclosedBlock) ↔ a.enclosing.length ≠ 0 := by
  constructor
  · rintro ⟨r, hr, hdamage⟩ hnone
    rw [finish_of_enclosing (List.length_eq_zero_iff.mp hnone)] at h
    have hearlier : ∀ r ∈ a.ended.recoveries, r.damage ≠ .unclosedBlock := by
      intro r hr hdamage
      have hfalse := hbenign r hr
      rw [hdamage] at hfalse
      cases hfalse
    suffices hlater : ∀ r ∈ b.recoveries, r.damage ≠ .unclosedBlock from hlater r hr hdamage
    unfold reportHealed at h
    split at h
    · next t _ =>
        split at h
        · refine forall_damage_of_report (P := (· ≠ .unclosedBlock)) h hearlier ?_
          cases OpenConstruct.ofTokenKind t.kind <;> decide
        · cases h
          exact hearlier
    · cases h
      exact hearlier
  · intro hopen
    obtain ⟨_, _, _, _, _, hrecorded, _⟩ := finish_quiet h
    exact hrecorded fun hnil ↦ hopen (by rw [hnil]; rfl)

end Assembly

/-- The statements of a source nest if neither a closing brace that is left over nor a missed
semicolon is recorded, and an open block is recorded exactly if they leave one open. -/
theorem exists_nest_of_parse {source : Source} {doc : Document}
    (h : parse source .tolerant = .ok doc)
    (hkept : ∀ r ∈ doc.recoveries, r.damage ≠ .unexpectedClose ∧ r.damage ≠ .missedSemicolon) :
    ∃ depth, source.statements.foldlM Statement.nest 0 = some depth ∧
      ((∃ r ∈ doc.recoveries, r.damage = .unclosedBlock) ↔ depth ≠ 0) := by
  obtain ⟨final, hassemble, rfl⟩ := parse_eq_ok.mp h
  obtain ⟨a, hfold, hfinish⟩ := bind_eq_ok.mp hassemble
  rw [final.recoveries_document] at hkept ⊢
  cases hnest : source.statements.foldlM Statement.nest 0 with
  | none =>
      obtain ⟨r, hr, hdamage⟩ :=
        Assembly.recorded_of_foldlM_nest (a := Assembly.start source .tolerant) rfl hnest hfold
      obtain ⟨hclose, hmissed⟩ := hkept r ((Assembly.steps_finish hfinish).repairs_kept.subset hr)
      exact absurd hdamage (not_or.mpr ⟨hclose, hmissed⟩)
  | some depth =>
      obtain ⟨hlength, hbenign⟩ :=
        Assembly.foldlM_add_of_nest (a := Assembly.start source .tolerant) rfl hnest hfold
      refine ⟨depth, rfl, ?_⟩
      rw [← hlength]
      exact Assembly.recorded_unclosedBlock_iff (hbenign (List.forall_mem_nil _)) hfinish

/-- What is processed has been read. -/
theorem parse_of_process {dialect : Dialect} {source : Source} {mode : Mode}
    {processed : Processed} (h : process dialect source mode = .ok processed) :
    dialect.parse source mode = .ok processed.document := by
  obtain ⟨doc, hdoc, h⟩ := bind_eq_ok.mp h
  cases hparse : dialect.parse source mode with
  | error e =>
      rw [hparse] at hdoc
      cases hdoc
  | ok doc' =>
      rw [hparse] at hdoc
      cases hdoc
      obtain ⟨fragments, -, h⟩ := bind_eq_ok.mp h
      cases h
      rfl

/-- A text whose statements nest is processed to what is written for them, with a closing brace
for each block that is open behind them. -/
theorem process_of_nest {source : Source} {doc : Document} {depth : Nat}
    (h : parse source .tolerant = .ok doc)
    (hnest : source.statements.foldlM Statement.nest 0 = some depth) (mode : Mode) :
    ∃ mappings, process .safeCss source mode = .ok ⟨doc,
      source.statements.flatMap Statement.written ++ List.replicate depth '\x7d', mappings⟩ := by
  have hprints := print_of_nest h hnest {}
  have hparse : Dialect.safeCss.parse source mode = .ok doc := h
  have hprocess := process_of_print hparse hprints.failure
  rw [show (Dialect.safeCss.print doc).text = _ from hprints.text_eq] at hprocess
  exact ⟨_, hprocess⟩

/-- Processing a repaired text again gives the same text, unless a block was closed at the end of
a source that ends open. -/
theorem process_again_iff {source : Source} {mode : Mode} {first : Processed}
    (h : process .safeCss source mode = .ok first)
    (hkept : ∀ r ∈ first.document.recoveries, r.damage ≠ .unexpectedClose ∧
      r.damage ≠ .missedSemicolon)
    (file : Option String) (mode' : Mode) :
    ∃ second, process .safeCss ⟨first.text, file⟩ mode' = .ok second ∧
      (second.text = first.text ↔
        ¬((∃ r ∈ first.document.recoveries, r.damage = .unclosedBlock) ∧
          source.endsOpen = true)) := by
  have hparse : parse source .tolerant = .ok first.document := parse_of_process h
  obtain ⟨depth, hnest, hopen⟩ := exists_nest_of_parse hparse hkept
  obtain ⟨mappings, hprocess⟩ := process_of_nest hparse hnest mode
  have hfirst := Except.ok.inj (h.symm.trans hprocess)
  have htext : first.text =
      source.statements.flatMap Statement.written ++ List.replicate depth '\x7d' :=
    congrArg Processed.text hfirst
  rw [source.foldlM_nest] at hnest
  let again : Source := ⟨first.text, file⟩
  obtain ⟨hwritten, left, hleft, hiff⟩ :=
    Source.closes_of_written hnest (show again.text = _ from htext)
  rw [← Source.foldlM_nest] at hleft
  obtain ⟨doc, hagain, -⟩ := exists_parse_tolerant ⟨first.text, file⟩
  obtain ⟨mappings', hsecond⟩ := process_of_nest hagain hleft mode'
  refine ⟨_, hsecond, ?_⟩
  rw [hopen, ← hiff, hwritten]
  show first.text ++ List.replicate left '\x7d' = first.text ↔ left = 0
  rw [List.append_right_eq_self, List.replicate_eq_nil_iff]

/-- A comment that is open at the end of a block gets its end and the block its brace, which
changes nothing when the text is processed again. -/
theorem process_again_comment : ∃ first second : Processed,
    process .safeCss ⟨"a\x7bb:c;/*d".toList, none⟩ .strict = .ok first ∧
      (∀ r ∈ first.document.recoveries, r.damage ≠ .unexpectedClose ∧
        r.damage ≠ .missedSemicolon) ∧
      process .safeCss ⟨first.text, none⟩ .tolerant = .ok second ∧ second.text = first.text := by
  obtain ⟨first, hfirst, hkept⟩ : ∃ first : Processed,
      process .safeCss ⟨"a\x7bb:c;/*d".toList, none⟩ .strict = .ok first ∧
        ∀ r ∈ first.document.recoveries, r.damage ≠ .unexpectedClose ∧
        r.damage ≠ .missedSemicolon :=
    ⟨_, rfl, by decide +kernel⟩
  have hends : Source.endsOpen ⟨"a\x7bb:c;/*d".toList, none⟩ = false := rfl
  obtain ⟨second, hsecond, hiff⟩ := process_again_iff hfirst hkept none .tolerant
  refine ⟨first, second, hfirst, hkept, hsecond, hiff.mpr fun hopen ↦ ?_⟩
  rw [hends] at hopen
  exact Bool.false_ne_true hopen.2

/-- A string that is open takes in the brace that closes its block, so that another one is
added. -/
theorem process_again_string : ∃ first second : Processed,
    process .safeCss ⟨"a\x7bb:\"c".toList, none⟩ .tolerant = .ok first ∧
      process .safeCss ⟨first.text, none⟩ .tolerant = .ok second ∧
      first.text = "a\x7bb:\"c\x7d".toList ∧ second.text = "a\x7bb:\"c\x7d\x7d".toList ∧
      second.text ≠ first.text :=
  ⟨_, _, rfl, rfl, rfl, rfl, by decide +kernel⟩

end Stylesheet
