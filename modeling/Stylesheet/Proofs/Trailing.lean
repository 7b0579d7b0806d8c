import Mathlib.Data.List.TakeWhile
import Stylesheet.Proofs.Runs
import Stylesheet.Proofs.Recast
import Stylesheet.Proofs.Rescan
import Stylesheet.Proofs.Tokens

/-!
# Reading a text with closing braces behind it

Closing braces behind a text change nothing in what is scanned before them (`scan_append_braces`):
no scanner goes over a brace that did not go over the end of the text, but for an escape that has
nothing left to escape (`Scan.isHungry`). So the tokens of a text are read again with braces
behind it, and the braces are tokens of their own, unless the last token is such an escape, which
takes the first of them, or is still open at the end, in which case it takes them all.
-/

namespace Stylesheet

/-- `z.IsBraces` says that a text consists of closing braces. -/
def Text.IsBraces (z : Text) : Prop := ∀ c ∈ z, c = '\x7d'

namespace Scan

/-! ## One token -/

variable {x z : Text} {c : Char} {t : Classifier}

theorem takeWhile_append_braces (hz : z.IsBraces) {p : Char → Bool} (hp : p '\x7d' = false)
    (x : Text) : (x ++ z).takeWhile p = x.takeWhile p := by
  refine Text.takeWhile_append_of_head? ?_ x
  cases z with
  | nil => rfl
  | cons c z => rw [hz c List.mem_cons_self, List.head?_cons, Option.any_some, hp]

theorem findUnescapedFrom_of_braces (hz : z.IsBraces) {terminator : Char}
    (hne : terminator ≠ '\x7d') (seen : Text) : findUnescapedFrom seen terminator z = none := by
  induction z generalizing seen with
  | nil => rfl
  | cons c z ih =>
      obtain ⟨rfl, hmore⟩ := List.forall_mem_cons.mp hz
      rw [findUnescapedFrom, if_neg (fun h ↦ hne h.1.symm)]
      exact ih hmore _

theorem findUnescaped_append_braces (hz : z.IsBraces) {terminator : Char}
    (hne : terminator ≠ '\x7d') (x : Text) :
    findUnescaped terminator (x ++ z) = findUnescaped terminator x := by
  suffices h : ∀ seen, findUnescapedFrom seen terminator (x ++ z) =
      findUnescapedFrom seen terminator x from
    h []
  induction x with
  | nil => exact findUnescapedFrom_of_braces hz hne
  | cons c x ih =>
      intro seen
      rw [List.cons_append, findUnescapedFrom, findUnescapedFrom, ih]

theorem commentEnd_of_braces (hz : z.IsBraces) : commentEnd z = none := by
  induction z with
  | nil => rfl
  | cons c z ih =>
      obtain ⟨rfl, hmore⟩ := List.forall_mem_cons.mp hz
      rw [commentEnd.eq_2 _ _ (by rintro _ ⟨⟩), ih hmore]
      rfl

theorem commentEnd_append_braces (hz : z.IsBraces) (x : Text) :
    commentEnd (x ++ z) = commentEnd x := by
  induction x using commentEnd.induct with
  | case1 x => rfl
  | case2 c x hne ih =>
      have hne' : ∀ more, c = '*' → x ++ z = '/' :: more → False := by
        intro more hc hmore
        cases x with
        | nil =>
            obtain rfl : z = '/' :: more := hmore
            cases hz '/' List.mem_cons_self
        | cons d x =>
            cases hmore
            exact hne x hc rfl
      rw [List.cons_append, commentEnd.eq_2 c _ hne', commentEnd.eq_2 c _ hne, ih]
  | case3 => exact commentEnd_of_braces hz

theorem comment_append_braces (hz : z.IsBraces) (d : Char) (x : Text) :
    comment (d :: x ++ z) = comment (d :: x) := by
  rw [comment, comment, List.cons_append, List.drop_one, List.tail_cons,
    commentEnd_append_braces hz, List.drop_one, List.tail_cons]

theorem wordLength_append_braces (hz : z.IsBraces) (x : Text) :
    wordLength .stock (x ++ z) = wordLength .stock x := by
  induction x with
  | nil =>
      cases z with
      | nil => rfl
      | cons c z =>
          obtain ⟨rfl, -⟩ := List.forall_mem_cons.mp hz
          rfl
  | cons c x ih =>
      have hhead : ((x ++ z).head? == some '*') = (x.head? == some '*') := by
        cases x with
        | cons d x => rfl
        | nil =>
            cases z with
            | nil => rfl
            | cons d z =>
                obtain ⟨rfl, -⟩ := List.forall_mem_cons.mp hz
                rfl
      rw [List.cons_append, wordLength, wordLength, hhead, ih]

/-- `isHungry token` says that a token is an escape that escapes nothing yet: an odd number of
backslashes. -/
def isHungry (token : Text) : Bool :=
  token.all (· == '\\') && token.length % 2 == 1

theorem escapedLength_append_braces (hz : z.IsBraces) (hx : x ≠ []) :
    escapedLength .stock (x ++ z) = escapedLength .stock x := by
  obtain ⟨c, x, rfl⟩ := List.exists_cons_of_ne_nil hx
  have hdigits := takeWhile_append_braces hz (p := Classifier.stock.is .hex) rfl x
  have hle := length_takeWhile_le (Classifier.stock.is .hex) x
  have hhead : ((x ++ z).drop (x.takeWhile (Classifier.stock.is .hex)).length).head? = some ' ' ↔
      (x.drop (x.takeWhile (Classifier.stock.is .hex)).length).head? = some ' ' := by
    rw [List.drop_append_of_le_length hle]
    cases x.drop (x.takeWhile (Classifier.stock.is .hex)).length with
    | cons d rest => rfl
    | nil =>
        cases z with
        | nil => rfl
        | cons d z =>
            obtain ⟨rfl, -⟩ := List.forall_mem_cons.mp hz
            exact ⟨nofun, nofun⟩
  rw [List.cons_append, escapedLength, escapedLength, hdigits]
  simp only [hhead]

/-- An escape that takes what it escapes from the text takes nothing more. -/
theorem escape_append_braces (hz : z.IsBraces) (hfed : isHungry ('\\' :: x) = false) :
    Scan.escape .stock (x ++ z) = Scan.escape .stock x := by
  have hslashes := takeWhile_append_braces hz (p := (· == '\\')) rfl x
  have hle := length_takeWhile_le (· == '\\') x
  unfold Scan.escape
  dsimp only
  rw [hslashes, List.drop_append_of_le_length hle]
  split
  · next heven =>
      rw [escapedLength_append_braces hz]
      intro hnil
      have hall : x.takeWhile (· == '\\') = x :=
        (List.takeWhile_prefix _).eq_of_length
          (Nat.le_antisymm hle (List.drop_eq_nil_iff.mp hnil))
      have hhungry : isHungry ('\\' :: x) = true := by
        rw [hall] at heven
        rw [isHungry, List.all_cons, ← hall, List.all_takeWhile, hall, List.length_cons,
          Bool.and_eq_true, beq_iff_eq]
        exact ⟨rfl, by omega⟩
      rw [hhungry] at hfed
      cases hfed
  · rfl

theorem group_append_braces (hz : z.IsBraces) (x : Text) :
    Scan.group t (x ++ z) = Scan.group t x := by
  unfold Scan.group
  dsimp only
  by_cases hwhole : (x.takeWhile (· != ')')).length = x.length
  · have hx : x.takeWhile (· != ')') = x := (List.takeWhile_prefix _).eq_of_length hwhole
    have hxz : (x ++ z).takeWhile (· != ')') = x ++ z := by
      refine List.takeWhile_eq_self_iff.mpr fun d hd ↦ ?_
      rcases List.mem_append.mp hd with hd | hd
      · exact List.takeWhile_eq_self_iff.mp hx d hd
      · rw [hz d hd]
        rfl
    simp only [hx, hxz, decide_true, Bool.true_or, if_true]
  · have hxz : (x ++ z).takeWhile (· != ')') = x.takeWhile (· != ')') := by
      rw [List.takeWhile_append, if_neg hwhole]
    have hne : ¬(x.takeWhile (· != ')')).length = (x ++ z).length := by
      have := length_takeWhile_le (· != ')') x
      rw [List.length_append]
      omega
    simp only [hxz, hwhole, hne]

theorem openParen_append_braces (hz : z.IsBraces) (before : Option Text) (x : Text) :
    Scan.openParen t before (x ++ z) = Scan.openParen t before x := by
  have hopens : opensUrl before (x ++ z) = opensUrl before x := by
    cases x with
    | cons d x => rfl
    | nil =>
        cases z with
        | nil => rfl
        | cons d z =>
            obtain ⟨rfl, -⟩ := List.forall_mem_cons.mp hz
            rfl
  rw [Scan.openParen, Scan.openParen, hopens, Scan.url, Scan.url,
    findUnescaped_append_braces hz (by decide), group_append_braces hz]

/-- Closing braces behind a text change nothing in how far its first token reaches. -/
theorem scan_append_braces (hz : z.IsBraces) (before : Option Text)
    (hfed : isHungry (c :: x) = false) :
    scan .stock before c (x ++ z) = scan .stock before c x := by
  have hhead : (x ++ z).head? = some '*' ↔ x.head? = some '*' := by
    cases x with
    | cons d x => rfl
    | nil =>
        cases z with
        | nil => rfl
        | cons d z =>
            obtain ⟨rfl, -⟩ := List.forall_mem_cons.mp hz
            exact iff_of_false (by rintro ⟨⟩) (by rintro ⟨⟩)
  unfold scan
  split
  · rw [Scan.space, Scan.space, takeWhile_append_braces hz rfl]
  · cases single? c with
    | some kind => rfl
    | none =>
        dsimp only
        split
        · exact openParen_append_braces hz before x
        split
        · next hquote =>
            have hne : c ≠ '\x7d' := by rintro rfl; exact absurd hquote (by decide)
            rw [Scan.string, Scan.string, findUnescaped_append_braces hz hne]
        split
        · rw [Scan.atWord, Scan.atWord, takeWhile_append_braces hz rfl]
        split
        · next hslash =>
            subst hslash
            exact escape_append_braces hz hfed
        simp only [hhead]
        split
        · next hcomment =>
            obtain ⟨d, x, rfl⟩ := List.exists_cons_of_ne_nil (l := x)
              (by rintro rfl; cases hcomment.2)
            exact comment_append_braces hz d x
        · rw [Scan.word, Scan.word, wordLength_append_braces hz]

/-- An escape with nothing left to escape takes the closing brace behind it. -/
theorem scan_of_isHungry (before : Option Text) (hhungry : isHungry (c :: x) = true) (z : Text) :
    scan .stock before c (x ++ '\x7d' :: z) = .closed .word (x.length + 2) := by
  obtain ⟨hall, hodd⟩ := Bool.and_eq_true_iff.mp hhungry
  obtain ⟨hc, hx⟩ := Bool.and_eq_true_iff.mp hall
  obtain rfl := eq_of_beq hc
  have hslashes : (x ++ '\x7d' :: z).takeWhile (· == '\\') = x := by
    rw [List.takeWhile_append_of_pos (List.all_eq_true.mp hx),
      List.takeWhile_cons_of_neg (by decide), List.append_nil]
  have heven : x.length % 2 = 0 := by
    have hodd := eq_of_beq hodd
    rw [List.length_cons] at hodd
    omega
  show Scan.escape .stock (x ++ '\x7d' :: z) = _
  unfold Scan.escape
  dsimp only
  rw [hslashes, if_pos heven, List.drop_left]
  show Extent.closed .word (1 + x.length + 1) = _
  rw [Nat.add_comm 1]

/-- An escape with nothing left to escape is all of the text. -/
theorem scan_of_isHungry_end (before : Option Text) (hhungry : isHungry (c :: x) = true) :
    scan .stock before c x = .closed .word (x.length + 1) := by
  obtain ⟨hall, hodd⟩ := Bool.and_eq_true_iff.mp hhungry
  obtain ⟨hc, hx⟩ := Bool.and_eq_true_iff.mp hall
  obtain rfl := eq_of_beq hc
  have hslashes : x.takeWhile (· == '\\') = x :=
    List.takeWhile_eq_self_iff.mpr (List.all_eq_true.mp hx)
  show Scan.escape .stock x = _
  unfold Scan.escape
  dsimp only
  rw [hslashes, List.drop_length]
  split
  · show Extent.closed .word (1 + x.length) = _
    rw [Nat.add_comm 1]
  · rw [Nat.add_comm 1]

theorem eq_paren_of_leftParen {before : Option Text} {n : Nat}
    (h : scan t before c x = .closed .leftParen n) : c = '(' := by
  have hdispatch := scan_dispatch t before c x
  rw [h] at hdispatch
  generalize hextent : Extent.closed .leftParen n = extent at hdispatch
  cases hdispatch with
  | space | atWord | word => cases hextent
  | single _ hsingle =>
      cases hextent
      unfold single? at hsingle
      split at hsingle <;> cases hsingle
  | openParen _ hparen => exact hparen
  | string =>
      unfold Scan.string at hextent
      split at hextent <;> cases hextent
  | escape =>
      unfold Scan.escape at hextent
      dsimp only at hextent
      split at hextent <;> cases hextent
  | comment =>
      unfold Scan.comment at hextent
      split at hextent <;> cases hextent

/-- A token with two more characters behind it is scanned again whatever follows without a closing
parenthesis. -/
theorem scan_append_of_drop {before : Option Text} {kind : TokenKind} {n : Nat} {d e : Char}
    {more : Text} (hz : ')' ∉ z) (h : scan .stock before c x = .closed kind (n + 1))
    (hdrop : x.drop n = d :: e :: more) :
    scan .stock before c (x ++ z) = .closed kind (n + 1) := by
  by_cases hlone : kind = .leftParen ∧ ')' ∉ x
  · -- The parenthesis has no closing one in the text, nor in what follows.
    obtain ⟨rfl, hx⟩ := hlone
    obtain rfl := eq_paren_of_leftParen h
    have hne : x ≠ [] := by
      rintro rfl
      cases List.drop_nil.symm.trans hdrop
    have hopens : opensUrl before (x ++ z) = opensUrl before x := by
      obtain ⟨f, x, rfl⟩ := List.exists_cons_of_ne_nil hne
      rfl
    have hwhole (y : Text) (hy : ')' ∉ y) : Scan.group .stock y = .closed .leftParen 1 := by
      have hbody : y.takeWhile (· != ')') = y :=
        List.takeWhile_eq_self_iff.mpr fun f hf ↦ bne_iff_ne.mpr fun heq ↦ hy (heq ▸ hf)
      unfold Scan.group
      simp only [hbody, decide_true, Bool.true_or, if_true]
    change Scan.openParen .stock before x = _ at h
    show Scan.openParen .stock before (x ++ z) = _
    unfold Scan.openParen at h ⊢
    rw [hopens]
    split at h
    · unfold Scan.url at h
      split at h <;> cases h
    · next hgroup =>
        rw [if_neg hgroup, hwhole _ (List.not_mem_append hx hz), ← h, hwhole x hx]
  · refine scan_again (y := []) z rfl (by rwa [List.append_nil]) ?_
    have hle : n + 1 ≤ x.length + 1 := (scan_length h).2
    have hbehind : ∃ d more, x.drop n = d :: more ∧ (d = '/' → more ≠ []) :=
      ⟨d, e :: more, hdrop, fun _ ↦ List.cons_ne_nil _ _⟩
    cases kind with
    | leftParen => exact not_not.mp fun hx ↦ hlone ⟨rfl, hx⟩
    | space | word | atWord => exact hbehind
    | _ => exact hle

/-- The end of a comment closes one that is open. -/
theorem commentEnd_append_end (h : commentEnd x = none) (z : Text) :
    commentEnd (x ++ '*' :: '/' :: z) = some (x.length + 2) := by
  induction x using commentEnd.induct with
  | case1 x => cases h
  | case2 c x hne ih =>
      rw [commentEnd.eq_2 c x hne, Option.map_eq_none_iff] at h
      have hne' : ∀ more, c = '*' → x ++ '*' :: '/' :: z = '/' :: more → False := by
        intro more hc hmore
        cases x with
        | nil => cases hmore
        | cons d x =>
            cases hmore
            exact hne x hc rfl
      rw [List.cons_append, commentEnd.eq_2 c _ hne', ih h]
      rfl
  | case3 => rfl

theorem comment_append_end {text : Text} (h : comment ('*' :: text) = .unclosed .comment)
    (z : Text) :
    comment ('*' :: (text ++ '*' :: '/' :: z)) = .closed .comment (text.length + 4) := by
  have hopen : commentEnd text = none := by
    rw [comment, List.drop_one, List.tail_cons] at h
    split at h
    · cases h
    · next hnone => exact hnone
  rw [comment, List.drop_one, List.tail_cons, commentEnd_append_end hopen]

/-- Only a parenthesis, a quote or a slash starts a construct that can be open. -/
theorem mem_openers_of_unclosed {before : Option Text} {construct : OpenConstruct}
    (h : scan t before c x = .unclosed construct) : c ∈ ['(', '"', '\'', '/'] := by
  unfold scan at h
  split at h
  · cases h
  split at h
  · cases h
  split at h
  · next hparen =>
      subst hparen
      decide
  split at h
  · next hquote => rcases hquote with rfl | rfl <;> decide
  split at h
  · cases h
  split at h
  · unfold Scan.escape at h
    dsimp only at h
    split at h <;> cases h
  split at h
  · next hcomment =>
      obtain ⟨rfl, -⟩ := hcomment
      decide
  · cases h

end Scan

namespace Lexer

/-! ## Tokens with more text behind them -/

/-- `l.extend z` is the lexer with more text behind what is unread. -/
def extend (l : Lexer) (z : Text) : Lexer := { l with rest := l.rest ++ z }

variable {l next after : Lexer} {token : Token} {tokens : List Token} {z : Text}

/-- A token that is healed is all that is left of the text. -/
theorem rest_of_healed (h : l.scanNext = (.ok (some token), next))
    (hhealed : token.healed = true) : next.rest = [] := by
  unfold scanNext at h
  split at h
  · cases h
  · next hrest =>
      split at h
      · cases h
        cases hhealed
      · split at h <;> cases h
        simp [hrest]

/-- A token that is not healed is read again with more text behind, if it is scanned again. -/
theorem scanNext_extend_of_scan (h : l.scanNext = (.ok (some token), next))
    (hhealed : token.healed = false)
    (hscan : ∀ c text kind n, l.rest = c :: text →
      scan l.classifier l.word c text = .closed kind n → token.text = (c :: text).take n →
      next.rest = (c :: text).drop n → scan l.classifier l.word c (text ++ z) = .closed kind n) :
    (l.extend z).scanNext = (.ok (some token), next.extend z) := by
  unfold scanNext at h
  split at h
  · cases h
  · next c text hrest =>
      split at h
      · next kind length hclosed =>
          have hlength : length ≤ (c :: text).length := (scan_length hclosed).2
          cases h
          have hagain := hscan c text kind length hrest hclosed (by simp [hrest])
            (by simp [hrest])
          unfold scanNext extend
          simp only [hrest, List.cons_append, hagain, take, remember]
          rw [← List.cons_append, List.take_append_of_le_length hlength,
            List.drop_append_of_le_length hlength]
      · split at h
        · cases h
          cases hhealed
        · cases h

/-- A token that is not healed is read again with closing braces behind the text, unless it is an
escape at the end of the text with nothing left to escape. -/
theorem scanNext_extend (hstock : l.classifier = .stock) (hz : z.IsBraces)
    (h : l.scanNext = (.ok (some token), next)) (hhealed : token.healed = false)
    (hfed : next.rest = [] → Scan.isHungry token.text = false) :
    (l.extend z).scanNext = (.ok (some token), next.extend z) := by
  refine scanNext_extend_of_scan h hhealed fun c text kind n _ hscan htext hnext ↦ ?_
  have hnot : Scan.isHungry (c :: text) = false := by
    refine eq_false_of_ne_true fun hhungry ↦ ?_
    rw [hstock, Scan.scan_of_isHungry_end _ hhungry] at hscan
    cases hscan
    rw [← List.length_cons (a := c), List.drop_length] at hnext
    rw [← List.length_cons (a := c), List.take_length] at htext
    have hfed := hfed hnext
    rw [htext, hhungry] at hfed
    cases hfed
  rw [hstock] at hscan ⊢
  rw [Scan.scan_append_braces hz _ hnot, hscan]

/-- A token with two more characters behind it is read again whatever follows without a closing
parenthesis. -/
theorem scanNext_extend_of_rest (hstock : l.classifier = .stock) (hz : ')' ∉ z)
    (h : l.scanNext = (.ok (some token), next)) (hhealed : token.healed = false)
    (hrest : ∃ d e more, next.rest = d :: e :: more) :
    (l.extend z).scanNext = (.ok (some token), next.extend z) := by
  refine scanNext_extend_of_scan h hhealed fun c text kind n _ hscan _ hnext ↦ ?_
  obtain ⟨d, e, more, hrest⟩ := hrest
  rw [hstock] at hscan ⊢
  obtain ⟨n, rfl⟩ : ∃ m, n = m + 1 :=
    Nat.exists_eq_add_one_of_ne_zero (Nat.ne_of_gt (scan_length hscan).1)
  exact Scan.scan_append_of_drop hz hscan (hnext.symm.trans hrest)

/-- A token that is open at the end of the text goes over the closing braces behind it. -/
theorem scanNext_extend_healed (hstock : l.classifier = .stock) (hz : z.IsBraces)
    (h : l.scanNext = (.ok (some token), next)) (hhealed : token.healed = true) :
    ∃ v last, (l.extend z).scanNext = (.ok (some v), last) ∧ last.rest = [] ∧ v.healed = true ∧
      v.kind = token.kind ∧ v.text = token.text ++ z := by
  unfold scanNext at h
  split at h
  · cases h
  · next c text hrest =>
      split at h
      · cases h
        cases hhealed
      · next construct hscan =>
          have hnot : Scan.isHungry (c :: text) = false := by
            have hc : c ≠ '\\' := by
              rintro rfl
              exact absurd (Scan.mem_openers_of_unclosed hscan) (by decide)
            rw [Scan.isHungry, List.all_cons, beq_eq_false_iff_ne.mpr hc, Bool.false_and,
              Bool.false_and]
          have hagain := Scan.scan_append_braces hz l.word hnot
          rw [← hstock, hscan] at hagain
          split at h
          · next hpolicy =>
              cases h
              refine ⟨((l.extend z).take construct.tokenKind ((text ++ z).length + 1) true).1,
                ((l.extend z).take construct.tokenKind ((text ++ z).length + 1) true).2, ?_, ?_,
                rfl, rfl, ?_⟩
              · unfold scanNext
                simp only [extend, hrest, List.cons_append, hagain, hpolicy]
              · simp [extend, take, hrest]
              · simp only [extend, take, hrest, List.cons_append, List.take_succ_cons,
                  List.take_length]
          · cases h

/-- An escape with nothing left to escape takes the first of the closing braces behind the
text. -/
theorem scanNext_extend_hungry (hstock : l.classifier = .stock)
    (h : l.scanNext = (.ok (some token), next)) (hend : next.rest = [])
    (hhungry : Scan.isHungry token.text = true) (z : Text) :
    token.kind = .word ∧ ∃ v last, (l.extend ('\x7d' :: z)).scanNext = (.ok (some v), last) ∧
      last.rest = z ∧ last.classifier = .stock ∧ v.healed = false ∧ v.kind = .word ∧
      v.text = token.text ++ ['\x7d'] := by
  obtain ⟨hrest, hne⟩ := scanNext_rest h
  rw [hend, List.append_nil] at hrest
  obtain ⟨c, text, htext⟩ := List.exists_cons_of_ne_nil hne
  rw [htext] at hrest hhungry
  have hkind : token.kind = .word := by
    have hscan := Scan.scan_of_isHungry_end l.word hhungry
    unfold scanNext at h
    simp only [hrest, hstock, hscan] at h
    cases h
    rfl
  have hagain := Scan.scan_of_isHungry l.word hhungry z
  refine ⟨hkind, ((l.extend ('\x7d' :: z)).take .word (text.length + 2) false).1,
    ((l.extend ('\x7d' :: z)).take .word (text.length + 2) false).2, ?_, ?_, hstock, rfl, rfl, ?_⟩
  · unfold scanNext
    simp only [extend, hrest, List.cons_append, hstock, hagain]
  · simp [extend, take, hrest]
  · have htake : (text ++ '\x7d' :: z).take (text.length + 1) = text ++ ['\x7d'] := by
      rw [List.take_length_add_append]
      rfl
    simp [extend, take, hrest, htext, htake]

/-- A comment that is open at the end of the text is closed by the end of a comment behind it. -/
theorem scanNext_extend_comment (hstock : l.classifier = .stock)
    (h : l.scanNext = (.ok (some token), next)) (hhealed : token.healed = true)
    (hkind : token.kind = .comment) (z : Text) :
    ∃ v last, (l.extend ("*/".toList ++ z)).scanNext = (.ok (some v), last) ∧ last.rest = z ∧
      last.classifier = .stock ∧ v.healed = false ∧ v.kind = .comment ∧
      v.text = token.text ++ "*/".toList ∧ ∃ more, l.rest = '/' :: '*' :: more := by
  unfold scanNext at h
  split at h
  · cases h
  · next c text hrest =>
      split at h
      · cases h
        cases hhealed
      · next construct hscan =>
          have hconstruct : construct = .comment := by
            split at h
            · cases h
              cases construct with
              | comment => rfl
              | string | bracket => cases hkind
            · cases h
          subst hconstruct
          obtain ⟨rfl, more, rfl⟩ := Scan.star_of_unclosed_comment hscan
          rw [hstock] at hscan
          have hagain : scan .stock l.word '/' ('*' :: (more ++ '*' :: '/' :: z)) =
              .closed .comment (more.length + 4) := Scan.comment_append_end hscan z
          refine ⟨((l.extend ("*/".toList ++ z)).take .comment (more.length + 4) false).1,
            ((l.extend ("*/".toList ++ z)).take .comment (more.length + 4) false).2, ?_, ?_,
            hstock, rfl, rfl, ?_, more, hrest⟩
          · unfold scanNext
            have hscan' : scan .stock l.word '/' ('*' :: more ++ ("*/".toList ++ z)) = _ := hagain
            simp only [extend, hrest, List.cons_append, hstock]
            rw [← List.cons_append, hscan']
          · simp [extend, take, hrest]
          · split at h <;> cases h
            have htake : (more ++ '*' :: '/' :: z).take (more.length + 2) =
                more ++ ['*', '/'] := by
              rw [List.take_length_add_append]
              rfl
            simp [extend, take, hrest, htake]

/-- A reading goes on as before with closing braces behind the text, unless it ends with an escape
with nothing left to escape. -/
theorem Reads.extend (h : l.Reads tokens after) (hstock : l.classifier = .stock) (hz : z.IsBraces)
    (hhealed : ∀ t ∈ tokens, t.healed = false)
    (hfed : after.rest = [] → ∀ t ∈ tokens.getLast?, Scan.isHungry t.text = false) :
    (l.extend z).Reads tokens (after.extend z) := by
  induction h with
  | nil l => exact .nil _
  | cons l next after token tokens hscan hreads ih =>
      obtain ⟨htoken, hmore⟩ := List.forall_mem_cons.mp hhealed
      have hnext := scanNext_extend hstock hz hscan htoken fun hend ↦ by
        cases hreads with
        | nil => exact hfed hend token rfl
        | cons _ _ _ _ _ hscan' =>
            rw [(scanNext_eq_none_iff.mpr ⟨hend, rfl⟩)] at hscan'
            cases hscan'
      refine .cons _ _ _ _ _ hnext
        (ih ((scanNext_frame hscan).1.trans hstock) hmore fun hend t ht ↦ ?_)
      refine hfed hend t ?_
      cases tokens with
      | nil => cases ht
      | cons u more => exact ht

/-- A reading with two more characters behind it goes on as before whatever follows without a
closing parenthesis. -/
theorem Reads.extend_of_rest (h : l.Reads tokens after) (hstock : l.classifier = .stock)
    (hz : ')' ∉ z) (hhealed : ∀ t ∈ tokens, t.healed = false)
    (hrest : ∃ d e more, after.rest = d :: e :: more) :
    (l.extend z).Reads tokens (after.extend z) := by
  induction h with
  | nil l => exact .nil _
  | cons l next after token tokens hscan hreads ih =>
      obtain ⟨htoken, hmore⟩ := List.forall_mem_cons.mp hhealed
      have hbehind : ∃ d e more, next.rest = d :: e :: more := by
        obtain ⟨d, e, more, hrest⟩ := hrest
        rw [hreads.rest_eq, hrest]
        match Token.spelling tokens with
        | [] => exact ⟨d, e, more, rfl⟩
        | [c] => exact ⟨c, d, e :: more, rfl⟩
        | c :: f :: front => exact ⟨c, f, front ++ d :: e :: more, rfl⟩
      exact .cons _ _ _ _ _ (scanNext_extend_of_rest hstock hz hscan htoken hbehind)
        (ih ((scanNext_frame hscan).1.trans hstock) hmore hrest)

/-- Tokens behind which there is more to read are not healed. -/
theorem Reads.healed_of_rest (h : l.Reads tokens after) (hne : after.rest ≠ []) :
    ∀ t ∈ tokens, t.healed = false := by
  induction h with
  | nil => exact List.forall_mem_nil _
  | cons l next after token tokens hscan hreads ih =>
      refine List.forall_mem_cons.mpr ⟨eq_false_of_ne_true fun hhealed ↦ hne ?_, ih hne⟩
      have hrest := hreads.rest_eq
      rw [rest_of_healed hscan hhealed] at hrest
      exact (List.append_eq_nil_iff.mp hrest.symm).2

/-- Closing braces are read one by one. -/
theorem reads_braces (hstock : l.classifier = .stock) (hz : l.rest.IsBraces) :
    ∃ braces last, l.Reads braces last ∧ last.rest = [] ∧ braces.length = l.rest.length ∧
      ∀ b ∈ braces, b.kind = .rightBrace ∧ b.healed = false := by
  generalize hrest : l.rest = rest at hz
  induction rest generalizing l with
  | nil => exact ⟨[], l, .nil l, hrest, rfl, List.forall_mem_nil _⟩
  | cons c rest ih =>
      obtain ⟨rfl, hmore⟩ := List.forall_mem_cons.mp hz
      have hscan : l.scanNext = (.ok (some (l.take .rightBrace 1 false).1),
          (l.take .rightBrace 1 false).2) := by
        have hbrace : scan .stock l.word '\x7d' rest = .closed .rightBrace 1 := rfl
        unfold scanNext
        simp only [hrest, hstock, hbrace]
      obtain ⟨braces, last, hreads, hend, hlength, hbraces⟩ :=
        ih (l := (l.take .rightBrace 1 false).2) hstock (by simp [take, hrest]) hmore
      refine ⟨_, last, .cons _ _ _ _ _ hscan hreads, hend, ?_,
        List.forall_mem_cons.mpr ⟨⟨rfl, rfl⟩, hbraces⟩⟩
      rw [List.length_cons, hlength, List.length_cons]

end Lexer

/-! ## Runs with more text behind them -/

namespace Token

/-- `t.IsSigned` says that a token starts with a sign with which neither a custom property nor an
old kind of filter starts. -/
def IsSigned (t : Token) : Prop :=
  ∃ c more, t.text = c :: more ∧ c ∈ ['(', '"', '\'', '/', '\\']

theorem IsSigned.sketch_eq {u v : Token} (h : u.IsSigned) (hkind : v.kind = u.kind) {z : Text}
    (htext : v.text = u.text ++ z) : v.sketch = u.sketch := by
  obtain ⟨c, more, hu, hc⟩ := h
  have hplain : ∀ t : Token, t.text.head? = some c →
      Statement.isCustom t = false ∧ isProgid t = false := by
    intro t ht
    obtain ⟨rest, hrest⟩ : ∃ rest, t.text = c :: rest := by
      cases htext : t.text with
      | nil => rw [htext] at ht; cases ht
      | cons d rest => rw [htext] at ht; cases ht; exact ⟨rest, rfl⟩
    rw [Statement.isCustom, isProgid, hrest]
    simp only [List.mem_cons, List.not_mem_nil, or_false] at hc
    rcases hc with rfl | rfl | rfl | rfl | rfl <;> simp
  obtain ⟨hcustomU, hprogidU⟩ := hplain u (by rw [hu]; rfl)
  obtain ⟨hcustomV, hprogidV⟩ := hplain v (by rw [htext, hu]; rfl)
  simp [sketch, hkind, hcustomU, hprogidU, hcustomV, hprogidV]

/-- `IsBraced ts n tokens` says that tokens are those of `ts` again, as far as grouping looks at
them, with `n` closing braces behind them. -/
def IsBraced (ts : List Token) (n : Nat) (tokens : List Token) : Prop :=
  ∃ us braces, tokens = us ++ braces ∧ us.map sketch = ts.map sketch ∧ braces.length = n ∧
    ∀ b ∈ braces, b.kind = .rightBrace ∧ b.healed = false

variable {x z : Text} {init : List Token} {u : Token}

theorem reads_run_heal (x : Text) :
    ∃ after, (Lexer.ofText x .heal).Reads (run x .heal).tokens after ∧ after.rest = [] := by
  obtain ⟨hreads, hend⟩ := Lexer.reads_of_runFor (run x .heal)
    (Lexer.isPlain_ofText x .heal .stock)
    (Nat.le_add_left _ _) rfl (Lexer.failure_run_heal x .stock)
  exact ⟨_, hreads, hend⟩

theorem run_heal_of_reads {tokens : List Token} {after : Lexer}
    (h : (Lexer.ofText x .heal).Reads tokens after) (hend : after.rest = []) :
    (run x .heal).tokens = tokens :=
  congrArg (·.1.tokens)
    ((Lexer.run_eq_iff_reads (Lexer.isPlain_ofText x .heal .stock)).mpr ⟨h, hend⟩)

/-- The tokens before the last one are read, and then the last one, which leaves nothing. -/
theorem reads_of_run_concat (h : (run x .heal).tokens = init ++ [u]) :
    ∃ middle last, (Lexer.ofText x .heal).Reads init middle ∧
      middle.scanNext = (.ok (some u), last) ∧ middle.classifier = .stock ∧ last.rest = [] ∧
      middle.rest ≠ [] ∧ ∀ t ∈ init, t.healed = false := by
  obtain ⟨after, hreads, hend⟩ := reads_run_heal x
  rw [h] at hreads
  obtain ⟨middle, hinit, hlast⟩ := hreads.split
  cases hlast with
  | cons _ last _ _ _ hscan hnil =>
      cases hnil
      have hne : middle.rest ≠ [] := by
        intro hnil
        rw [Lexer.scanNext_eq_none_iff.mpr ⟨hnil, rfl⟩] at hscan
        cases hscan
      exact ⟨middle, after, hinit, hscan, hinit.frame.1, hend, hne, hinit.healed_of_rest hne⟩

/-- A token that starts where the last token of a run does is read behind the tokens before that,
and what is left are closing braces. -/
theorem run_of_last {w : Text} {middle last : Lexer} {v : Token}
    (hinit : ((Lexer.ofText x .heal).extend w).Reads init (middle.extend w))
    (hscan : (middle.extend w).scanNext = (.ok (some v), last))
    (hstock : last.classifier = .stock) (hbraces : last.rest.IsBraces) :
    ∃ braces, (run (x ++ w) .heal).tokens = init ++ v :: braces ∧
      braces.length = last.rest.length ∧ ∀ b ∈ braces, b.kind = .rightBrace ∧
      b.healed = false := by
  obtain ⟨braces, final, hreads, hend, hlength, hkinds⟩ := Lexer.reads_braces hstock hbraces
  exact ⟨braces, run_heal_of_reads (hinit.append (.cons _ _ _ _ _ hscan hreads)) hend,
    hlength, hkinds⟩

/-- A text with closing braces behind it is read as before, with a token for each of them, if its
last token is neither healed nor an escape with nothing left to escape. -/
theorem run_append_braces (hz : z.IsBraces)
    (hclosed : ∀ u ∈ (run x .heal).tokens.getLast?, u.healed = false ∧
      Scan.isHungry u.text = false) :
    IsBraced (run x .heal).tokens z.length (run (x ++ z) .heal).tokens ∧
      ∀ t ∈ (run (x ++ z) .heal).tokens, t.healed = false := by
  obtain ⟨after, hreads, hend⟩ := reads_run_heal x
  have hhealed : ∀ t ∈ (run x .heal).tokens, t.healed = false := by
    rcases List.eq_nil_or_concat (run x .heal).tokens with hnil | ⟨init, u, hconcat⟩
    · rw [hnil]
      exact List.forall_mem_nil _
    · rw [List.concat_eq_append] at hconcat
      obtain ⟨_, _, -, -, -, -, -, hinit⟩ := reads_of_run_concat hconcat
      rw [hconcat, List.getLast?_concat] at hclosed
      rw [hconcat]
      exact List.forall_mem_append.mpr ⟨hinit, List.forall_mem_singleton.mpr (hclosed u rfl).1⟩
  have hagain := hreads.extend rfl hz hhealed fun _ t ht ↦ (hclosed t ht).2
  have hrest : (after.extend z).rest = z := by rw [Lexer.extend, hend, List.nil_append]
  obtain ⟨braces, final, hbraces, hfinal, hlength, hkinds⟩ :=
    Lexer.reads_braces (l := after.extend z) hreads.frame.1 (by rwa [hrest])
  have hrun := run_heal_of_reads (x := x ++ z) (hagain.append hbraces) hfinal
  rw [hrest] at hlength
  refine ⟨⟨_, braces, hrun, rfl, hlength, hkinds⟩, ?_⟩
  rw [hrun]
  exact List.forall_mem_append.mpr ⟨hhealed, fun b hb ↦ (hkinds b hb).2⟩

/-- An escape with nothing left to escape takes one of the closing braces behind a text. -/
theorem run_append_braces_of_isHungry (hz : z.IsBraces) (h : (run x .heal).tokens = init ++ [u])
    (hhungry : Scan.isHungry u.text = true) :
    IsBraced (run x .heal).tokens z.length (run (x ++ '\x7d' :: z) .heal).tokens ∧
      ∀ t ∈ (run (x ++ '\x7d' :: z) .heal).tokens, t.healed = false := by
  obtain ⟨middle, last, hreads, hscan, hstock, hend, hne, hinit⟩ := reads_of_run_concat h
  have hmore : Text.IsBraces ('\x7d' :: z) := List.forall_mem_cons.mpr ⟨rfl, hz⟩
  have hagain := hreads.extend rfl hmore hinit fun hnil ↦ absurd hnil hne
  obtain ⟨hkind, v, last', hscan', hrest, hstock', hv, hvkind, htext⟩ :=
    Lexer.scanNext_extend_hungry hstock hscan hend hhungry z
  obtain ⟨braces, hrun, hlength, hkinds⟩ := run_of_last hagain hscan' hstock' (by rwa [hrest])
  have hsigned : u.IsSigned := by
    obtain ⟨c, more, hu⟩ := List.exists_cons_of_ne_nil (Lexer.scanNext_rest hscan).2
    rw [hu, Scan.isHungry, List.all_cons] at hhungry
    refine ⟨c, more, hu, ?_⟩
    simp only [Bool.and_eq_true, beq_iff_eq] at hhungry
    simp [hhungry.1.1]
  rw [hrest] at hlength
  constructor
  · refine ⟨init ++ [v], braces, by rw [hrun, List.append_assoc]; rfl, ?_, hlength, hkinds⟩
    rw [h, List.map_append, List.map_append, List.map_singleton, List.map_singleton,
      hsigned.sketch_eq (hvkind.trans hkind.symm) htext]
  · rw [hrun]
    exact List.forall_mem_append.mpr ⟨hinit,
      List.forall_mem_cons.mpr ⟨hv, fun b hb ↦ (hkinds b hb).2⟩⟩

/-- A token that is healed starts with a parenthesis, a quote or a slash. -/
theorem mem_openers_of_healed {l after : Lexer} (h : l.scanNext = (.ok (some u), after))
    (hhealed : u.healed = true) : ∃ c more, u.text = c :: more ∧ c ∈ ['(', '"', '\'', '/'] := by
  unfold Lexer.scanNext at h
  split at h
  · cases h
  · next c text hrest =>
      split at h
      · cases h
        cases hhealed
      · next construct hscan =>
          split at h <;> cases h
          exact ⟨c, text, by simp [hrest], Scan.mem_openers_of_unclosed hscan⟩

theorem isSigned_of_healed {l after : Lexer} (h : l.scanNext = (.ok (some u), after))
    (hhealed : u.healed = true) : u.IsSigned :=
  have ⟨c, more, htext, hc⟩ := mem_openers_of_healed h hhealed
  ⟨c, more, htext, List.mem_append_left ['\\'] hc⟩

/-- A token that is healed escapes nothing. -/
theorem isHungry_of_healed (h : (run x .heal).tokens = init ++ [u]) (hhealed : u.healed = true) :
    Scan.isHungry u.text = false := by
  obtain ⟨_, _, -, hscan, -⟩ := reads_of_run_concat h
  obtain ⟨c, more, htext, hc⟩ := mem_openers_of_healed hscan hhealed
  have hslash : c ≠ '\\' := by
    rintro rfl
    exact absurd hc (by decide)
  rw [htext, Scan.isHungry, List.all_cons, beq_eq_false_iff_ne.mpr hslash, Bool.false_and,
    Bool.false_and]

/-- A token that is healed takes all the closing braces behind a text. -/
theorem run_append_braces_of_healed (hz : z.IsBraces) (h : (run x .heal).tokens = init ++ [u])
    (hhealed : u.healed = true) :
    IsBraced (run x .heal).tokens 0 (run (x ++ z) .heal).tokens := by
  obtain ⟨middle, last, hreads, hscan, hstock, hend, hne, hinit⟩ := reads_of_run_concat h
  have hagain := hreads.extend rfl hz hinit fun hnil ↦ absurd hnil hne
  obtain ⟨v, last', hscan', hrest, -, hkind, htext⟩ :=
    Lexer.scanNext_extend_healed hstock hz hscan hhealed
  have hrun :=
    run_heal_of_reads (x := x ++ z) (hagain.append (.cons _ _ _ _ _ hscan' (.nil _))) hrest
  refine ⟨init ++ [v], [], by rw [hrun, List.append_nil], ?_, rfl, List.forall_mem_nil _⟩
  rw [h, List.map_append, List.map_append, List.map_singleton, List.map_singleton,
    (isSigned_of_healed hscan hhealed).sketch_eq hkind htext]

/-- A comment that is open at the end of a text is closed by the end of a comment behind it. -/
theorem run_append_end_of_comment (hz : z.IsBraces) (h : (run x .heal).tokens = init ++ [u])
    (hhealed : u.healed = true) (hkind : u.kind = .comment) :
    IsBraced (run x .heal).tokens z.length (run (x ++ ("*/".toList ++ z)) .heal).tokens ∧
      ∀ t ∈ (run (x ++ ("*/".toList ++ z)) .heal).tokens, t.healed = false := by
  obtain ⟨middle, last, hreads, hscan, hstock, hend, hne, hinit⟩ := reads_of_run_concat h
  obtain ⟨v, last', hscan', hrest, hstock', hv, hvkind, htext, more, hmore⟩ :=
    Lexer.scanNext_extend_comment hstock hscan hhealed hkind z
  have hparen : ')' ∉ "*/".toList ++ z :=
    List.not_mem_append (by decide) fun hmem ↦ absurd (hz _ hmem) (by decide)
  have hagain := hreads.extend_of_rest rfl hparen hinit ⟨'/', '*', more, hmore⟩
  obtain ⟨braces, hrun, hlength, hkinds⟩ := run_of_last hagain hscan' hstock' (by rwa [hrest])
  rw [hrest] at hlength
  constructor
  · refine ⟨init ++ [v], braces, by rw [hrun, List.append_assoc]; rfl, ?_, hlength, hkinds⟩
    rw [h, List.map_append, List.map_append, List.map_singleton, List.map_singleton,
      (isSigned_of_healed hscan hhealed).sketch_eq (hvkind.trans hkind.symm) htext]
  · rw [hrun]
    exact List.forall_mem_append.mpr ⟨hinit,
      List.forall_mem_cons.mpr ⟨hv, fun b hb ↦ (hkinds b hb).2⟩⟩

end Token

end Stylesheet
