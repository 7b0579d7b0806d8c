import Mathlib.Tactic.ByContra
import Stylesheet.Proofs.Cursor
import Stylesheet.Proofs.Runs

/-!
# Tokens by byte offset are those by character

Each scanner of a cursor reaches as far in bytes as that of a lexer does in characters, and none
of its indices is out of range. `Cursor.scan_eq` puts the scanners together, and `Cursor.run_eq`
says that a cursor reads the run of the lexer, to the end or to the first error.
-/

namespace Stylesheet

namespace Cursor

section Scanners

variable {cur : Cursor} {before behind : Text} {c : Char}

/-! ## Words -/

/-- `endsWord t c text` says that a word ends before a character `c` with `text` behind it. -/
def endsWord (t : Classifier) (c : Char) (text : Text) : Bool :=
  t.is .wordEnd c || (c == '/' && text.head? == some '*')

/-- No character that a word takes ends it. -/
theorem endsWord_of_lt {t : Classifier} {as bs : Text} {text : Text}
    (htext : text = as ++ c :: bs) (hlt : as.length < Scan.wordLength t text) :
    endsWord t c bs = false := by
  subst htext
  induction as with
  | nil =>
      simp only [List.nil_append, Scan.wordLength] at hlt
      split at hlt
      · cases hlt
      · next h => exact eq_false_of_ne_true h
  | cons a as ih =>
      simp only [List.cons_append, Scan.wordLength] at hlt
      split at hlt
      · cases hlt
      · exact ih (Nat.lt_of_succ_lt_succ hlt)

/-- The character behind a word ends it. -/
theorem endsWord_of_drop {t : Classifier} {text : Text}
    (h : text.drop (Scan.wordLength t text) = c :: behind) : endsWord t c behind = true := by
  induction text with
  | nil => cases h
  | cons a text ih =>
      simp only [Scan.wordLength] at h
      split at h
      · next hends =>
          cases h
          exact hends
      · exact ih h

theorem endsWord_of_le {t : Classifier} (hc : 128 ≤ c.toNat) (text : Text) :
    endsWord t c text = false := by
  have hslash : (c == '/') = false := by
    rw [beq_eq_false_iff_ne]
    rintro rfl
    exact absurd hc (by decide)
  rw [endsWord, Classifier.is_eq_false_of_le hc, hslash]
  rfl

theorem stopsWord_char (h : cur.text = before ++ c :: behind) {j : Nat} (hj : j < c.utf8Size) :
    cur.stopsWord (before.utf8Size + j) = some (endsWord cur.classifier c behind) := by
  obtain ⟨d, hd, hbyte⟩ := Text.exists_byte before c behind hj
  rw [stopsWord, if_pos (lt_size h hj), h, hd]
  refine congrArg some ?_
  rcases hbyte with rfl | ⟨hd, hc⟩
  · by_cases hslash : d = '/'
    · subst hslash
      have hzero : j = 0 := Nat.lt_one_iff.mp hj
      have hsees := sees_head (x := '*') (by decide) (text_concat h)
      rw [utf8Size_concat before rfl] at hsees
      rw [endsWord, hzero]
      exact congrArg (fun seen ↦ cur.classifier.is .wordEnd '/' || ('/' == '/' && seen)) hsees
    · rw [endsWord, beq_eq_false_iff_ne.mpr hslash, Bool.false_and, Bool.false_and]
  · have hslash : (d == '/') = false := by
      rw [beq_eq_false_iff_ne]
      rintro rfl
      exact absurd hd (by decide)
    rw [endsWord_of_le hc, Classifier.is_eq_false_of_le hd, hslash]
    rfl

/-- No byte of a word but the first one of its first character ends it. -/
theorem stopsWord_of_lt {n : Nat} (h : cur.text = before ++ c :: behind)
    (hn : n ≤ Scan.wordLength cur.classifier behind) {j : Nat}
    (hj : j + 1 < Text.utf8Size (c :: behind.take n)) :
    cur.stopsWord (before.utf8Size + 1 + j) = some false := by
  obtain ⟨as, d, bs, k, hchars, hk, hindex⟩ := Text.exists_char hj
  have hd : cur.text = before ++ as ++ d :: (bs ++ behind.drop n) := by
    have htake := congrArg (before ++ · ++ behind.drop n) hchars
    simp only [List.append_assoc, List.cons_append, List.take_append_drop] at htake
    rw [h, htake, List.append_assoc]
  have hplace : before.utf8Size + 1 + j = (before ++ as).utf8Size + k := by
    rw [Text.utf8Size_append]
    omega
  rw [hplace, stopsWord_char hd hk]
  refine congrArg some ?_
  cases as with
  | nil =>
      -- The byte is not the first one of its character, which is none of the ASCII ones then.
      obtain ⟨rfl, -⟩ := List.cons.inj hchars
      have hc : 128 ≤ c.toNat := by
        by_contra hlt
        have hone := Text.utf8Size_of_lt (Nat.lt_of_not_le hlt)
        rw [Text.utf8Size_nil] at hindex
        omega
      exact endsWord_of_le hc _
  | cons a as =>
      obtain ⟨rfl, htake⟩ := List.cons.inj (hchars.trans (List.cons_append ..))
      have hlength := congrArg List.length htake
      rw [List.length_take, List.length_append, List.length_cons] at hlength
      have hbehind : behind = as ++ d :: (bs ++ behind.drop n) := by
        rw [← List.cons_append, ← List.append_assoc, ← htake, List.take_append_drop]
      exact endsWord_of_lt hbehind (by omega)

/-- The loop over the bytes of a word passes all bytes but the first one, and stops behind the
word. -/
theorem firstStop_stopsWord (h : cur.text = before ++ c :: behind) :
    let n := Scan.wordLength cur.classifier behind
    firstStop cur.stopsWord cur.bound (before.utf8Size + 1) =
      some (before ++ c :: behind.take n).utf8Size := by
  intro n
  have htext : cur.text = before ++ c :: behind.take n ++ behind.drop n := by
    rw [h, List.append_assoc, List.cons_append, List.take_append_drop]
  have hstop : cur.stopsWord (before ++ c :: behind.take n).utf8Size = some true := by
    cases hrest : behind.drop n with
    | nil =>
        rw [stopsWord, htext, hrest, List.append_nil, if_neg (Nat.lt_irrefl _)]
    | cons d rest =>
        rw [hrest] at htext
        rw [← Nat.add_zero (Text.utf8Size _), stopsWord_char htext d.utf8Size_pos,
          endsWord_of_drop hrest]
  have hsize := c.utf8Size_pos
  have hpiece : (before ++ c :: behind.take n).utf8Size =
      before.utf8Size + 1 + (Text.utf8Size (c :: behind.take n) - 1) := by
    rw [Text.utf8Size_append, Text.utf8Size_cons]
    omega
  rw [hpiece] at hstop ⊢
  refine firstStop_add (fun j hj ↦ stopsWord_of_lt h (Nat.le_refl n) (by omega)) hstop ?_
  rw [bound, h, Text.utf8Size_append, Text.utf8Size_cons, Text.utf8Size_cons]
  have htake := congrArg Text.utf8Size (List.take_append_drop n behind)
  rw [Text.utf8Size_append] at htake
  omega

theorem plainWord_eq (h : cur.text = before ++ c :: behind) :
    cur.plainWord before.utf8Size =
      some ((Scan.word cur.classifier behind).reach before.utf8Size (c :: behind)) := by
  let n := Scan.wordLength cur.classifier behind
  have htext : cur.text = before ++ c :: behind.take n ++ behind.drop n := by
    rw [h, List.append_assoc, List.cons_append, List.take_append_drop]
  have hboundary : firstStop (fun i ↦ some (cur.text.isBoundary i)) cur.bound
      (before ++ c :: behind.take n).utf8Size = some (before ++ c :: behind.take n).utf8Size :=
    firstStop_add (n := 0) nofun (by rw [htext, Nat.add_zero, Text.isBoundary_append])
      (Nat.succ_pos _)
  rw [Scan.word, reach_one_add, plainWord, firstStop_stopsWord h, Option.bind_eq_bind,
    Option.bind_some, hboundary]
  simp [Nat.add_assoc, n]

/-! ## Escaped terminators -/

theorem utf8Size_replicate (n : Nat) : Text.utf8Size (List.replicate n '\\') = n :=
  Text.utf8Size_replicate rfl n

/-- The byte before a place is one of the character before it. -/
theorem exists_byte_before (h : cur.text = before ++ c :: behind) :
    ∃ i d, difference? (before ++ [c]).utf8Size 1 = some i ∧ cur.text.byte? i = some d ∧
      Text.IsByteOf d c := by
  have hsize := c.utf8Size_pos
  have hlast : c.utf8Size - 1 < c.utf8Size := by omega
  have hsum : (before ++ [c]).utf8Size = before.utf8Size + (c.utf8Size - 1) + 1 := by
    rw [Text.utf8Size_append, Text.utf8Size_cons, Text.utf8Size_nil]
    omega
  obtain ⟨d, hd, hbyte⟩ := Text.exists_byte before c behind hlast
  exact ⟨_, d, by rw [hsum, difference?_add], h ▸ hd, hbyte⟩

/-- The backslashes before a byte are counted one by one, and not beyond the start. `seen` is the
reverse of what is before those that are counted already. -/
theorem slashes_eq {seen : Text} {n steps : Nat}
    (h : cur.text = before ++ (seen.reverse ++ (List.replicate n '\\' ++ behind)))
    (hsteps : seen.length < steps) :
    cur.slashes before.utf8Size (before ++ (seen.reverse ++ List.replicate n '\\')).utf8Size
      steps n = some (n + (seen.takeWhile (· == '\\')).length) := by
  have hstop : difference? (before ++ (seen.reverse ++ List.replicate n '\\')).utf8Size n =
      some (before ++ seen.reverse).utf8Size := by
    rw [← List.append_assoc, Text.utf8Size_append _ (List.replicate n '\\'), utf8Size_replicate,
      difference?_add]
  -- A backslash goes over from `seen` to those that are counted, and what is before the byte
  -- stays the same.
  induction seen generalizing n steps with
  | nil =>
      obtain ⟨steps, rfl⟩ := Nat.exists_eq_add_one_of_ne_zero (Nat.ne_zero_of_lt hsteps)
      rw [slashes, hstop, Option.bind_eq_bind, Option.bind_some, if_neg (by simp)]
      rfl
  | cons c seen ih =>
      obtain ⟨steps, rfl⟩ := Nat.exists_eq_add_one_of_ne_zero (Nat.ne_zero_of_lt hsteps)
      have hseen : before ++ (c :: seen).reverse = before ++ seen.reverse ++ [c] := by
        rw [List.reverse_cons, List.append_assoc]
      have htext : cur.text =
          before ++ seen.reverse ++ c :: (List.replicate n '\\' ++ behind) := by
        rw [h]
        simp
      obtain ⟨i, d, hi, hd, hbyte⟩ := exists_byte_before htext
      have hstart : before.utf8Size < (before ++ seen.reverse ++ [c]).utf8Size := by
        have hsize := c.utf8Size_pos
        simp only [Text.utf8Size_append, Text.utf8Size_cons]
        omega
      rw [slashes, hstop, Option.bind_eq_bind, Option.bind_some, hseen, if_pos hstart, hi,
        Option.bind_eq_bind, Option.bind_some, hd, Option.bind_some]
      by_cases hslash : c = '\\'
      · subst hslash
        have hmore (more : Text) : ('\\' :: seen).reverse ++ (List.replicate n '\\' ++ more) =
            seen.reverse ++ (List.replicate (n + 1) '\\' ++ more) := by
          rw [List.replicate_succ]
          simp
        have hnext := hmore []
        rw [List.append_nil, List.append_nil] at hnext
        obtain rfl : d = '\\' := hbyte.resolve_right fun h ↦ absurd h.2 (by decide)
        rw [if_pos rfl, hnext, ih (hmore behind ▸ h) (Nat.lt_of_succ_lt_succ hsteps)]
        · rw [List.takeWhile_cons_of_pos rfl, List.length_cons, Nat.add_assoc, Nat.add_comm 1]
        · rw [← List.append_assoc, Text.utf8Size_append _ (List.replicate (n + 1) '\\'),
            utf8Size_replicate, difference?_add]
      · have hne : d ≠ '\\' := by
          rintro rfl
          rcases hbyte with rfl | ⟨hd, -⟩
          · exact hslash rfl
          · exact absurd hd (by decide)
        rw [if_neg hne, List.takeWhile_cons_of_neg (by simpa using hslash)]
        rfl

/-- The backslashes at the end of what has been passed of a construct are all counted. -/
theorem slashes_of_passed {passed : Text} (h : cur.text = before ++ (passed ++ behind)) :
    cur.slashes before.utf8Size (before ++ passed).utf8Size cur.bound 0 =
      some (passed.reverse.takeWhile (· == '\\')).length := by
  have hsteps : passed.reverse.length < cur.bound := by
    have hlength := Text.length_le_utf8Size (passed ++ behind)
    have hbound := lt_bound h
    simp only [List.length_append, List.length_reverse] at hlength ⊢
    omega
  have htext : cur.text =
      before ++ (passed.reverse.reverse ++ (List.replicate 0 '\\' ++ behind)) := by
    rw [h, List.reverse_reverse]
    rfl
  have hslashes := slashes_eq htext hsteps
  rwa [List.reverse_reverse, List.replicate_zero, List.append_nil, Nat.zero_add] at hslashes

theorem findUnescapedFrom_append {seen skip : Text} {terminator : Char}
    (hskip : terminator ∉ skip) (rest : Text) :
    Scan.findUnescapedFrom seen terminator (skip ++ rest) =
      Scan.findUnescapedFrom (skip.reverse ++ seen) terminator rest := by
  induction skip generalizing seen with
  | nil => rfl
  | cons c skip ih =>
      obtain ⟨hne, hskip⟩ := not_or.mp (mt List.mem_cons.mpr hskip)
      rw [List.cons_append, Scan.findUnescapedFrom, if_neg (fun h ↦ hne h.1.symm), ih hskip,
        List.reverse_cons, List.append_assoc]
      rfl

/-- The search by index finds the terminator that the search by characters finds. `passed` is what
has been passed since the start of the construct. -/
theorem findUnescaped_eq {terminator : Char} (hterminator : terminator.toNat < 128)
    {passed : Text} {steps : Nat} (h : cur.text = before ++ (passed ++ behind))
    (hsteps : behind.length < steps) :
    cur.findUnescaped terminator before.utf8Size steps (before ++ passed).utf8Size =
      some ((Scan.findUnescapedFrom passed.reverse terminator behind).map fun n ↦
        before.utf8Size + Text.utf8Size ((passed ++ behind).take n)) := by
  induction steps generalizing passed behind with
  | zero => omega
  | succ steps ih =>
      have hcut : cur.text.cut? (before ++ passed).utf8Size =
          some (before ++ passed, behind) := by
        rw [h, ← List.append_assoc]
        exact Text.cut?_append _ _
      rw [findUnescaped, hcut]
      dsimp only [Option.bind_eq_bind, Option.bind_some]
      by_cases hmem : terminator ∈ behind
      · obtain ⟨skip, more, rfl, hskip⟩ : ∃ skip more : Text,
            behind = skip ++ terminator :: more ∧ terminator ∉ skip :=
          List.eq_append_cons_of_mem hmem
        have hone := Text.utf8Size_of_lt hterminator
        have hfound : (before ++ passed).utf8Size + skip.utf8Size =
            (before ++ (passed ++ skip)).utf8Size := by
          simp [Nat.add_assoc]
        have htext : cur.text = before ++ (passed ++ skip ++ terminator :: more) := by
          simpa using h
        have hslashes := slashes_of_passed htext
        rw [Text.find?_append hskip]
        dsimp only
        rw [hfound, hslashes, ← hfound, Option.bind_some, findUnescapedFrom_append hskip,
          ← List.reverse_append, Scan.findUnescapedFrom]
        have hsplit : passed ++ (skip ++ terminator :: more) =
            passed ++ skip ++ [terminator] ++ more := by simp
        -- Behind an even number of backslashes the terminator ends the construct, else it is
        -- passed too.
        by_cases heven : ((passed ++ skip).reverse.takeWhile (· == '\\')).length % 2 = 0
        · have hends : Scan.endsEscaped (passed ++ skip).reverse = false := by
            rw [Scan.endsEscaped, heven]
            rfl
          rw [if_pos heven, if_pos ⟨rfl, hends⟩, List.length_reverse, Option.map_some,
            ← List.append_assoc, List.take_left, Text.utf8Size_append, Text.utf8Size_append,
            Nat.add_assoc]
          rfl
        · have hends : ¬(terminator = terminator ∧
              Scan.endsEscaped (passed ++ skip).reverse = false) := by
            rintro ⟨-, hends⟩
            exact heven (by simpa [Scan.endsEscaped] using hends)
          have hnext : (before ++ passed).utf8Size + skip.utf8Size + 1 =
              (before ++ (passed ++ skip ++ [terminator])).utf8Size := by
            simp [hone, Nat.add_assoc]
          have hmore : more.length < steps := by
            rw [List.length_append, List.length_cons] at hsteps
            omega
          rw [if_neg heven, if_neg hends, hnext, ih (hsplit ▸ h) hmore, hsplit,
            List.reverse_concat]
      · rw [Text.find?_of_not_mem hmem, ← List.append_nil behind, findUnescapedFrom_append hmem]
        rfl

theorem exists_findUnescapedFrom {seen text : Text} {terminator : Char} {n : Nat}
    (h : Scan.findUnescapedFrom seen terminator text = some n) :
    ∃ inner more, text = inner ++ terminator :: more ∧ n = seen.length + inner.length := by
  induction text generalizing seen with
  | nil => cases h
  | cons c text ih =>
      rw [Scan.findUnescapedFrom] at h
      split at h
      · next hcond =>
          cases h
          exact ⟨[], text, by rw [hcond.1]; rfl, rfl⟩
      · obtain ⟨inner, more, rfl, rfl⟩ := ih h
        exact ⟨c :: inner, more, rfl, by simp only [List.length_cons]; omega⟩

/-- A string and the body of a url reach as far as their terminator is searched for. -/
theorem enclosed_eq (construct : OpenConstruct) {terminator : Char}
    (hterminator : terminator.toNat < 128) (h : cur.text = before ++ c :: behind)
    (hc : c.utf8Size = 1) :
    cur.enclosed construct terminator before.utf8Size =
      some (Extent.reach before.utf8Size (c :: behind)
        (match Scan.findUnescaped terminator behind with
        | some n => .closed construct.tokenKind (n + 2)
        | none => .unclosed construct)) := by
  have hsteps : behind.length < cur.bound := by
    have hlength := Text.length_le_utf8Size behind
    have hbound := lt_bound h
    rw [Text.utf8Size_cons] at hbound
    omega
  have htext : cur.text = before ++ [c] ++ ([] ++ behind) := text_concat h
  have hsearch := findUnescaped_eq hterminator htext hsteps
  rw [List.append_nil, List.nil_append, List.reverse_nil, utf8Size_concat before hc] at hsearch
  rw [enclosed, hsearch, Scan.findUnescaped]
  cases hfound : Scan.findUnescapedFrom [] terminator behind with
  | none => rfl
  | some n =>
      obtain ⟨inner, more, rfl, rfl⟩ := exists_findUnescapedFrom hfound
      have hone := Text.utf8Size_of_lt hterminator
      simp only [List.length_nil, Nat.zero_add, Option.map_some, Option.bind_eq_bind,
        Option.bind_some, Extent.reach, List.take_succ_cons, Text.utf8Size_cons, hc,
        List.take_length_add_append, List.take_zero, Text.utf8Size_append, Text.utf8Size_nil,
        hone, List.take_left, Nat.add_assoc]
      rfl

/-! ## Comments -/

/-- The end of a comment is behind the first `*/`. -/
theorem find?_commentEnd (text : Text) :
    (Text.find? "*/".toList text).map (· + 2) =
      (Scan.commentEnd text).map fun n ↦ Text.utf8Size (text.take n) := by
  induction text using Scan.commentEnd.induct with
  | case1 text => rfl
  | case2 c text hne ih =>
      have hprefix : "*/".toList.isPrefixOf (c :: text) = false := by
        refine eq_false_of_ne_true fun h ↦ ?_
        obtain ⟨more, hmore⟩ := List.isPrefixOf_iff_prefix.mp h
        cases hmore
        exact hne more rfl rfl
      rw [Scan.commentEnd.eq_2 c text hne, Text.find?, hprefix, if_neg Bool.false_ne_true,
        Option.map_map, Option.map_map]
      have hshift := congrArg (Option.map (c.utf8Size + ·)) ih
      rw [Option.map_map, Option.map_map] at hshift
      exact hshift
  | case3 => rfl

theorem comment_eq (h : cur.text = before ++ '/' :: behind) (hstar : behind.head? = some '*') :
    cur.comment before.utf8Size =
      some ((Scan.comment behind).reach before.utf8Size ('/' :: behind)) := by
  obtain ⟨rest, rfl⟩ : ∃ rest : Text, behind = '*' :: rest := by
    cases behind with
    | nil => cases hstar
    | cons c rest => cases hstar; exact ⟨rest, rfl⟩
  have hcut : cur.text.cut? (before.utf8Size + 2) = some (before ++ ['/', '*'], rest) := by
    have hstart : before.utf8Size + 2 = (before ++ ['/', '*']).utf8Size := by
      rw [Text.utf8Size_append]
      rfl
    have htext : cur.text = before ++ ['/', '*'] ++ rest := by simpa using h
    rw [hstart, htext]
    exact Text.cut?_append _ _
  rw [comment, hcut]
  dsimp only [Option.bind_eq_bind, Option.bind_some]
  have hend := find?_commentEnd rest
  rw [Scan.comment, List.drop_one, List.tail_cons]
  cases hfind : Text.find? "*/".toList rest with
  | none =>
      rw [hfind, Option.map_none, eq_comm, Option.map_eq_none_iff] at hend
      rw [hend]
      rfl
  | some n =>
      rw [hfind, Option.map_some, eq_comm, Option.map_eq_some_iff] at hend
      obtain ⟨m, hm, hn⟩ := hend
      have hstop : before.utf8Size + Text.utf8Size (('/' :: '*' :: rest).take (m + 2)) =
          before.utf8Size + 2 + n + 2 := by
        rw [List.take_succ_cons, List.take_succ_cons, Text.utf8Size_cons, Text.utf8Size_cons, hn]
        change before.utf8Size + (1 + (1 + (n + 2))) = _
        omega
      rw [hm]
      dsimp only [Extent.reach]
      rw [hstop]
      rfl

/-! ## Escapes -/

/-- A run of backslashes is passed up to its last one, and its length tells whether that
escapes. -/
theorem passSlashes_eq {n steps : Nat} (escaping : Bool)
    (h : cur.text = before ++ '\\' :: (List.replicate n '\\' ++ behind))
    (hbehind : behind.head? ≠ some '\\') (hsteps : n < steps) :
    cur.passSlashes steps before.utf8Size escaping =
      some (before.utf8Size + n, escaping == decide (n % 2 = 0)) := by
  induction n generalizing before steps escaping with
  | zero =>
      obtain ⟨steps, rfl⟩ := Nat.exists_eq_add_one_of_ne_zero (Nat.ne_zero_of_lt hsteps)
      have hsees := sees_head (x := '\\') (by decide) (text_concat h)
      rw [utf8Size_concat before rfl, List.replicate_zero, List.nil_append,
        beq_eq_false_iff_ne.mpr hbehind] at hsees
      rw [passSlashes, hsees, if_neg Bool.false_ne_true]
      simp
  | succ n ih =>
      obtain ⟨steps, rfl⟩ := Nat.exists_eq_add_one_of_ne_zero (Nat.ne_zero_of_lt hsteps)
      have htext : cur.text = before ++ ['\\'] ++ '\\' :: (List.replicate n '\\' ++ behind) :=
        text_concat h
      have hstart : (before ++ ['\\']).utf8Size = before.utf8Size + 1 :=
        utf8Size_concat before rfl
      have hparity : ((!escaping) == decide (n % 2 = 0)) =
          (escaping == decide ((n + 1) % 2 = 0)) := by
        have hflip : decide ((n + 1) % 2 = 0) = !decide (n % 2 = 0) := by
          rw [← decide_not, decide_eq_decide]
          omega
        rw [hflip]
        cases escaping <;> simp
      rw [passSlashes, ← hstart, sees_head (by decide) htext, List.head?_cons,
        beq_self_eq_true, if_pos rfl, ih _ htext (Nat.lt_of_succ_lt_succ hsteps), hstart, hparity,
        Nat.add_assoc, Nat.add_comm 1]

/-- The digits of a hexadecimal escape are passed up to the last one, with a space behind them. -/
theorem passDigits_eq {more : Text} (h : cur.text = before ++ c :: more) (hc : c.utf8Size = 1) :
    (do
      let next ← firstStop (fun i ↦ some (!cur.holds .hex (i + 1))) cur.bound before.utf8Size
      return if cur.sees (next + 1) ' ' then next + 1 else next) =
    some (before.utf8Size +
      let digits := (more.takeWhile (cur.classifier.is .hex)).length
      Text.utf8Size
      (more.take (digits + if (more.drop digits).head? = some ' ' then 1 else 0))) := by
  obtain ⟨digits, rest, hdigits, hmore⟩ : ∃ digits rest : Text,
      more.takeWhile (cur.classifier.is .hex) = digits ∧ more = digits ++ rest :=
    ⟨_, _, rfl, List.takeWhile_append_dropWhile.symm⟩
  have hstart := utf8Size_concat before hc
  have hloop := firstStop_class (cur.classifier.is .hex) (fun i ↦ some (!cur.holds .hex i))
    (text_concat h)
    (fun htext hj hd ↦ by rw [holds_char .hex htext hj, hd]; rfl)
    (fun htext hhead ↦ by rw [holds_head .hex htext, hhead]; rfl)
  have hplace : cur.text = before ++ [c] ++ digits ++ rest := by
    rw [List.append_assoc, ← hmore, text_concat h]
  have hsees := sees_head (x := ' ') (by decide) hplace
  rw [Text.utf8Size_append, hstart] at hsees
  rw [hstart, hdigits] at hloop
  have hnext : before.utf8Size + 1 + digits.utf8Size - 1 + 1 =
      before.utf8Size + 1 + digits.utf8Size := by
    omega
  rw [firstStop_succ (fun i ↦ some (!cur.holds .hex i)), hloop, hdigits, hmore]
  dsimp only
  rw [List.drop_left, List.take_length_add_append, Text.utf8Size_append]
  simp only [Option.map_some, Option.bind_eq_bind, Option.bind_some, hnext, hsees]
  by_cases hspace : rest.head? = some ' '
  · obtain ⟨tail, rfl⟩ := List.head?_eq_some_iff.mp hspace
    rw [if_pos (by rw [hspace]; rfl), if_pos hspace, Nat.add_assoc, Nat.add_comm 1]
    rfl
  · rw [if_neg (by simpa using hspace), if_neg hspace, Nat.add_right_comm, Nat.add_sub_cancel]
    rfl

/-- What a backslash escapes is passed up to its last byte. -/
theorem passEscaped_eq (h : cur.text = before ++ '\\' :: behind) :
    cur.passEscaped before.utf8Size =
      some (before.utf8Size +
        Text.utf8Size (behind.take (Scan.escapedLength cur.classifier behind))) := by
  have htext := text_concat h
  have hstart : (before ++ ['\\']).utf8Size = before.utf8Size + 1 := utf8Size_concat before rfl
  cases behind with
  | nil =>
      rw [passEscaped, ← hstart, htext, List.append_nil, Text.byte?_utf8Size]
      rfl
  | cons c more =>
      obtain ⟨d, hd, hbyte⟩ := Text.exists_byte (before ++ ['\\']) c more c.utf8Size_pos
      have hstops : Scan.escapeStops.contains d = Scan.escapeStops.contains c := by
        refine hbyte.test_eq (p := Scan.escapeStops.contains) fun e he ↦ ?_
        simp only [Scan.escapeStops, List.contains_eq_mem, decide_eq_true_eq, List.mem_cons,
          List.not_mem_nil, or_false] at he
        rcases he with rfl | rfl | rfl | rfl | rfl | rfl <;> decide
      rw [passEscaped, ← hstart, htext, ← Nat.add_zero (Text.utf8Size (before ++ ['\\'])), hd]
      dsimp only
      rw [hstops, Scan.escapedLength]
      split
      · rfl
      · have hcut := Text.cut?_append (before ++ ['\\']) (c :: more)
        have hlast : before.utf8Size + c.utf8Size =
            (before ++ ['\\']).utf8Size + (c.utf8Size - 1) := by
          have := c.utf8Size_pos
          rw [hstart]
          omega
        have hhex : cur.holds .hex (before.utf8Size + c.utf8Size) = cur.classifier.is .hex c := by
          have := c.utf8Size_pos
          rw [hlast]
          exact holds_char .hex htext (by omega)
        rw [Nat.add_zero, hcut]
        simp only [Option.bind_eq_bind, Option.bind_some, List.head?_cons, Option.map_some,
          Option.getD_some, hhex]
        split
        · next hdigit =>
            have hone := Text.utf8Size_of_lt (lt_of_is hdigit)
            have hdigits := passDigits_eq htext hone
            simp only [Option.bind_eq_bind] at hdigits
            rw [hone, ← hstart, hdigits, Nat.add_assoc 1, Nat.add_comm 1 (_ + _),
              List.take_succ_cons, Text.utf8Size_cons, hone, hstart, Nat.add_assoc]
        · simp

/-- A text is a run of backslashes and what follows the last one of them. -/
theorem exists_slashes (text : Text) : ∃ (n : Nat) (rest : Text),
    text.takeWhile (· == '\\') = List.replicate n '\\' ∧
    text = List.replicate n '\\' ++ rest ∧ rest.head? ≠ some '\\' := by
  have hreplicate : text.takeWhile (· == '\\') =
      List.replicate (text.takeWhile (· == '\\')).length '\\' :=
    List.eq_replicate_of_mem fun c hc ↦ by simpa using List.mem_takeWhile_imp hc
  refine ⟨_, text.dropWhile (· == '\\'), hreplicate, ?_, fun hhead ↦ ?_⟩
  · rw [← hreplicate, List.takeWhile_append_dropWhile]
  · have hnot := List.head?_dropWhile_not (· == '\\') text
    rw [hhead] at hnot
    cases hnot

theorem escape_eq (h : cur.text = before ++ '\\' :: behind) :
    cur.escape before.utf8Size =
      some ((Scan.escape cur.classifier behind).reach before.utf8Size ('\\' :: behind)) := by
  obtain ⟨n, rest, hslashes, hbehind, hrest⟩ := exists_slashes behind
  -- What is escaped is looked for behind the last backslash, so that one is moved behind the
  -- others.
  have hmoved : cur.text = before ++ List.replicate n '\\' ++ '\\' :: rest := by
    rw [h, hbehind, List.append_assoc, ← List.cons_append, ← List.replicate_succ,
      List.replicate_succ', List.append_assoc]
    rfl
  have hsize : (before ++ List.replicate n '\\').utf8Size = before.utf8Size + n := by
    rw [Text.utf8Size_append, utf8Size_replicate]
  have hsteps : n < cur.bound := by
    have hbound := lt_bound h
    rw [hbehind, Text.utf8Size_cons, Text.utf8Size_append, utf8Size_replicate] at hbound
    omega
  have hpass := passSlashes_eq true (hbehind ▸ h) hrest hsteps
  have hescaped := passEscaped_eq hmoved
  rw [hsize] at hescaped
  rw [escape, hpass, Scan.escape, hslashes, List.length_replicate, hbehind,
    List.drop_left' (List.length_replicate)]
  by_cases heven : n % 2 = 0
  · have htake (m : Nat) : (List.replicate n '\\' ++ rest).take (n + m) =
        List.replicate n '\\' ++ rest.take m := by
      have htake : _ = List.replicate n '\\' ++ rest.take m := List.take_length_add_append m
      rwa [List.length_replicate] at htake
    simp only [heven, decide_true, beq_self_eq_true, if_true, Option.bind_eq_bind,
      Option.bind_some, hescaped, Nat.add_assoc 1, reach_one_add, htake, Text.utf8Size_append,
      utf8Size_replicate]
    refine congrArg (some ∘ Reach.closed .word) ?_
    rw [show '\\'.utf8Size = 1 from rfl]
    omega
  · rw [if_neg heven, reach_one_add]
    simp only [heven, decide_false, Option.bind_eq_bind, Option.bind_some,
      List.take_left' (List.length_replicate)]
    refine congrArg (some ∘ Reach.closed .word) ?_
    rw [utf8Size_replicate, show '\\'.utf8Size = 1 from rfl]
    omega

/-! ## Groups -/

theorem anyHolds_add {k : CharClass} {m n i : Nat}
    (hpass : ∀ j < m, ∃ d, cur.text.byte? (i + j) = some d ∧ cur.classifier.is k d = false) :
    cur.anyHolds k (m + n) i = cur.anyHolds k n (i + m) := by
  induction m generalizing i with
  | zero => rw [Nat.zero_add, Nat.add_zero]
  | succ m ih =>
      obtain ⟨d, hd, hclass⟩ := hpass 0 (Nat.succ_pos m)
      rw [Nat.add_zero] at hd
      have hrest : ∀ j < m, ∃ d, cur.text.byte? (i + 1 + j) = some d ∧
          cur.classifier.is k d = false := by
        intro j hj
        rw [Nat.add_assoc, Nat.add_comm 1]
        exact hpass (j + 1) (Nat.succ_lt_succ hj)
      rw [Nat.add_right_comm, anyHolds, hd, Option.bind_eq_bind, Option.bind_some, hclass,
        if_neg Bool.false_ne_true, ih hrest, Nat.add_assoc, Nat.add_comm 1]

theorem anyHolds_eq (k : CharClass) {piece : Text} (h : cur.text = before ++ (piece ++ behind)) :
    cur.anyHolds k piece.utf8Size before.utf8Size = some (piece.any (cur.classifier.is k)) := by
  induction piece generalizing before with
  | nil => rfl
  | cons c piece ih =>
      have hbyte {j : Nat} (hj : j < c.utf8Size) : ∃ d,
          cur.text.byte? (before.utf8Size + j) = some d ∧
            cur.classifier.is k d = cur.classifier.is k c := by
        obtain ⟨d, hd, hbyte⟩ := Text.exists_byte before c (piece ++ behind) hj
        exact ⟨d, h ▸ hd, hbyte.test_eq fun _ ↦ lt_of_is⟩
      rw [Text.utf8Size_cons, List.any_cons]
      cases hc : cur.classifier.is k c with
      | true =>
          obtain ⟨d, hd, hclass⟩ := hbyte c.utf8Size_pos
          rw [Text.utf8Size_of_lt (lt_of_is hc), Nat.add_comm 1, anyHolds,
            ← Nat.add_zero before.utf8Size, hd, Option.bind_eq_bind, Option.bind_some, hclass, hc]
          rfl
      | false =>
          have hmore := ih (text_concat h)
          rw [Text.utf8Size_append, Text.utf8Size_cons, Text.utf8Size_nil, Nat.add_zero] at hmore
          rw [anyHolds_add fun j hj ↦ hc ▸ hbyte hj, hmore, Bool.false_or]

theorem takeWhile_ne {skip : Text} (hskip : c ∉ skip) (rest : Text) :
    (skip ++ c :: rest).takeWhile (· != c) = skip := by
  have hpass : ∀ d ∈ skip, (d != c) = true := by
    intro d hd
    rw [bne_iff_ne]
    rintro rfl
    exact hskip hd
  rw [List.takeWhile_append_of_pos hpass, List.takeWhile_cons_of_neg (by simp), List.append_nil]

theorem group_eq (h : cur.text = before ++ '(' :: behind) :
    cur.group before.utf8Size =
      some ((Scan.group cur.classifier behind).reach before.utf8Size ('(' :: behind)) := by
  have hstart : (before ++ ['(']).utf8Size = before.utf8Size + 1 := utf8Size_concat before rfl
  have htext := text_concat h
  have hcut : cur.text.cut? (before.utf8Size + 1) = some (before ++ ['('], behind) := by
    rw [← hstart, htext]
    exact Text.cut?_append _ _
  rw [group, hcut, Scan.group]
  dsimp only [Option.bind_eq_bind, Option.bind_some]
  by_cases hmem : ')' ∈ behind
  · obtain ⟨body, more, rfl, hbody⟩ : ∃ body more : Text, behind = body ++ ')' :: more ∧
      ')' ∉ body := by
      obtain ⟨body, more, hsplit, hbody⟩ := List.eq_append_cons_of_mem hmem
      exact ⟨body, more, hsplit, hbody⟩
    have hany := anyHolds_eq .badBracket htext
    rw [hstart] at hany
    have hlength : body.length ≠ (body ++ ')' :: more).length := by
      rw [List.length_append, List.length_cons]
      omega
    rw [Text.find?_append hbody, takeWhile_ne hbody]
    simp only [Nat.add_sub_cancel_left, hany, Option.bind_some, decide_eq_false hlength,
      Bool.false_or]
    split
    · rfl
    · have hstop : Text.utf8Size (('(' :: (body ++ ')' :: more)).take (body.length + 2)) =
          1 + (body.utf8Size + 1) := by
        rw [List.take_succ_cons, List.take_length_add_append, Text.utf8Size_cons,
          Text.utf8Size_append]
        rfl
      dsimp only [Extent.reach]
      rw [hstop, ← Nat.add_assoc, ← Nat.add_assoc]
      rfl
  · have htake : behind.takeWhile (· != ')') = behind := by
      rw [List.takeWhile_eq_self_iff]
      intro d hd
      rw [bne_iff_ne]
      rintro rfl
      exact hmem hd
    rw [Text.find?_of_not_mem hmem, htake]
    simp only [decide_true, Bool.true_or, if_true]
    rfl

theorem openParen_eq (h : cur.text = before ++ '(' :: behind) :
    cur.openParen before.utf8Size =
      some ((Scan.openParen cur.classifier cur.word behind).reach before.utf8Size
        ('(' :: behind)) := by
  have hstops : (cur.text.byte? (before.utf8Size + 1)).any Scan.urlStops.contains =
      behind.head?.any Scan.urlStops.contains := by
    have hstart : (before ++ ['(']).utf8Size = before.utf8Size + 1 := utf8Size_concat before rfl
    rw [← hstart, text_concat h]
    cases behind with
    | nil => rw [List.append_nil, Text.byte?_utf8Size]; rfl
    | cons c behind =>
        obtain ⟨d, hd, hbyte⟩ := Text.exists_byte (before ++ ['(']) c behind c.utf8Size_pos
        rw [← Nat.add_zero (Text.utf8Size _), hd]
        refine hbyte.test_eq (p := Scan.urlStops.contains) fun e he ↦ ?_
        simp only [Scan.urlStops, List.contains_eq_mem, decide_eq_true_eq, List.mem_cons,
          List.not_mem_nil, or_false] at he
        rcases he with rfl | rfl | rfl | rfl | rfl | rfl | rfl <;> decide
  rw [openParen, hstops, Scan.openParen, Scan.opensUrl]
  split
  · exact enclosed_eq .bracket (by decide) h rfl
  · exact group_eq h

/-! ## All tokens -/

theorem ne_of_le {x : Char} (hc : 128 ≤ c.toNat) (hx : x.toNat < 128) : c ≠ x := by
  rintro rfl
  omega

theorem lt_of_single {kind : TokenKind} (h : Scan.single? c = some kind) : c.toNat < 128 := by
  unfold Scan.single? at h
  split at h <;> first | decide | cases h

theorem single?_of_le (hc : 128 ≤ c.toNat) : Scan.single? c = none :=
  Option.eq_none_iff_forall_ne_some.mpr fun _ h ↦ absurd (lt_of_single h) (Nat.not_lt.mpr hc)

theorem sees_behind_slash (h : cur.text = before ++ '/' :: behind) :
    cur.sees (before.utf8Size + 1) '*' = true ↔ behind.head? = some '*' := by
  have hstart : (before ++ ['/']).utf8Size = before.utf8Size + 1 := utf8Size_concat before rfl
  rw [← hstart, sees_head (by decide) (text_concat h), beq_iff_eq]

theorem scan_eq (h : cur.text = before ++ c :: behind) :
    cur.scan before.utf8Size =
      some ((Stylesheet.scan cur.classifier cur.word c behind).reach before.utf8Size
        (c :: behind)) := by
  obtain ⟨d, hd, hbyte⟩ := Text.exists_byte before c behind c.utf8Size_pos
  rw [Nat.add_zero, ← h] at hd
  rw [scan, hd, Option.bind_eq_bind, Option.bind_some]
  rcases hbyte with rfl | ⟨hd, hc⟩
  · unfold Stylesheet.scan
    by_cases hspace : cur.classifier.is .space d = true
    · rw [if_pos hspace, if_pos hspace]
      exact space_eq h (Text.utf8Size_of_lt (lt_of_is hspace))
    rw [if_neg hspace, if_neg hspace]
    cases hsingle : Scan.single? d with
    | some kind =>
        rw [← Nat.add_zero 1, reach_one_add, Text.utf8Size_of_lt (lt_of_single hsingle)]
        rfl
    | none =>
        dsimp only
        by_cases hparen : d = '('
        · rw [if_pos hparen, if_pos hparen]
          exact hparen ▸ openParen_eq (hparen ▸ h)
        rw [if_neg hparen, if_neg hparen]
        by_cases hquote : d = '"' ∨ d = '\''
        · rw [if_pos hquote, if_pos hquote]
          have hlt : d.toNat < 128 := by rcases hquote with rfl | rfl <;> decide
          exact enclosed_eq .string hlt h (Text.utf8Size_of_lt hlt)
        rw [if_neg hquote, if_neg hquote]
        by_cases hat : d = '@'
        · rw [if_pos hat, if_pos hat]
          exact atWord_eq h (hat ▸ rfl)
        rw [if_neg hat, if_neg hat]
        by_cases hslash : d = '\\'
        · rw [if_pos hslash, if_pos hslash]
          exact hslash ▸ escape_eq (hslash ▸ h)
        rw [if_neg hslash, if_neg hslash]
        by_cases hcomment : d = '/' ∧ behind.head? = some '*'
        · have hsees : d = '/' ∧ cur.sees (before.utf8Size + 1) '*' = true := by
            rw [← sees_behind_slash (hcomment.1 ▸ h)] at hcomment
            exact hcomment
          rw [if_pos hcomment, if_pos hsees]
          exact hcomment.1 ▸ comment_eq (hcomment.1 ▸ h) hcomment.2
        · have hsees : ¬(d = '/' ∧ cur.sees (before.utf8Size + 1) '*' = true) := by
            rintro ⟨rfl, hstar⟩
            exact hcomment ⟨rfl, (sees_behind_slash h).mp hstar⟩
          rw [if_neg hcomment, if_neg hsees]
          exact plainWord_eq h
  · -- Neither the character nor its first byte means anything, so that both start a word.
    have hplain {e : Char} (he : 128 ≤ e.toNat) :
        e ≠ '(' ∧ ¬(e = '"' ∨ e = '\'') ∧ e ≠ '@' ∧ e ≠ '\\' ∧ e ≠ '/' :=
      ⟨ne_of_le he (by decide), not_or.mpr ⟨ne_of_le he (by decide), ne_of_le he (by decide)⟩,
        ne_of_le he (by decide), ne_of_le he (by decide), ne_of_le he (by decide)⟩
    have hword := plainWord_eq h
    obtain ⟨hparen, hquote, hat, hslash, hcomment⟩ := hplain hd
    obtain ⟨hparen', hquote', hat', hslash', hcomment'⟩ := hplain hc
    simp only [Stylesheet.scan, Classifier.is_eq_false_of_le hd, Classifier.is_eq_false_of_le hc,
      single?_of_le hd, single?_of_le hc, hparen, hquote, hat, hslash, hcomment, hparen',
      hquote', hat', hslash', hcomment', false_and, if_false, hword, Bool.false_eq_true]

/-- A cursor takes the text that a lexer at its place takes. -/
theorem take_eq (kind : TokenKind) (healed : Bool) {rest : Text} (n : Nat)
    (h : cur.text = before ++ rest) (hposition : cur.position = before.utf8Size) :
    ∃ next : Cursor,
      cur.take kind (cur.position + Text.utf8Size (rest.take n)) healed =
        some (((cur.toLexer rest).take kind n healed).1, next) ∧
      ((cur.toLexer rest).take kind n healed).2 = next.toLexer (rest.drop n) ∧
      next.text = before ++ rest.take n ++ rest.drop n ∧
      next.position = (before ++ rest.take n).utf8Size := by
  have htext : cur.text = before ++ (rest.take n ++ rest.drop n) := by
    rw [h, List.take_append_drop]
  have hslice := Text.slice?_append before (rest.take n) (rest.drop n)
  rw [← htext, Text.utf8Size_append, ← hposition] at hslice
  refine ⟨{ cur with
    position := cur.position + Text.utf8Size (rest.take n)
    word := (cur.toLexer []).remember kind (rest.take n) }, ?_, rfl, ?_, ?_⟩
  · rw [take, hslice]
    rfl
  · rw [htext, List.append_assoc]
  · rw [Text.utf8Size_append, hposition]

/-- A cursor reads the token that a lexer at its place reads, and is then at the place of the
lexer. -/
theorem scanNext_eq {rest : Text} (h : cur.text = before ++ rest)
    (hposition : cur.position = before.utf8Size) :
    match (cur.toLexer rest).scanNext with
    | (.error e, _) => cur.scanNext = some (.error e)
    | (.ok none, _) => cur.scanNext = some (.ok none)
    | (.ok (some token), l) => ∃ next : Cursor, cur.scanNext = some (.ok (some (token, next))) ∧
        l = next.toLexer l.rest ∧ next.text = before ++ token.text ++ l.rest ∧
          next.position = (before ++ token.text).utf8Size := by
  cases rest with
  | nil =>
      have hend : ¬cur.position < cur.text.utf8Size := by
        rw [h, hposition, List.append_nil]
        exact Nat.lt_irrefl _
      change cur.scanNext = some (.ok none)
      rw [scanNext, if_neg hend]
      rfl
  | cons c behind =>
      have hlt : cur.position < cur.text.utf8Size := by
        rw [hposition]
        exact lt_size h c.utf8Size_pos
      have hscan := scan_eq h
      rw [← hposition] at hscan
      rw [scanNext, if_pos hlt, hscan]
      cases hextent : Stylesheet.scan cur.classifier cur.word c behind with
      | closed kind n =>
          obtain ⟨next, htake, hlexer, htext, hnext⟩ := take_eq kind false n h hposition
          have hlexed : (cur.toLexer (c :: behind)).scanNext =
              (.ok (some ((cur.toLexer (c :: behind)).take kind n false).1),
                ((cur.toLexer (c :: behind)).take kind n false).2) := by
            simp only [Lexer.scanNext, toLexer, hextent]
          rw [hlexed]
          simp only [Extent.reach, htake, Option.bind_eq_bind, Option.bind_some]
          exact ⟨next, rfl, hlexer, htext, hnext⟩
      | unclosed construct =>
          cases hpolicy : cur.policy with
          | fail =>
              have hlexed : ∃ after, (cur.toLexer (c :: behind)).scanNext =
                  (.error ⟨construct, cur.position⟩, after) := by
                simp only [Lexer.scanNext, toLexer, hextent, hpolicy]
                exact ⟨_, rfl⟩
              obtain ⟨after, hlexed⟩ := hlexed
              rw [hlexed]
              rfl
          | heal =>
              obtain ⟨next, htake, hlexer, htext, hnext⟩ :=
                take_eq construct.tokenKind true (behind.length + 1) h hposition
              have hlexed : (cur.toLexer (c :: behind)).scanNext =
                  (.ok (some ((cur.toLexer (c :: behind)).take construct.tokenKind
                    (behind.length + 1) true).1),
                    ((cur.toLexer (c :: behind)).take construct.tokenKind
                      (behind.length + 1) true).2) := by
                simp only [Lexer.scanNext, toLexer, hextent, hpolicy]
              -- A lexer takes all characters that are left, a cursor all bytes.
              have hstop : cur.position + Text.utf8Size ((c :: behind).take (behind.length + 1)) =
                  cur.text.utf8Size := by
                rw [← List.length_cons, List.take_length, h, hposition, Text.utf8Size_append]
              rw [hstop] at htake
              rw [hlexed]
              simp only [Extent.reach, htake, Option.bind_eq_bind, Option.bind_some]
              exact ⟨next, rfl, hlexer, htext, hnext⟩

end Scanners

/-- From the same place, a cursor and a lexer read the same run. -/
theorem run_of_place {cur : Cursor} {before rest : Text} {steps bound : Nat}
    (h : cur.text = before ++ rest) (hposition : cur.position = before.utf8Size)
    (hsteps : rest.length < steps) (hbound : rest.length ≤ bound) :
    cur.run steps = some (Lexer.runFor bound (cur.toLexer rest)).1 := by
  -- The two bounds differ by one, since only the cursor takes a step to find the end.
  induction steps generalizing cur before rest bound with
  | zero => omega
  | succ steps ih =>
      have hplain : (cur.toLexer rest).IsPlain := ⟨rfl, rfl⟩
      have hnext := scanNext_eq h hposition
      cases bound with
      | zero =>
          obtain rfl := List.length_eq_zero_iff.mp (Nat.le_zero.mp hbound)
          have hend : cur.scanNext = some (.ok none) := hnext
          rw [run, hend]
          rfl
      | succ bound =>
          rcases hlexed : (cur.toLexer rest).scanNext with ⟨_ | _ | token, after⟩
          · rw [hlexed] at hnext
            rw [run, hnext, Lexer.runFor, Lexer.iterate_error hplain hlexed]
            rfl
          · rw [hlexed] at hnext
            rw [run, hnext, Lexer.runFor, Lexer.iterate_ok hplain hlexed]
            rfl
          · rw [hlexed] at hnext
            obtain ⟨next, hread, hafter, htext, hplace⟩ := hnext
            have hlength : after.rest.length < rest.length := Lexer.scanNext_length_lt hlexed
            have hbound : after.rest.length ≤ bound := by omega
            have hmore := ih htext hplace (by omega) hbound
            rw [← hafter] at hmore
            rw [run, hread, Lexer.runFor, Lexer.iterate_ok hplain hlexed]
            simp only [Option.bind_eq_bind, Option.bind_some, hmore]
            rfl

/-- No operation of a cursor is out of range, and it reads the tokens that a lexer reads. -/
theorem run_eq (text : Text) (policy : OpenPolicy) (classifier : Classifier) :
    (ofText text policy classifier).run (text.length + 1) =
      some (Lexer.ofText text policy classifier).run.1 :=
  @run_of_place _ [] text _ _ rfl rfl (Nat.lt_succ_self _) (Nat.le_add_left _ _)

end Cursor

end Stylesheet
