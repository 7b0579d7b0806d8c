import Mathlib.Data.List.DropRight
import Mathlib.Order.Bounds.Defs
import Stylesheet.Proofs.Lines

/-!
# Positions as counts

A position can be counted without looking anything up: its line is one more than the line feeds
before it, and its column one more than the characters since the last of them
(`Position.advanceText_start`). Reading on moves it forward, to a later line or further on in its
line, so that lines and columns order the boundaries of characters as their offsets do.

A look-up has numbers of 32 bits. `Source.place?` finds a `Place` in a table of lines, and the
line there can be searched by halving (`bisect`). `place_counts` compares it with the count. A
line and a column can be one more than the length of the text, so that they fit if the text is
shorter than `2 ^ 32 - 1` bytes. `not_counts_longest` is about a text that has just this length:
at its end the column starts again from zero.
-/

namespace Stylesheet

/-! ## Searching a table by halving -/

variable {α : Type} {p : α → Bool}

/-- `bisect p table low high` is the first index from `low` up to `high` at which `p` does not
hold of the entry of a table that starts with those it holds of. It halves the range, and is
`none` if it looks behind the table. -/
def bisect (p : α → Bool) (table : List α) (low high : Nat) : Option Nat :=
  if low < high then do
    let middle := low + (high - low) / 2
    let entry ← table[middle]?
    if p entry then bisect p table (middle + 1) high else bisect p table low middle
  else some low
termination_by high - low

/-- In a table that is cut in two by `p` the search finds the cut, wherever in the range it is. -/
theorem bisect_append {first second : List α} (hfirst : ∀ n ∈ first, p n = true)
    (hsecond : ∀ n ∈ second, p n = false) {low high : Nat} (hlow : low ≤ first.length)
    (hhigh : first.length ≤ high) (hsize : high ≤ first.length + second.length) :
    bisect p (first ++ second) low high = some first.length := by
  fun_induction bisect p (first ++ second) low high with
  | case1 low high hlt middle ihUpper ihLower =>
      have hmiddle : low ≤ middle ∧ middle < high := by omega
      by_cases h : middle < first.length
      · -- The entry is before the cut, which is then in the upper half.
        have hentry : (first ++ second)[middle]? = some first[middle] := by
          rw [List.getElem?_append_left h, List.getElem?_eq_getElem h]
        simp only [hentry, Option.bind_eq_bind, Option.bind_some,
          hfirst _ (List.getElem_mem h), if_true]
        exact ihUpper h hhigh hsize
      · have hindex : middle - first.length < second.length := by omega
        have hentry : (first ++ second)[middle]? = some second[middle - first.length] := by
          rw [List.getElem?_append_right (Nat.le_of_not_lt h), List.getElem?_eq_getElem hindex]
        simp only [hentry, Option.bind_eq_bind, Option.bind_some,
          hsecond _ (List.getElem_mem hindex), Bool.false_eq_true, if_false]
        exact ihLower hlow (Nat.le_of_not_lt h) (by omega)
  | case2 low high hge =>
      rw [Nat.le_antisymm hlow (by omega)]

namespace Text

/-- Every line feed starts a line. -/
theorem length_lineEnds (i : Nat) (bytes : List UInt8) :
    (lineEnds i bytes).length = bytes.count 10 := by
  induction bytes generalizing i with
  | nil => rfl
  | cons b bytes ih =>
      rw [lineEnds, List.count_cons]
      by_cases hb : b = 10
      · rw [if_pos hb, List.length_cons, ih, hb]
        rfl
      · rw [if_neg hb, ih, beq_eq_false_iff_ne.mpr hb]
        rfl

theorem length_lineStarts (text : Text) : (lineStarts text).length = 1 + text.bytes.count 10 := by
  rw [lineStarts, List.length_cons, length_lineEnds, Nat.add_comm]

/-- Of a text with less than `2 ^ 32` bytes every line starts at an offset with 32 bits. -/
theorem toNat_of_mem_lineStarts {text : Text} (h : text.utf8Size < UInt32.size) {n : Nat}
    (hn : n ∈ lineStarts text) : (UInt32.ofNat n).toNat = n :=
  UInt32.toNat_ofNat_of_lt' (Nat.lt_of_le_of_lt (le_of_mem_lineStarts hn) h)

/-- In the table of lines a search finds how many lines have started before an offset. -/
theorem bisect_lineStarts {text before behind : Text} (htext : text = before ++ behind)
    (h : text.utf8Size < UInt32.size) :
    bisect (·.toNat ≤ before.utf8Size) (text.lineStarts.map UInt32.ofNat) 0
      text.lineStarts.length = some (1 + before.bytes.count 10) := by
  have hsplit : lineStarts text = lineStarts before ++ lineEnds before.utf8Size behind.bytes := by
    rw [htext, lineStarts_append]
  have hentry : ∀ n ∈ lineStarts text, (UInt32.ofNat n).toNat = n :=
    fun n hn ↦ toNat_of_mem_lineStarts h hn
  rw [hsplit] at hentry ⊢
  have hlength : (lineStarts before).length = ((lineStarts before).map UInt32.ofNat).length :=
    (List.length_map _).symm
  rw [List.map_append, List.length_append, ← length_lineStarts, hlength]
  refine bisect_append (List.forall_mem_map.mpr fun n hn ↦ ?_)
    (List.forall_mem_map.mpr fun n hn ↦ ?_) (Nat.zero_le _) (Nat.le_add_right _ _) ?_
  · rw [hentry n (List.mem_append_left _ hn), decide_eq_true_eq]
    exact le_of_mem_lineStarts hn
  · rw [hentry n (List.mem_append_right _ hn), decide_eq_false_iff_not, Nat.not_le]
    exact lt_of_mem_lineEnds hn
  · rw [List.length_map, List.length_map]

/-- Of the bytes of a character, only a line feed counts. -/
theorem count_utf8EncodeChar (c : Char) :
    (String.utf8EncodeChar c).count 10 = if c = '\n' then 1 else 0 := by
  rw [← length_lineEnds 0, lineEnds_utf8EncodeChar]
  split <;> rfl

theorem count_bytes_concat (text : Text) (c : Char) :
    (bytes (text ++ [c])).count 10 = (bytes text).count 10 + if c = '\n' then 1 else 0 := by
  rw [bytes_append, List.count_append, ← count_utf8EncodeChar, bytes_cons]
  exact congrArg _ (congrArg _ (List.append_nil _))

/-- Line feeds and the characters behind the last one are bytes of a text. -/
theorem count_add_length_le (text : Text) :
    text.bytes.count 10 + (text.rtakeWhile (· != '\n')).length ≤ text.utf8Size := by
  induction text using List.reverseRecOn with
  | nil => exact Nat.le_refl 0
  | append_singleton text c ih =>
      have hpos := c.utf8Size_pos
      have hsize : utf8Size (text ++ [c]) = utf8Size text + c.utf8Size := utf8Size_append text [c]
      rw [count_bytes_concat, hsize, List.rtakeWhile_concat]
      by_cases hc : c = '\n'
      · subst hc
        rw [if_pos rfl, if_neg (by decide), List.length_nil]
        omega
      · rw [if_neg hc, if_pos (bne_iff_ne.mpr hc), List.length_append, List.length_singleton]
        omega

end Text

namespace Position

/-- Reading from the start counts the line feeds, and the characters since the last one. -/
theorem advanceText_start (text : Text) :
    start.advanceText text =
      ⟨1 + text.bytes.count 10, 1 + (text.rtakeWhile (· != '\n')).length, text.utf8Size⟩ := by
  induction text using List.reverseRecOn with
  | nil => rfl
  | append_singleton text c ih =>
      rw [advanceText_append, ih, Text.count_bytes_concat, List.rtakeWhile_concat,
        Text.utf8Size_append]
      show Position.advance _ c = _
      unfold advance
      by_cases hc : c = '\n'
      · subst hc
        rfl
      · have hne : (c != '\n') = true := bne_iff_ne.mpr hc
        rw [if_neg hc, if_neg hc, if_pos hne, List.length_append]
        rfl

/-- In a line of characters of one byte the column moves on as the offset does. -/
theorem advanceText_replicate {c : Char} (hc : c.utf8Size = 1) (hne : c ≠ '\n') (p : Position)
    (n : Nat) : p.advanceText (List.replicate n c) = ⟨p.line, p.column + n, p.offset + n⟩ := by
  induction n generalizing p with
  | zero => rfl
  | succ n ih =>
      rw [List.replicate_succ, advanceText_cons, ih, advance, if_neg hne, hc, Nat.add_assoc,
        Nat.add_assoc, Nat.add_comm 1 n]

/-- `p.Before q` says that `p` is in an earlier line than `q`, or further to the left in the same
one. -/
def Before (p q : Position) : Prop :=
  p.line < q.line ∨ p.line = q.line ∧ p.column < q.column

theorem Before.trans {p q r : Position} (hpq : p.Before q) (hqr : q.Before r) : p.Before r := by
  unfold Before at *
  omega

theorem Before.asymm {p q : Position} (h : p.Before q) : ¬q.Before p := by
  unfold Before at *
  omega

theorem not_before_self (p : Position) : ¬p.Before p := fun h ↦ h.asymm h

theorem before_advance (p : Position) (c : Char) : p.Before (p.advance c) := by
  unfold advance
  split
  · exact .inl (Nat.lt_succ_self _)
  · exact .inr ⟨rfl, Nat.lt_succ_self _⟩

/-- Reading on moves a position forward. -/
theorem before_advanceText {text : Text} (p : Position) (hne : text ≠ []) :
    p.Before (p.advanceText text) := by
  induction text generalizing p with
  | nil => exact absurd rfl hne
  | cons c text ih =>
      cases text with
      | nil => exact p.before_advance c
      | cons d text =>
          exact (p.before_advance c).trans (ih (p.advance c) (List.cons_ne_nil d text))

end Position

namespace Source

variable {s : Source} {i j : Nat}

/-- The boundary of characters that a position is looked up at is the last one up to the
offset. -/
theorem isGreatest_boundary {before behind : Text} {k : Nat} (htext : s.text = before ++ behind)
    (hk : k = 0 ∨ ∃ c, behind.head? = some c ∧ k < c.utf8Size) :
    IsGreatest {o | s.IsBoundary o ∧ o ≤ before.utf8Size + k} before.utf8Size := by
  refine ⟨⟨⟨before, behind, htext, rfl⟩, Nat.le_add_right _ _⟩, fun o ⟨hboundary, hle⟩ ↦ ?_⟩
  rcases hk with rfl | ⟨c, hc, hlt⟩
  · exact hle
  · obtain ⟨rest, rfl⟩ := List.head?_eq_some_iff.mp hc
    obtain ⟨first, second, hsplit, rfl⟩ := hboundary
    -- An offset behind the start of the character would be inside of it.
    refine Nat.le_of_not_lt fun hbehind ↦ ?_
    obtain ⟨n, hn⟩ := Nat.exists_eq_add_of_lt hbehind
    have hoffset : before.utf8Size + (n + 1) = first.utf8Size := hn.symm
    have hinside := Text.isBoundary_inside before c rest (Nat.succ_pos n) (by omega)
    rw [← htext, hsplit, Nat.succ_eq_add_one, hoffset, Text.isBoundary_append] at hinside
    cases hinside

/-- Of two boundaries of characters the one with the smaller offset is in an earlier line, or
further to the left. -/
theorem position_before_iff (hi : s.IsBoundary i) (hj : s.IsBoundary j) :
    (s.position i).Before (s.position j) ↔ i < j := by
  have hforward {i j : Nat} (hi : s.IsBoundary i) (hj : s.IsBoundary j) (hlt : i < j) :
      (s.position i).Before (s.position j) := by
    obtain ⟨first, second, htext, rfl⟩ := hi
    obtain ⟨longer, rest, hsplit, rfl⟩ := hj
    rw [position_utf8Size htext, position_utf8Size hsplit]
    rcases List.append_eq_append_iff.mp (htext.symm.trans hsplit) with ⟨inner, rfl, -⟩ |
      ⟨inner, rfl, -⟩
    · rw [Position.advanceText_append]
      refine Position.before_advanceText _ fun hnil ↦ ?_
      rw [hnil, List.append_nil] at hlt
      exact Nat.lt_irrefl _ hlt
    · rw [Text.utf8Size_append] at hlt
      omega
  refine ⟨fun h ↦ ?_, hforward hi hj⟩
  rcases Nat.lt_trichotomy i j with hlt | rfl | hlt
  · exact hlt
  · exact absurd h (Position.not_before_self _)
  · exact absurd h (hforward hj hi hlt).asymm

/-- The position at an offset is that of the last boundary of characters up to the offset and the
end. Its line is one more than the line feeds before the boundary, and its column one more than
the characters since the last of them. -/
theorem exists_count (s : Source) (offset : Nat) :
    ∃ before behind, s.text = before ++ behind ∧
      IsGreatest {o | s.IsBoundary o ∧ o ≤ min offset s.size} before.utf8Size ∧
      s.position offset =
        ⟨1 + before.bytes.count 10, 1 + (before.rtakeWhile (· != '\n')).length,
          before.utf8Size⟩ := by
  obtain ⟨before, behind, k, htext, hoffset, hk, hposition⟩ := s.exists_position offset
  refine ⟨before, behind, htext, ?_, by rw [hposition, Position.advanceText_start]⟩
  rw [hoffset]
  exact isGreatest_boundary htext hk

/-- No line and no column is more than one behind the length of the text. -/
theorem position_le (s : Source) (offset : Nat) :
    (s.position offset).line ≤ s.size + 1 ∧ (s.position offset).column ≤ s.size + 1 := by
  obtain ⟨before, behind, htext, -, hposition⟩ := s.exists_count offset
  have hbefore : before.utf8Size ≤ s.size := by
    rw [size, htext, Text.utf8Size_append]
    exact Nat.le_add_right _ _
  have hsum := Text.count_add_length_le before
  rw [hposition]
  exact ⟨by dsimp only; omega, by dsimp only; omega⟩

end Source

/-! ## Places in numbers of 32 bits -/

/-- A line, a column and a byte offset, each a number of 32 bits. -/
structure Place where
  line : UInt32
  column : UInt32
  offset : UInt32
  deriving Repr, DecidableEq

/-- `p.narrow` is a position in numbers of 32 bits. -/
def Position.narrow (p : Position) : Place :=
  ⟨.ofNat p.line, .ofNat p.column, .ofNat p.offset⟩

/-- `p.Before q` says that `p` is in an earlier line than `q`, or further to the left in the same
one. -/
def Place.Before (p q : Place) : Prop :=
  p.line < q.line ∨ p.line = q.line ∧ p.column < q.column

instance (p q : Place) : Decidable (p.Before q) :=
  inferInstanceAs (Decidable (_ ∨ _ ∧ _))

namespace Source

/-- `s.place? offset` looks up the place of the last character boundary at or before a byte offset
and the end of the text, in a table of lines with numbers of 32 bits. It is `none` if an index or
a range that it uses is not in the text or the table. -/
def place? (s : Source) (offset : UInt32) : Option Place := do
  let offset ← s.text.snapBack (s.size + 1) (min offset.toNat s.size)
  let table := s.text.lineStarts.map UInt32.ofNat
  let line := (table.takeWhile (·.toNat ≤ offset)).length
  let lineStart ← table[← difference? line 1]?
  let before ← s.text.slice? lineStart.toNat offset
  return ⟨.ofNat line, .ofNat (before.length + 1), .ofNat offset⟩

/-- Of a text with less than `2 ^ 32` bytes the table finds what reading finds. -/
theorem place?_eq {s : Source} (h : s.size < UInt32.size) (offset : UInt32) :
    s.place? offset = some (s.position offset.toNat).narrow := by
  have hentry : ∀ n ∈ s.text.lineStarts, (UInt32.ofNat n).toNat = n :=
    fun n hn ↦ Text.toNat_of_mem_lineStarts h hn
  have hline (starts : List Nat) (hstarts : ∀ n ∈ starts, (UInt32.ofNat n).toNat = n) (o : Nat) :
      ((starts.map UInt32.ofNat).takeWhile (·.toNat ≤ o)).length =
        (starts.takeWhile (· ≤ o)).length := by
    induction starts with
    | nil => rfl
    | cons n starts ih =>
        have hn := hstarts n List.mem_cons_self
        have ih := ih fun m hm ↦ hstarts m (List.mem_cons_of_mem n hm)
        simp only [List.map_cons, List.takeWhile_cons, hn]
        split
        · rw [List.length_cons, List.length_cons, ih]
        · rfl
  have hlookup : s.place? offset = (s.position? offset.toNat).map Position.narrow := by
    unfold place? position?
    cases s.text.snapBack (s.size + 1) (min offset.toNat s.size) with
    | none => rfl
    | some o =>
        simp only [Option.bind_eq_bind, Option.bind_some, hline _ hentry, List.getElem?_map]
        cases difference? (s.text.lineStarts.takeWhile (· ≤ o)).length 1 with
        | none => rfl
        | some i =>
            simp only [Option.bind_some]
            cases hstart : s.text.lineStarts[i]? with
            | none => rfl
            | some n =>
                simp only [Option.map_some, Option.bind_some,
                  hentry n (List.mem_of_getElem? hstart)]
                cases s.text.slice? n o <;> rfl
  rw [hlookup, position?_eq, Option.map_some]

/-- `s.Counts offset p` says that `p` is at the last boundary of characters up to an offset and
the end, and that counting from the start of the text leads to its line and column. -/
def Counts (s : Source) (offset : UInt32) (p : Place) : Prop :=
  ∃ before behind, s.text = before ++ behind ∧
    IsGreatest {o | s.IsBoundary o ∧ o ≤ min offset.toNat s.size} before.utf8Size ∧
    p.line.toNat = 1 + before.bytes.count 10 ∧
    p.column.toNat = 1 + (before.rtakeWhile (· != '\n')).length ∧
    p.offset.toNat = before.utf8Size

variable {s : Source}

/-- In a text with less than `2 ^ 32 - 1` bytes every line and every column fits. -/
theorem toNat_narrow_position (h : s.size + 1 < UInt32.size) (offset : Nat) :
    (s.position offset).narrow.line.toNat = (s.position offset).line ∧
      (s.position offset).narrow.column.toNat = (s.position offset).column := by
  obtain ⟨hline, hcolumn⟩ := s.position_le offset
  exact ⟨UInt32.toNat_ofNat_of_lt' (Nat.lt_of_le_of_lt hline h),
    UInt32.toNat_ofNat_of_lt' (Nat.lt_of_le_of_lt hcolumn h)⟩

theorem narrow_before_narrow_iff (h : s.size + 1 < UInt32.size) (i j : Nat) :
    (s.position i).narrow.Before (s.position j).narrow ↔
      (s.position i).Before (s.position j) := by
  obtain ⟨hline, hcolumn⟩ := toNat_narrow_position h i
  obtain ⟨hline', hcolumn'⟩ := toNat_narrow_position h j
  rw [Place.Before, Position.Before, UInt32.lt_iff_toNat_lt, UInt32.lt_iff_toNat_lt,
    ← UInt32.toNat_inj, hline, hcolumn, hline', hcolumn']

/-- In a text with less than `2 ^ 32 - 1` bytes a look-up never fails, and finds what counting
finds. The line is found by halving, too. Places order the boundaries of characters as offsets
do. -/
theorem place_counts (h : s.size + 1 < UInt32.size) :
    (∀ offset, ∃ place, s.place? offset = some place ∧ s.Counts offset place ∧
      bisect (· ≤ place.offset) (s.text.lineStarts.map UInt32.ofNat) 0 s.text.lineStarts.length =
        some place.line.toNat) ∧
    ∀ i j : UInt32, s.IsBoundary i.toNat → s.IsBoundary j.toNat →
      ∃ p q, s.place? i = some p ∧ s.place? j = some q ∧ (p.Before q ↔ i < j) := by
  have hsize : s.size < UInt32.size := Nat.lt_of_succ_lt h
  refine ⟨fun offset ↦ ⟨_, place?_eq hsize offset, ?_⟩, fun i j hi hj ↦
    ⟨_, _, place?_eq hsize i, place?_eq hsize j, ?_⟩⟩
  · obtain ⟨hline, hcolumn⟩ := toNat_narrow_position h offset.toNat
    obtain ⟨before, behind, htext, hgreatest, hposition⟩ := s.exists_count offset.toNat
    have hbefore : before.utf8Size < UInt32.size := by
      refine Nat.lt_of_le_of_lt ?_ hsize
      rw [size, htext, Text.utf8Size_append]
      exact Nat.le_add_right _ _
    have hoffset : (s.position offset.toNat).narrow.offset.toNat = before.utf8Size := by
      rw [hposition]
      exact UInt32.toNat_ofNat_of_lt' hbefore
    refine ⟨⟨before, behind, htext, hgreatest, ?_, ?_, hoffset⟩, ?_⟩
    · rw [hline, hposition]
    · rw [hcolumn, hposition]
    · simp only [UInt32.le_iff_toNat_le, hoffset, hline]
      rw [Text.bisect_lineStarts htext hsize, hposition]
  · rw [narrow_before_narrow_iff h, position_before_iff hi hj, UInt32.lt_iff_toNat_lt]

/-- The end of an empty line is before the start of the line below it, and an offset inside a
character is at its start. -/
theorem place_counts_emptyLine :
    let s : Source := { text := "a\n\né".toList }
    s.size + 1 < UInt32.size ∧
      (∃ p q, s.place? 2 = some p ∧ s.place? 3 = some q ∧ p.Before q) ∧
      ∃ place, s.place? 4 = some place ∧ s.Counts 4 place ∧ place = ⟨3, 1, 3⟩ := by
  intro s
  have hsize : s.size + 1 < UInt32.size := by decide
  have htwo : s.IsBoundary 2 := ⟨"a\n".toList, "\né".toList, rfl, rfl⟩
  have hthree : s.IsBoundary 3 := ⟨"a\n\n".toList, "é".toList, rfl, rfl⟩
  obtain ⟨p, q, hp, hq, hbefore⟩ := (place_counts hsize).2 2 3 htwo hthree
  obtain ⟨place, hplace, hcounts, -⟩ := (place_counts hsize).1 4
  have hlookup : s.place? 4 = some ⟨3, 1, 3⟩ := by decide
  exact ⟨hsize, ⟨p, q, hp, hq, hbefore.mpr (by decide)⟩, place, hplace, hcounts,
    Option.some.inj (hplace.symm.trans hlookup)⟩

/-- At the end of a text in one line, of characters of one byte, the column is one more than the
offset. -/
theorem place?_replicate {c : Char} (hc : c.utf8Size = 1) (hne : c ≠ '\n') {n : Nat}
    (hn : n < UInt32.size) :
    place? { text := List.replicate n c } (.ofNat n) = some ⟨1, .ofNat (1 + n), .ofNat n⟩ := by
  have hsize : size { text := List.replicate n c } = n := Text.utf8Size_replicate hc n
  have hend : position { text := List.replicate n c } n =
      Position.start.advanceText (List.replicate n c) := by
    have h := position_utf8Size (s := { text := List.replicate n c }) (List.append_nil _).symm
    rwa [Text.utf8Size_replicate hc n] at h
  rw [place?_eq (by rwa [hsize]), UInt32.toNat_ofNat_of_lt' hn, hend,
    Position.advanceText_replicate hc hne]
  simp only [Position.narrow, Position.start, Nat.zero_add]
  rfl

/-- A text of `2 ^ 32 - 1` characters in one line. The column at its end is `2 ^ 32`, for which
the look-up has zero, so that the end is not behind the start. -/
theorem not_counts_longest :
    let s : Source := { text := List.replicate 4294967295 'a' }
    let last : UInt32 := 4294967295
    s.size < UInt32.size ∧ s.IsBoundary last.toNat ∧
      s.place? 0 = some ⟨1, 1, 0⟩ ∧ s.place? last = some ⟨1, 0, last⟩ ∧
      1 + (s.text.rtakeWhile (· != '\n')).length = 4294967296 ∧ ¬s.Counts last ⟨1, 0, last⟩ ∧
      ¬(Place.Before ⟨1, 1, 0⟩ ⟨1, 0, last⟩ ↔ 0 < last) := by
  intro s last
  have hsize : s.size = 4294967295 := Text.utf8Size_replicate rfl _
  have hlt : s.size < UInt32.size := by rw [hsize]; decide
  have hline : s.text.rtakeWhile (· != '\n') = s.text :=
    List.rtakeWhile_eq_self_iff.mpr fun c hc ↦ (List.eq_of_mem_replicate hc) ▸ rfl
  have hend : s.IsBoundary last.toNat := by
    have h := s.isBoundary_size
    rwa [hsize] at h
  refine ⟨hlt, hend, ?_, ?_, ?_, ?_, by decide⟩
  · rw [place?_eq hlt]
    rfl
  · exact place?_replicate rfl (by decide) (by decide)
  · rw [hline]
    exact congrArg (1 + ·) List.length_replicate
  · rintro ⟨before, behind, -, -, -, hcolumn, -⟩
    exact absurd hcolumn (Nat.ne_of_lt (Nat.add_pos_left Nat.one_pos _))

end Source

end Stylesheet
