import Mathlib.Data.List.Induction
import Mathlib.Data.List.TakeWhile
import Stylesheet.Proofs.Places
import Stylesheet.Text.Bytes

/-!
# Positions by a table of lines

`Source.position?` looks a position up without reading the text from its start: it goes back to
the start of a character, finds the line in a table of the byte offsets where lines start, and
counts the characters from there. It is `none` if an index or a range that it uses is not in the
text or the table. `position?_eq` says that it is the position that reading computes.
-/

namespace Stylesheet

namespace Text

/-- `snapBack text steps i` is the last byte offset not behind `i` where a character starts or
ends. -/
def snapBack (text : Text) : Nat → Nat → Option Nat
  | 0, _ => none
  | steps + 1, i =>
      if text.isBoundary i then some i
      else do snapBack text steps (← difference? i 1)

/-- `lineEnds i bytes` lists the offsets behind the line feeds of a run of bytes that starts at
`i`. -/
def lineEnds : Nat → List UInt8 → List Nat
  | _, [] => []
  | i, b :: bytes => if b = 10 then (i + 1) :: lineEnds (i + 1) bytes else lineEnds (i + 1) bytes

/-- `lineStarts text` lists the byte offsets where the lines of a text start. -/
def lineStarts (text : Text) : List Nat :=
  0 :: lineEnds 0 text.bytes

end Text

namespace Source

/-- `s.position? offset` looks up the position of the last character boundary at or before a byte
offset and the end of the text. -/
def position? (s : Source) (offset : Nat) : Option Position := do
  let offset ← s.text.snapBack (s.size + 1) (min offset s.size)
  let line := (s.text.lineStarts.takeWhile (· ≤ offset)).length
  let lineStart ← s.text.lineStarts[← difference? line 1]?
  let before ← s.text.slice? lineStart offset
  return ⟨line, before.length + 1, offset⟩

/-- `s.endPosition? stop` looks up the position of the character before a byte offset, with `stop`
itself as its offset. -/
def endPosition? (s : Source) (stop : Nat) : Option Position := do
  return { ← s.position? (stop - 1) with offset := stop }

end Source

/-! ## The table of lines -/

namespace Text

theorem lineEnds_append (i : Nat) (first second : List UInt8) :
    lineEnds i (first ++ second) = lineEnds i first ++ lineEnds (i + first.length) second := by
  induction first generalizing i with
  | nil => rfl
  | cons b first ih =>
      simp only [List.cons_append, lineEnds, ih, List.length_cons, Nat.add_assoc, Nat.add_comm 1]
      split <;> rfl

/-- Lines start behind what has been read before. -/
theorem lt_of_mem_lineEnds {i n : Nat} {bytes : List UInt8} (h : n ∈ lineEnds i bytes) :
    i < n := by
  induction bytes generalizing i with
  | nil => cases h
  | cons b bytes ih =>
      simp only [lineEnds] at h
      split at h
      · rcases List.mem_cons.mp h with rfl | h
        · exact Nat.lt_succ_self i
        · exact Nat.lt_of_succ_lt (ih h)
      · exact Nat.lt_of_succ_lt (ih h)

/-- No line starts behind the end. -/
theorem le_of_mem_lineEnds {i n : Nat} {bytes : List UInt8} (h : n ∈ lineEnds i bytes) :
    n ≤ i + bytes.length := by
  induction bytes generalizing i with
  | nil => cases h
  | cons b bytes ih =>
      simp only [lineEnds] at h
      rw [List.length_cons]
      split at h
      · rcases List.mem_cons.mp h with rfl | h
        · omega
        · have := ih h
          omega
      · have := ih h
        omega

/-- A line feed, and no other character, ends a line. -/
theorem lineEnds_utf8EncodeChar (i : Nat) (c : Char) :
    lineEnds i (String.utf8EncodeChar c) = if c = '\n' then [i + 1] else [] := by
  -- The bytes of a character that is not ASCII are all above the line feed.
  have hbyte {b : UInt8} (hb : b ∈ String.utf8EncodeChar c) (hten : b = 10) : c = '\n' := by
    have h := toNat_of_mem_utf8EncodeChar hb
    subst hten
    split at h
    · exact Char.toNat_inj.mp h.symm
    · exact absurd h (by decide)
  split
  · next h =>
      subst h
      rfl
  · next h =>
      have hnone (bytes : List UInt8) (hb : ∀ b ∈ bytes, b ≠ 10) (i : Nat) :
          lineEnds i bytes = [] := by
        induction bytes generalizing i with
        | nil => rfl
        | cons b bytes ih =>
            rw [lineEnds, if_neg (hb b List.mem_cons_self)]
            exact ih (fun c hc ↦ hb c (List.mem_cons_of_mem b hc)) (i + 1)
      exact hnone _ (fun b hb hten ↦ h (hbyte hb hten)) i

theorem lineStarts_append (first second : Text) :
    lineStarts (first ++ second) = lineStarts first ++ lineEnds first.utf8Size second.bytes := by
  rw [lineStarts, bytes_append, lineEnds_append, Nat.zero_add, length_bytes]
  rfl

/-- No line of a text starts behind its end. -/
theorem le_of_mem_lineStarts {n : Nat} {text : Text} (h : n ∈ lineStarts text) :
    n ≤ text.utf8Size := by
  rcases List.mem_cons.mp h with rfl | h
  · exact Nat.zero_le _
  · have h := le_of_mem_lineEnds h
    rwa [Nat.zero_add, length_bytes] at h

/-- Those lines have started before an offset of which the text before it tells. -/
theorem takeWhile_lineStarts (first second : Text) :
    (lineStarts (first ++ second)).takeWhile (· ≤ first.utf8Size) = lineStarts first := by
  have hle : ∀ n ∈ lineStarts first, decide (n ≤ first.utf8Size) = true :=
    fun n hn ↦ decide_eq_true (le_of_mem_lineStarts hn)
  have hlt : (lineEnds first.utf8Size second.bytes).takeWhile (· ≤ first.utf8Size) = [] := by
    cases hends : lineEnds first.utf8Size second.bytes with
    | nil => rfl
    | cons n ends =>
        have h := lt_of_mem_lineEnds (hends ▸ List.mem_cons_self)
        exact List.takeWhile_cons_of_neg (by simpa using h)
  rw [lineStarts_append, List.takeWhile_append_of_pos hle, hlt, List.append_nil]

end Text

/-- Reading keeps count of the lines, and of the characters since the last one has started. -/
theorem Position.exists_lastLine (text : Text) : ∃ lines last : Text, text = lines ++ last ∧
    (Text.lineStarts text).getLast? = some lines.utf8Size ∧
      Position.start.advanceText text =
        ⟨(Text.lineStarts text).length, last.length + 1, text.utf8Size⟩ := by
  -- From the end, as a character is counted behind those before it.
  induction text using List.reverseRecOn with
  | nil => exact ⟨[], [], rfl, rfl, rfl⟩
  | append_singleton text c ih =>
      obtain ⟨lines, last, htext, hlast, hposition⟩ := ih
      have hends : Text.lineStarts (text ++ [c]) =
          Text.lineStarts text ++ if c = '\n' then [Text.utf8Size text + 1] else [] := by
        rw [Text.lineStarts_append, ← Text.lineEnds_utf8EncodeChar, Text.bytes_cons]
        exact congrArg _ (congrArg _ (List.append_nil _))
      rw [hends, Position.advanceText_append, hposition]
      by_cases hc : c = '\n'
      · subst hc
        refine ⟨text ++ ['\n'], [], (List.append_nil _).symm, ?_, ?_⟩
        · rw [if_pos rfl, List.getLast?_concat, Text.utf8Size_append]
          rfl
        · rw [if_pos rfl, List.length_append, Text.utf8Size_append]
          rfl
      · refine ⟨lines, last ++ [c], by rw [htext, List.append_assoc], ?_, ?_⟩
        · rw [if_neg hc, List.append_nil, hlast]
        · rw [if_neg hc, List.append_nil, Text.utf8Size_append, List.length_append]
          show Position.advance _ c = _
          rw [Position.advance, if_neg hc]
          rfl

/-! ## Going back to the start of a character -/

namespace Text

/-- Between the first and the last byte of a character is no boundary. -/
theorem isBoundary_inside (before : Text) (c : Char) (behind : Text) {k : Nat} (hpos : 0 < k)
    (hk : k < c.utf8Size) : isBoundary (before ++ c :: behind) (before.utf8Size + k) = false := by
  cases hcut : cut? (before.utf8Size + k) (before ++ c :: behind) with
  | none => rw [isBoundary, hcut, Option.isSome_none]
  | some cut =>
      obtain ⟨htext, hsize⟩ := cut?_eq_some_iff.mp hcut
      -- The cut would end behind the start of the character, and before its end.
      exfalso
      rcases List.append_eq_append_iff.mp htext with ⟨inner, hinner, hbehind⟩ | ⟨inner, hinner, -⟩
      · rw [hinner, utf8Size_append] at hsize
        cases inner with
        | nil =>
            rw [utf8Size_nil] at hsize
            omega
        | cons d inner =>
            obtain ⟨rfl, -⟩ := List.cons.inj hbehind
            rw [utf8Size_cons] at hsize
            omega
      · rw [hinner, utf8Size_append] at hsize
        omega

/-- From within a character the way back leads to its start. -/
theorem snapBack_add (before behind : Text) {k steps : Nat} (hsteps : k < steps)
    (hk : k = 0 ∨ ∃ c, behind.head? = some c ∧ k < c.utf8Size) :
    snapBack (before ++ behind) steps (before.utf8Size + k) = some before.utf8Size := by
  induction k generalizing steps with
  | zero =>
      obtain ⟨steps, rfl⟩ := Nat.exists_eq_add_of_lt hsteps
      rw [Nat.zero_add, snapBack, Nat.add_zero, isBoundary_append, if_pos rfl]
  | succ k ih =>
      obtain ⟨steps, rfl⟩ := Nat.exists_eq_add_of_lt (Nat.lt_of_le_of_lt (Nat.zero_le _) hsteps)
      obtain ⟨c, hc, hlt⟩ := hk.resolve_left (Nat.succ_ne_zero k)
      obtain ⟨rest, rfl⟩ := List.head?_eq_some_iff.mp hc
      rw [Nat.zero_add, snapBack, isBoundary_inside before c rest (Nat.succ_pos k) hlt,
        if_neg Bool.false_ne_true, ← Nat.add_assoc, difference?_add]
      exact ih (by omega) (.inr ⟨c, rfl, by omega⟩)

/-- Every offset within a text is in a character or at a boundary. -/
theorem exists_boundary {text : Text} {offset : Nat} (h : offset ≤ text.utf8Size) :
    ∃ (before behind : Text) (k : Nat), text = before ++ behind ∧ offset = before.utf8Size + k ∧
      (k = 0 ∨ ∃ c, behind.head? = some c ∧ k < c.utf8Size) := by
  rcases Nat.lt_or_eq_of_le h with h | rfl
  · obtain ⟨before, c, behind, k, htext, hk, hoffset⟩ := exists_char h
    exact ⟨before, c :: behind, k, htext, hoffset, .inr ⟨c, rfl, hk⟩⟩
  · exact ⟨text, [], 0, (List.append_nil text).symm, rfl, .inl rfl⟩

end Text

/-! ## Looking positions up -/

namespace Source

/-- The offset that is looked up is brought into the text. -/
theorem position_min (s : Source) (offset : Nat) :
    s.position (min offset s.size) = s.position offset := by
  rcases Nat.le_total offset s.size with h | h
  · rw [Nat.min_eq_left h]
  · have htext : s.text = s.text ++ [] := (List.append_nil _).symm
    rw [Nat.min_eq_right h, position_of_le htext h nofun]
    exact position_utf8Size htext

/-- The position at an offset is reached by reading up to the character that the offset is in. -/
theorem exists_position (s : Source) (offset : Nat) :
    ∃ (before behind : Text) (k : Nat), s.text = before ++ behind ∧
      min offset s.size = before.utf8Size + k ∧
      (k = 0 ∨ ∃ c, behind.head? = some c ∧ k < c.utf8Size) ∧
      s.position offset = Position.start.advanceText before := by
  have hle : min offset s.size ≤ s.text.utf8Size := Nat.min_le_right _ _
  obtain ⟨before, behind, k, htext, hoffset, hk⟩ := Text.exists_boundary hle
  refine ⟨before, behind, k, htext, hoffset, hk, ?_⟩
  rw [← position_min, hoffset]
  refine position_of_le htext (Nat.le_add_right _ _) fun c hc ↦ ?_
  rcases hk with rfl | ⟨d, hd, hlt⟩
  · exact Nat.add_lt_add_left c.utf8Size_pos _
  · obtain rfl := Option.some.inj (hc.symm.trans hd)
    exact Nat.add_lt_add_left hlt _

/-- Every index and every range that a look-up uses is in range, and it finds the position. -/
@[simp] theorem position?_eq (s : Source) (offset : Nat) :
    s.position? offset = some (s.position offset) := by
  -- `before` is the text up to the start of the character at the offset, and `last` its last
  -- line.
  obtain ⟨before, behind, k, htext, hoffset, hk, hposition⟩ := s.exists_position offset
  have hsnap : s.text.snapBack (s.size + 1) (min offset s.size) = some before.utf8Size := by
    rw [htext, hoffset]
    refine Text.snapBack_add before behind ?_ hk
    have : before.utf8Size + k ≤ s.size := hoffset ▸ Nat.min_le_right _ _
    omega
  obtain ⟨lines, last, hbefore, hlast, hadvance⟩ := Position.exists_lastLine before
  have hline : s.text.lineStarts.takeWhile (· ≤ before.utf8Size) = before.lineStarts := by
    rw [htext, Text.takeWhile_lineStarts]
  have hindex : difference? before.lineStarts.length 1 = some (before.lineStarts.length - 1) :=
    difference?_of_le (Nat.succ_pos _)
  have hstart : s.text.lineStarts[before.lineStarts.length - 1]? = some lines.utf8Size := by
    rw [htext, Text.lineStarts_append, List.getElem?_append_left (by simp [Text.lineStarts]),
      ← List.getLast?_eq_getElem?, hlast]
  have hslice : s.text.slice? lines.utf8Size before.utf8Size = some last := by
    rw [htext, hbefore, List.append_assoc]
    exact Text.slice?_append lines last behind
  rw [position?, hsnap]
  simp only [Option.bind_eq_bind, Option.bind_some, hline, hindex, hstart, hslice,
    hposition, hadvance]
  rfl

@[simp] theorem endPosition?_eq (s : Source) (stop : Nat) :
    s.endPosition? stop = some (s.endPosition stop) := by
  rw [endPosition?, position?_eq]
  rfl

end Source

end Stylesheet
