import Stylesheet.Proofs.Scanners

/-!
# Escapes from left to right

A quote or a parenthesis is escaped if an odd number of backslashes stands directly before it, and
the search for the end of a construct finds out by looking back from each candidate to the start
of the construct. `Text.seekUnescaped` never looks back: it goes from byte to byte and skips the
one behind each backslash that it meets. What it skips are the bytes behind an odd run of
backslashes (`endsEscaped_cons`), whatever lies between the candidates, so that both find the same
place. `findUnescaped_seeks` says so for each start of a construct, and that the search ends
there.
-/

namespace Stylesheet

namespace Text

/-- `seekUnescaped terminator skips bytes` is the index of the first byte that is `terminator` and
is not skipped. The byte behind a backslash that is not skipped is skipped itself; `skips` says of
the first byte whether it is. -/
def seekUnescaped (terminator : Char) : Bool → List UInt8 → Option Nat
  | _, [] => none
  | true, _ :: bytes => (seekUnescaped terminator false bytes).map (· + 1)
  | false, b :: bytes =>
      if Char.ofUInt8 b = terminator then some 0
      else (seekUnescaped terminator (Char.ofUInt8 b == '\\') bytes).map (· + 1)

variable {terminator c : Char}

/-- A byte outside of ASCII is passed like any other character that means nothing. -/
theorem seekUnescaped_of_le {b : UInt8} (hterminator : terminator.toNat < 128)
    (hb : 128 ≤ b.toNat) (skips : Bool) (bytes : List UInt8) :
    seekUnescaped terminator skips (b :: bytes) =
      (seekUnescaped terminator false bytes).map (· + 1) := by
  have hne {d : Char} (hd : d.toNat < 128) : Char.ofUInt8 b ≠ d := by
    rintro rfl
    exact absurd hd (Nat.not_lt.mpr hb)
  cases skips with
  | true => rfl
  | false =>
      rw [seekUnescaped, if_neg (hne hterminator),
        beq_eq_false_iff_ne.mpr (hne (d := '\\') (by decide))]

/-- A character that has more than one byte is passed with all of them. -/
theorem seekUnescaped_append {piece : List UInt8} (hterminator : terminator.toNat < 128)
    (hne : piece ≠ []) (hpiece : ∀ b ∈ piece, 128 ≤ b.toNat) (skips : Bool) (bytes : List UInt8) :
    seekUnescaped terminator skips (piece ++ bytes) =
      (seekUnescaped terminator false bytes).map (· + piece.length) := by
  induction piece generalizing skips with
  | nil => exact absurd rfl hne
  | cons b piece ih =>
      obtain ⟨hb, hpiece⟩ := List.forall_mem_cons.mp hpiece
      rw [List.cons_append, seekUnescaped_of_le hterminator hb]
      cases piece with
      | nil => rfl
      | cons d piece =>
          rw [ih (List.cons_ne_nil d piece) hpiece, Option.map_map]
          rfl

/-- A character of the ASCII range is the byte that it is encoded with. -/
theorem utf8EncodeChar_of_lt (hc : c.toNat < 128) :
    ∃ b, String.utf8EncodeChar c = [b] ∧ Char.ofUInt8 b = c := by
  obtain ⟨b, hb⟩ :=
    List.length_eq_one_iff.mp ((String.length_utf8EncodeChar c).trans (utf8Size_of_lt hc))
  have hbyte := toNat_of_mem_utf8EncodeChar (hb ▸ List.mem_singleton_self b)
  rw [if_pos hc] at hbyte
  exact ⟨b, hb, Char.toNat_inj.mp hbyte⟩

end Text

namespace Scan

/-- A character is behind an odd run of backslashes exactly if a backslash is before it that is
not. -/
theorem endsEscaped_cons (c : Char) (seen : Text) :
    endsEscaped (c :: seen) = (c == '\\' && !endsEscaped seen) := by
  rw [endsEscaped, endsEscaped, List.takeWhile_cons]
  cases c == '\\' with
  | false => rfl
  | true =>
      simp only [if_true, List.length_cons, Bool.true_and]
      rcases Nat.mod_two_eq_zero_or_one (seen.takeWhile (· == '\\')).length with heven | hodd <;>
        simp [Nat.add_mod, *]

/-- The search that looks back from each candidate stops where a scan does that skips what is
escaped. `seen` is the reverse of what has been passed. -/
theorem findUnescapedFrom_eq_seek {terminator : Char} (hterminator : terminator.toNat < 128)
    (seen text : Text) :
    (findUnescapedFrom seen terminator text).map
      (fun n ↦ Text.utf8Size (text.take (n - seen.length))) =
      Text.seekUnescaped terminator (endsEscaped seen) (Text.bytes text) := by
  induction text generalizing seen with
  | nil => cases endsEscaped seen <;> rfl
  | cons c text ih =>
      -- Behind `c` the place of a terminator is counted from the next character.
      have hnext : (findUnescapedFrom (c :: seen) terminator text).map
            (fun n ↦ Text.utf8Size ((c :: text).take (n - seen.length))) =
          (Text.seekUnescaped terminator (endsEscaped (c :: seen)) (Text.bytes text)).map
          (· + c.utf8Size) := by
        rw [← ih (c :: seen), Option.map_map]
        cases hfound : findUnescapedFrom (c :: seen) terminator text with
        | none => rfl
        | some n =>
            obtain ⟨inner, more, -, rfl⟩ := Cursor.exists_findUnescapedFrom hfound
            have htake : (c :: seen).length + inner.length - seen.length = inner.length + 1 := by
              rw [List.length_cons]
              omega
            simp only [Option.map_some, Function.comp_apply, htake, Nat.add_sub_cancel_left]
            rw [List.take_succ_cons, Text.utf8Size_cons, Nat.add_comm]
      rw [findUnescapedFrom, Text.bytes_cons]
      by_cases hc : c.toNat < 128
      · obtain ⟨b, hb, hbyte⟩ := Text.utf8EncodeChar_of_lt hc
        rw [endsEscaped_cons, Text.utf8Size_of_lt hc] at hnext
        rw [hb, List.singleton_append]
        cases hescaped : endsEscaped seen with
        | true =>
            rw [hescaped, Bool.not_true, Bool.and_false] at hnext
            rw [if_neg (by simp), Text.seekUnescaped, hnext]
        | false =>
            rw [hescaped, Bool.not_false, Bool.and_true] at hnext
            rw [Text.seekUnescaped, hbyte]
            by_cases hfound : c = terminator
            · rw [if_pos ⟨hfound, rfl⟩, if_pos hfound, Option.map_some, Nat.sub_self]
              rfl
            · rw [if_neg (fun h ↦ hfound h.1), if_neg hfound, hnext]
      · have hle : ∀ b ∈ String.utf8EncodeChar c, 128 ≤ b.toNat := fun b hb ↦ by
          have hbyte := Text.toNat_of_mem_utf8EncodeChar hb
          rwa [if_neg hc] at hbyte
        have hnil : String.utf8EncodeChar c ≠ [] := fun hnil ↦ by
          have hlength := String.length_utf8EncodeChar c
          rw [hnil] at hlength
          exact absurd hlength c.utf8Size_pos.ne
        have hne {d : Char} (hd : d.toNat < 128) : c ≠ d := fun heq ↦ hc (heq ▸ hd)
        rw [endsEscaped_cons, beq_eq_false_iff_ne.mpr (hne (d := '\\') (by decide)),
          Bool.false_and] at hnext
        rw [if_neg (fun h ↦ hne hterminator h.1), Text.seekUnescaped_append hterminator hnil hle,
          String.length_utf8EncodeChar, hnext]

end Scan

namespace Cursor

/-- From each place between two characters the search for an ASCII terminator ends. It finds the
terminator that a scan from there comes to first if the scan skips the byte behind each backslash
that it does not skip, and so does the search of a lexer that has the rest of the text. -/
theorem findUnescaped_seeks (cur : Cursor) {start : Nat} {terminator : Char}
    (hstart : cur.text.isBoundary start = true) (hterminator : terminator.toNat < 128) :
    let found := Text.seekUnescaped terminator false (cur.text.bytes.drop start)
    cur.findUnescaped terminator start cur.bound start = some (found.map (start + ·)) ∧
      ∃ rest, cur.text.slice? start cur.text.utf8Size = some rest ∧
        (Scan.findUnescaped terminator rest).map (fun n ↦ Text.utf8Size (rest.take n)) =
          found := by
  obtain ⟨⟨before, rest⟩, hcut⟩ := Option.isSome_iff_exists.mp hstart
  obtain ⟨htext, rfl⟩ := Text.cut?_eq_some_iff.mp hcut
  have hbytes : cur.text.bytes.drop before.utf8Size = Text.bytes rest := by
    rw [htext, Text.bytes_append, ← Text.length_bytes, List.drop_left]
  have hseek : (Scan.findUnescaped terminator rest).map (fun n ↦ Text.utf8Size (rest.take n)) =
      Text.seekUnescaped terminator false (Text.bytes rest) :=
    Scan.findUnescapedFrom_eq_seek hterminator [] rest
  have hsteps : rest.length < cur.bound :=
    Nat.lt_of_le_of_lt (Text.length_le_utf8Size rest) (lt_bound htext)
  have hfound :=
    findUnescaped_eq hterminator (show cur.text = before ++ ([] ++ rest) from htext) hsteps
  rw [List.append_nil, List.nil_append] at hfound
  dsimp only
  rw [hbytes, ← hseek]
  refine ⟨?_, rest, htext ▸ Text.slice?_utf8Size before rest, rfl⟩
  rw [hfound, Option.map_map]
  rfl

/-- A backslash in front of the start escapes nothing, and two behind it belong to each other. -/
theorem findUnescaped_seeks_quote :
    let cur : Cursor := ⟨.stock, .fail, "\\\"\\\\\"é\\\"".toList, 0, none⟩
    cur.findUnescaped '"' 1 cur.bound 1 = some (some 1) ∧
      cur.findUnescaped '"' 2 cur.bound 2 = some (some 4) ∧
      cur.findUnescaped '"' 5 cur.bound 5 = some none :=
  ⟨(findUnescaped_seeks _ rfl (by decide)).1, (findUnescaped_seeks _ rfl (by decide)).1,
    (findUnescaped_seeks _ rfl (by decide)).1⟩

end Cursor

end Stylesheet
