import Stylesheet.Text.Slice

/-!
# Bytes of a text

`Text.byte?` looks up one byte of the UTF-8 encoding of a text and `Text.find?` searches for a
piece. Both count in bytes. `exists_byte` says what a byte tells of the character that it is a
part of: which one it is if that is an ASCII character, and else only that it is none.

`firstStop` is a loop that counts an index up. It is `none` if the index leaves its range or the
steps do not suffice, and `firstStop_text` says that a loop over the bytes of a text stops behind
a piece of it if it passes all the bytes of the piece.
-/

namespace Stylesheet

namespace Text

/-- `bytes text` is the UTF-8 encoding of `text`. -/
def bytes (text : Text) : List UInt8 :=
  text.flatMap String.utf8EncodeChar

/-- `byte? text i` is the byte at an index, as the character with this code point, or `none`
behind the last byte. -/
def byte? (text : Text) (i : Nat) : Option Char :=
  (bytes text)[i]?.map Char.ofUInt8

/-- `isBoundary text i` says that a character starts or ends at a byte offset. -/
def isBoundary (text : Text) (i : Nat) : Bool :=
  (cut? i text).isSome

/-- `find? pattern text` is the byte offset of the first place where `text` goes on with
`pattern`. -/
def find? (pattern : Text) : Text → Option Nat
  | [] => if pattern.isEmpty then some 0 else none
  | c :: text =>
      if pattern.isPrefixOf (c :: text) then some 0
      else (find? pattern text).map (c.utf8Size + ·)

@[simp] theorem bytes_append (first second : Text) :
    bytes (first ++ second) = bytes first ++ bytes second :=
  List.flatMap_append

@[simp] theorem bytes_cons (c : Char) (text : Text) :
    bytes (c :: text) = String.utf8EncodeChar c ++ bytes text := rfl

@[simp] theorem length_bytes (text : Text) : (bytes text).length = text.utf8Size := by
  induction text with
  | nil => rfl
  | cons c text ih =>
      rw [bytes_cons, List.length_append, String.length_utf8EncodeChar, ih, utf8Size_cons]

/-- A character of the ASCII range is one byte, and all bytes of any other one are outside the
range. -/
theorem toNat_of_mem_utf8EncodeChar {c : Char} {b : UInt8} (h : b ∈ String.utf8EncodeChar c) :
    if c.toNat < 128 then b.toNat = c.toNat else 128 ≤ b.toNat := by
  have hval : c.val.toNat = c.toNat := rfl
  unfold String.utf8EncodeChar at h
  simp only [hval] at h
  split at h
  · next hle =>
      rw [if_pos (by omega)]
      obtain rfl := List.mem_singleton.mp h
      rw [UInt8.toNat_ofNat']
      omega
  · next hlt =>
      rw [if_neg (by omega)]
      have hbyte {n : Nat} (hlow : 128 ≤ n) (hhigh : n < 256) : 128 ≤ (UInt8.ofNat n).toNat := by
        rw [UInt8.toNat_ofNat']
        omega
      split at h <;> try split at h
      all_goals
        simp only [List.mem_cons, List.not_mem_nil, or_false] at h
        rcases h with rfl | rfl | rfl | rfl <;> exact hbyte (by omega) (by omega)

/-- `IsByteOf d c` says that `d` is a byte of `c`, as far as ASCII goes: it is `c`, or neither of
them is an ASCII character. -/
def IsByteOf (d c : Char) : Prop := d = c ∨ 128 ≤ d.toNat ∧ 128 ≤ c.toNat

/-- What a byte tells of the character that it is a part of. -/
theorem exists_byte (before : Text) (c : Char) (behind : Text) {k : Nat} (hk : k < c.utf8Size) :
    ∃ d, byte? (before ++ c :: behind) (before.utf8Size + k) = some d ∧ IsByteOf d c := by
  have hk' : k < (String.utf8EncodeChar c).length := by rwa [String.length_utf8EncodeChar]
  have hbyte := toNat_of_mem_utf8EncodeChar (List.getElem_mem hk')
  refine ⟨Char.ofUInt8 (String.utf8EncodeChar c)[k], ?_, ?_⟩
  · rw [byte?, bytes_append, bytes_cons, List.getElem?_append_right (by simp), length_bytes,
      Nat.add_sub_cancel_left, List.getElem?_append_left hk', List.getElem?_eq_getElem hk']
    rfl
  · split at hbyte
    · exact .inl (Char.toNat_inj.mp hbyte)
    · next h => exact .inr ⟨hbyte, Nat.le_of_not_lt h⟩

/-- A test that only ASCII characters pass does not tell a byte from its character. -/
theorem IsByteOf.test_eq {c d : Char} (h : IsByteOf d c) {p : Char → Bool}
    (hp : ∀ e, p e = true → e.toNat < 128) : p d = p c := by
  rcases h with rfl | ⟨hd, hc⟩
  · rfl
  · have hfalse {e : Char} (he : 128 ≤ e.toNat) : p e = false :=
      eq_false_of_ne_true fun h ↦ absurd (hp e h) (Nat.not_lt.mpr he)
    rw [hfalse hd, hfalse hc]

/-- A character of the ASCII range has one byte. -/
theorem utf8Size_of_lt {c : Char} (h : c.toNat < 128) : c.utf8Size = 1 :=
  Char.utf8Size_eq_one_iff.mpr (UInt32.le_iff_toNat_le.mpr (Nat.le_of_lt_succ h))

theorem byte?_utf8Size (text : Text) : byte? text text.utf8Size = none := by
  rw [byte?, List.getElem?_eq_none (Nat.le_of_eq (length_bytes text))]
  rfl

@[simp] theorem isBoundary_append (before behind : Text) :
    isBoundary (before ++ behind) before.utf8Size = true := by
  rw [isBoundary, cut?_append]
  rfl

/-! ## Searching -/

theorem find?_cons_of_ne {c d : Char} (text : Text) (h : d ≠ c) :
    find? [c] (d :: text) = (find? [c] text).map (d.utf8Size + ·) := by
  rw [find?, List.isPrefixOf, beq_eq_false_iff_ne.mpr (Ne.symm h), Bool.false_and, if_neg nofun]

/-- A character is found behind all those that are another one. -/
theorem find?_append {c : Char} {skip : Text} (hskip : c ∉ skip) (rest : Text) :
    find? [c] (skip ++ c :: rest) = some skip.utf8Size := by
  induction skip with
  | nil => simp [find?]
  | cons d skip ih =>
      obtain ⟨hne, hskip⟩ := not_or.mp (mt List.mem_cons.mpr hskip)
      rw [List.cons_append, find?_cons_of_ne _ (Ne.symm hne), ih hskip]
      rfl

theorem find?_of_not_mem {c : Char} {text : Text} (h : c ∉ text) : find? [c] text = none := by
  induction text with
  | nil => rfl
  | cons d text ih =>
      obtain ⟨hne, h⟩ := not_or.mp (mt List.mem_cons.mpr h)
      rw [find?_cons_of_ne _ (Ne.symm hne), ih h]
      rfl

theorem length_le_utf8Size (text : Text) : text.length ≤ text.utf8Size := by
  induction text with
  | nil => exact Nat.le_refl _
  | cons c text ih =>
      have := c.utf8Size_pos
      rw [List.length_cons, utf8Size_cons]
      omega

end Text

/-! ## Counting up -/

/-- `firstStop stops steps i` is the first index from `i` on that `stops` holds of, among `steps`
of them. An index that `stops` refuses ends the search. -/
def firstStop (stops : Nat → Option Bool) : Nat → Nat → Option Nat
  | 0, _ => none
  | steps + 1, i => do
      if ← stops i then return i
      else firstStop stops steps (i + 1)

/-- The search stops at the first index that is not passed. -/
theorem firstStop_add {stops : Nat → Option Bool} {n steps i : Nat}
    (hpass : ∀ j < n, stops (i + j) = some false) (hstop : stops (i + n) = some true)
    (hsteps : n < steps) : firstStop stops steps i = some (i + n) := by
  induction n generalizing i steps with
  | zero =>
      obtain ⟨steps, rfl⟩ := Nat.exists_eq_add_one_of_ne_zero (Nat.ne_zero_of_lt hsteps)
      rw [Nat.add_zero] at hstop
      simp [firstStop, hstop]
  | succ n ih =>
      obtain ⟨steps, rfl⟩ := Nat.exists_eq_add_one_of_ne_zero (Nat.ne_zero_of_lt hsteps)
      have hfirst := hpass 0 (Nat.succ_pos n)
      have hshift (j : Nat) : i + 1 + j = i + (j + 1) := by omega
      have hmore := ih (fun j hj ↦ hshift j ▸ hpass (j + 1) (Nat.succ_lt_succ hj))
        (hshift n ▸ hstop)
        (Nat.lt_of_succ_lt_succ hsteps)
      rw [Nat.add_zero] at hfirst
      simp only [firstStop, hfirst, Option.bind_eq_bind, Option.bind_some,
        Bool.false_eq_true, if_false]
      rw [hmore, hshift]

/-- A search that looks one index ahead stops one index before. -/
theorem firstStop_succ (stops : Nat → Option Bool) (steps i : Nat) :
    firstStop (fun i ↦ stops (i + 1)) steps i = (firstStop stops steps (i + 1)).map (· - 1) := by
  induction steps generalizing i with
  | zero => rfl
  | succ steps ih =>
      simp only [firstStop, Option.bind_eq_bind]
      cases stops (i + 1) with
      | none => rfl
      | some stop =>
          cases stop with
          | true => rfl
          | false => exact ih (i + 1)

/-- Every byte offset within a piece of text is within one of its characters. -/
theorem Text.exists_char {piece : Text} {j : Nat} (h : j < piece.utf8Size) :
    ∃ (before : Text) (c : Char) (behind : Text) (k : Nat),
      piece = before ++ c :: behind ∧ k < c.utf8Size ∧ j = before.utf8Size + k := by
  induction piece generalizing j with
  | nil => simp at h
  | cons c piece ih =>
      by_cases hj : j < c.utf8Size
      · exact ⟨[], c, piece, j, rfl, hj, by simp⟩
      · obtain ⟨before, d, behind, k, rfl, hk, hsum⟩ := ih (j := j - c.utf8Size) (by
          rw [utf8Size_cons] at h
          omega)
        exact ⟨c :: before, d, behind, k, rfl, hk, by rw [utf8Size_cons]; omega⟩

/-- A loop over the bytes of a text that passes every byte of a piece stops behind it. -/
theorem firstStop_text {stops : Nat → Option Bool} {piece : Text} {steps start : Nat}
    (hpass : ∀ (before : Text) c behind k, piece = before ++ c :: behind → k < c.utf8Size →
      stops (start + before.utf8Size + k) = some false)
    (hstop : stops (start + piece.utf8Size) = some true) (hsteps : piece.utf8Size < steps) :
    firstStop stops steps start = some (start + piece.utf8Size) := by
  refine firstStop_add (fun j hj ↦ ?_) hstop hsteps
  obtain ⟨before, c, behind, k, hpiece, hk, rfl⟩ := Text.exists_char hj
  rw [← Nat.add_assoc]
  exact hpass before c behind k hpiece hk

/-- `difference? m n` is `m - n`, or `none` if that is below zero. -/
def difference? (m n : Nat) : Option Nat :=
  if n ≤ m then some (m - n) else none

theorem difference?_of_le {m n : Nat} (h : n ≤ m) : difference? m n = some (m - n) := if_pos h

@[simp] theorem difference?_add (m n : Nat) : difference? (m + n) n = some m := by
  rw [difference?_of_le (Nat.le_add_left n m), Nat.add_sub_cancel]

end Stylesheet
