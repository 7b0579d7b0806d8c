import Stylesheet.Text

/-!
# Slices of a text

A range of bytes cuts a piece out of a text if both its ends are between characters. `Text.cut?`
cuts a text at one byte offset and `Text.slice?` cuts out a range; both are `none` where an end is
inside a character, behind the end of the text, or before the start of the range.
`cut?_eq_some_iff` and `slice?_eq_some_iff` say which pieces they are.
-/

namespace Stylesheet

namespace Text

/-- `cut? offset text` cuts `text` at a byte offset, or is `none` if no character starts or ends
there. -/
def cut? : Nat → Text → Option (Text × Text)
  | 0, text => some ([], text)
  | _ + 1, [] => none
  | offset + 1, c :: text =>
      if c.utf8Size ≤ offset + 1 then
        (cut? (offset + 1 - c.utf8Size) text).map fun (before, behind) ↦ (c :: before, behind)
      else none

/-- A text is cut into the two pieces of it of which the first one has as many bytes as are asked
for. -/
theorem cut?_eq_some_iff {offset : Nat} {text before behind : Text} :
    cut? offset text = some (before, behind) ↔
      text = before ++ behind ∧ before.utf8Size = offset := by
  induction text generalizing offset before with
  | nil =>
      cases offset with
      | zero => cases before <;> simp [cut?]
      | succ offset => cases before <;> simp [cut?]
  | cons c text ih =>
      have hc := c.utf8Size_pos
      cases offset with
      | zero =>
          cases before with
          | nil => simp [cut?]
          | cons d before =>
              have hd := d.utf8Size_pos
              simp only [cut?, Option.some.injEq, Prod.mk.injEq, utf8Size_cons]
              constructor
              · rintro ⟨h, -⟩
                cases h
              · rintro ⟨-, h⟩
                omega
      | succ offset =>
          cases before with
          | nil => simp [cut?]
          | cons d before =>
              simp only [cut?, utf8Size_cons, List.cons_append, List.cons.injEq]
              constructor
              · intro h
                split at h
                · obtain ⟨⟨before, behind⟩, hcut, h⟩ := Option.map_eq_some_iff.mp h
                  cases h
                  obtain ⟨rfl, hsize⟩ := ih.mp hcut
                  refine ⟨⟨rfl, rfl⟩, ?_⟩
                  dsimp only
                  omega
                · cases h
              · rintro ⟨⟨rfl, rfl⟩, hsize⟩
                rw [if_pos (by omega), ih.mpr ⟨rfl, by omega⟩]
                rfl

/-- A text is cut behind every text that it starts with. -/
theorem cut?_append (before behind : Text) :
    cut? before.utf8Size (before ++ behind) = some (before, behind) :=
  cut?_eq_some_iff.mpr ⟨rfl, rfl⟩

/-- `text.slice? start stop` is the piece of a text from the byte offset `start` up to but without
`stop`. -/
def slice? (text : Text) (start stop : Nat) : Option Text :=
  if start ≤ stop then
    (cut? start text).bind fun cut ↦ (cut? (stop - start) cut.2).map fun cut ↦ cut.1
  else none

/-- A slice is a piece of the text that has as many bytes before it and up to its end as are asked
for. -/
theorem slice?_eq_some_iff {text piece : Text} {start stop : Nat} :
    text.slice? start stop = some piece ↔
      ∃ before behind, text = before ++ (piece ++ behind) ∧ before.utf8Size = start ∧
        (before ++ piece).utf8Size = stop := by
  unfold slice?
  constructor
  · intro h
    split at h
    · obtain ⟨⟨before, rest⟩, hstart, h⟩ := Option.bind_eq_some_iff.mp h
      obtain ⟨⟨inner, behind⟩, hstop, rfl⟩ := Option.map_eq_some_iff.mp h
      obtain ⟨rfl, rfl⟩ := cut?_eq_some_iff.mp hstart
      obtain ⟨rfl, hsize⟩ := cut?_eq_some_iff.mp hstop
      refine ⟨before, behind, rfl, rfl, ?_⟩
      rw [utf8Size_append, hsize]
      omega
    · cases h
  · rintro ⟨before, behind, rfl, rfl, rfl⟩
    have hsize : (before ++ piece).utf8Size - before.utf8Size = piece.utf8Size := by
      rw [utf8Size_append, Nat.add_sub_cancel_left]
    rw [if_pos (utf8Size_append before piece ▸ Nat.le_add_right _ _), cut?_append, hsize]
    rw [Option.bind_some, cut?_append, Option.map_some]

/-- The piece between two parts of a text is the slice at its bytes. -/
theorem slice?_append (before piece behind : Text) :
    (before ++ (piece ++ behind)).slice? before.utf8Size (before ++ piece).utf8Size =
      some piece :=
  slice?_eq_some_iff.mpr ⟨before, behind, rfl, rfl, rfl⟩

/-- The end of a text from a byte offset on is what a cut leaves behind. -/
theorem slice?_utf8Size (before behind : Text) :
    (before ++ behind).slice? before.utf8Size (before ++ behind).utf8Size = some behind := by
  have h := slice?_append before behind []
  rwa [List.append_nil] at h

end Text

end Stylesheet
