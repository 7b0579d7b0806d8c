import Stylesheet.Proofs.Reading
import Stylesheet.Token.Trivia

/-!
# Places of tokens

Offsets count bytes and texts are lists of characters. `Source.IsBoundary` says which offsets
stand between characters, and `Source.position_utf8Size` computes the position there from the text
before it. `Token.Placed` says that tokens stand one behind the other in a source, each over its
own text, and `Token.placed_run` says so of the run of a source, from its start up to its end.
-/

namespace Stylesheet

namespace Position

/-- Looking for an offset passes over a text that ends at it or before it. -/
theorem seek_append {p : Position} {first : Text} {offset : Nat}
    (h : p.offset + first.utf8Size ≤ offset) (second : Text) :
    seek offset (first ++ second) p = seek offset second (p.advanceText first) := by
  induction first generalizing p with
  | nil => rfl
  | cons c first ih =>
      rw [Text.utf8Size_cons] at h
      rw [List.cons_append, seek, if_pos (by omega), ih, advanceText_cons]
      rw [advance_offset]
      omega

/-- Looking for an offset stops at a character that reaches behind it. -/
theorem seek_of_lt {p : Position} {text : Text} {offset : Nat}
    (h : ∀ c, text.head? = some c → offset < p.offset + c.utf8Size) : seek offset text p = p := by
  cases text with
  | nil => rfl
  | cons c text => rw [seek, if_neg (Nat.not_le.mpr (h c rfl))]

end Position

namespace Source

variable {s : Source} {first second : Text} {offset : Nat}

/-- The position at an offset that is in the first character behind a text, or at its start. -/
theorem position_of_le (h : s.text = first ++ second) (hle : first.utf8Size ≤ offset)
    (hlt : ∀ c, second.head? = some c → offset < first.utf8Size + c.utf8Size) :
    s.position offset = Position.start.advanceText first := by
  have hstart : Position.start.offset + first.utf8Size = first.utf8Size := Nat.zero_add _
  have hle : Position.start.offset + first.utf8Size ≤ offset := by rwa [hstart]
  rw [position, h, Position.seek_append hle]
  refine Position.seek_of_lt fun c hc ↦ ?_
  rw [Position.advanceText_offset, hstart]
  exact hlt c hc

/-- The position behind a text that the source starts with. -/
theorem position_utf8Size (h : s.text = first ++ second) :
    s.position first.utf8Size = Position.start.advanceText first :=
  position_of_le h (Nat.le_refl _) fun c _ ↦ Nat.lt_add_of_pos_right c.utf8Size_pos

/-- `s.IsBoundary offset` says that a character, or the end of the source, is at a byte offset. -/
def IsBoundary (s : Source) (offset : Nat) : Prop :=
  ∃ first second, s.text = first ++ second ∧ first.utf8Size = offset

theorem isBoundary_zero (s : Source) : s.IsBoundary 0 := ⟨[], s.text, rfl, rfl⟩

theorem isBoundary_size (s : Source) : s.IsBoundary s.size := ⟨s.text, [], by simp, rfl⟩

theorem IsBoundary.le_size (h : s.IsBoundary offset) : offset ≤ s.size := by
  obtain ⟨first, second, htext, rfl⟩ := h
  rw [size, htext, Text.utf8Size_append]
  exact Nat.le_add_right _ _

/-- A position that is looked up at a boundary is there. -/
theorem IsBoundary.offset_position (h : s.IsBoundary offset) :
    (s.position offset).offset = offset := by
  obtain ⟨first, second, htext, rfl⟩ := h
  rw [position_utf8Size htext, Position.advanceText_offset]
  exact Nat.zero_add _

theorem position_zero (s : Source) : s.position 0 = Position.start :=
  @position_utf8Size s [] s.text rfl

end Source

namespace Token

/-- `Placed s start tokens stop` says that the tokens stand one behind the other in the source
`s`, from the byte offset `start` up to `stop`. -/
inductive Placed (s : Source) : Nat → List Token → Nat → Prop where
  | nil {start} (h : s.IsBoundary start) : Placed s start [] start
  | cons {t tokens start stop} (h : s.IsBoundary start) (hne : t.text ≠ [])
      (hspan : t.span = ⟨start, start + t.text.utf8Size⟩)
      (hrest : Placed s t.span.stop tokens stop) : Placed s start (t :: tokens) stop

namespace Placed

variable {s : Source} {t : Token} {tokens first second : List Token} {start middle stop : Nat}

theorem isBoundary_start (h : Placed s start tokens stop) : s.IsBoundary start := by
  cases h <;> assumption

theorem isBoundary_stop (h : Placed s start tokens stop) : s.IsBoundary stop := by
  induction h with
  | nil h => exact h
  | cons _ _ _ _ ih => exact ih

/-- A run reaches over the text of its tokens. -/
theorem stop_eq (h : Placed s start tokens stop) : stop = start + (spelling tokens).utf8Size := by
  induction h with
  | nil => rfl
  | cons _ _ hspan _ ih =>
      rw [ih, hspan, spelling_cons, Text.utf8Size_append, Nat.add_assoc]

theorem le (h : Placed s start tokens stop) : start ≤ stop := by
  rw [h.stop_eq]
  exact Nat.le_add_right _ _

theorem split (h : Placed s start (first ++ second) stop) :
    ∃ middle, Placed s start first middle ∧ Placed s middle second stop := by
  induction first generalizing start with
  | nil => exact ⟨start, .nil h.isBoundary_start, h⟩
  | cons t first ih =>
      cases h with
      | cons h hne hspan hrest =>
          obtain ⟨middle, hfirst, hsecond⟩ := ih hrest
          exact ⟨middle, .cons h hne hspan hfirst, hsecond⟩

/-- The first token of a run starts where the run starts, and reaches over at least one byte. -/
theorem head (h : Placed s start (t :: tokens) stop) :
    t.span.start = start ∧ start < t.span.stop ∧ Placed s t.span.stop tokens stop := by
  cases h with
  | cons h hne hspan hrest =>
      have hsize : t.text.utf8Size ≠ 0 := fun hzero ↦ hne (Text.utf8Size_eq_zero_iff.mp hzero)
      refine ⟨by rw [hspan], ?_, hrest⟩
      rw [hspan]
      exact Nat.lt_add_of_pos_right (Nat.pos_of_ne_zero hsize)

theorem lt_of_ne_nil (h : Placed s start tokens stop) (hne : tokens ≠ []) : start < stop := by
  obtain ⟨t, rest, rfl⟩ := List.exists_cons_of_ne_nil hne
  obtain ⟨-, hlt, hrest⟩ := h.head
  exact Nat.lt_of_lt_of_le hlt hrest.le

/-- The last token of a run ends where the run ends. -/
theorem stopOr_eq (h : Placed s start tokens stop) (hne : tokens ≠ []) (default : Nat) :
    stopOr tokens default = stop := by
  induction h with
  | nil => exact absurd rfl hne
  | @cons t tokens _ _ _ _ _ hrest ih =>
      cases tokens with
      | nil => cases hrest; rfl
      | cons u rest => exact ih (List.cons_ne_nil u rest)

/-- A run that is empty ends where it starts. -/
theorem stopOr_start (h : Placed s start tokens stop) : stopOr tokens start = stop := by
  cases tokens with
  | nil =>
      cases h
      rfl
  | cons t rest => exact h.stopOr_eq (List.cons_ne_nil t rest) start

end Placed

end Token

namespace Lexer

/-- A token that is read stands at the place of the lexer. -/
theorem scanNext_place {l after : Lexer} {token : Token}
    (h : l.scanNext = (.ok (some token), after)) :
    token.span = ⟨l.position, l.position + token.text.utf8Size⟩ ∧
      after.position = token.span.stop := by
  unfold scanNext at h
  split at h
  · cases h
  · split at h
    · cases h
      exact ⟨rfl, rfl⟩
    · split at h
      · cases h
        exact ⟨rfl, rfl⟩
      · cases h

/-- The tokens of a reading stand one behind the other, from the place of the lexer on. -/
theorem Reads.placed {l after : Lexer} {tokens : List Token} {s : Source}
    (h : l.Reads tokens after) (before : Text) (htext : s.text = before ++ l.rest)
    (hposition : l.position = before.utf8Size) :
    Token.Placed s l.position tokens after.position := by
  induction h generalizing before with
  | nil l => exact .nil ⟨before, l.rest, htext, hposition.symm⟩
  | cons l next after token tokens hscan _ ih =>
      obtain ⟨hspan, hnext⟩ := scanNext_place hscan
      obtain ⟨hrest, hne⟩ := scanNext_rest hscan
      have hfollowing := ih (before ++ token.text) (by rw [htext, hrest, List.append_assoc])
        (by rw [hnext, hspan, hposition, Text.utf8Size_append])
      rw [hnext] at hfollowing
      exact .cons ⟨before, l.rest, htext, hposition.symm⟩ hne hspan hfollowing

end Lexer

/-- The tokens of a run without a failure stand one behind the other over the whole source. -/
theorem Token.placed_run {s : Source} {policy : OpenPolicy}
    (h : (run s.text policy).failure = none) : Placed s 0 (run s.text policy).tokens s.size := by
  obtain ⟨hreads, -⟩ := Lexer.reads_of_runFor (run s.text policy)
    (Lexer.isPlain_ofText s.text policy .stock) (Nat.le_add_left _ _) rfl h
  have hplaced := hreads.placed [] rfl rfl
  have hstop := hplaced.stop_eq
  rw [spelling_run h] at hstop
  rw [hstop] at hplaced
  simpa [Lexer.ofText, Source.size] using hplaced

end Stylesheet
