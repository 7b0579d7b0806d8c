import Stylesheet.Proofs.Places
import Stylesheet.Text.Slice

/-!
# Runs up to the end or the first error

A run of the lexer is a reading that stops at the end of the text or before a construct that is
open there (`stops_of_runFor`). `covers_run` says that its tokens cut the text, byte for byte, as
far as the run goes, for every classification of characters and either policy. `heals_run`
compares the policies: healing adds to the tokens of a run that fails one token, over all that the
run has left unread.
-/

namespace Stylesheet

namespace Token

/-- `Adjoins start tokens stop` says that the tokens stand one behind the other, from the byte
offset `start` up to `stop`. -/
def Adjoins (start : Nat) : List Token → Nat → Prop
  | [], stop => start = stop
  | t :: tokens, stop => t.span.start = start ∧ Adjoins t.span.stop tokens stop

/-- `t.IsPiece text` says that a token is a piece of a text, not empty and cut out at its
place. -/
structure IsPiece (text : Text) (t : Token) : Prop where
  ne_nil : t.text ≠ []
  slice : text.slice? t.span.start t.span.stop = some t.text

end Token

namespace TokenRun

/-- `run.stop text` is the byte offset where a run over a text stops: at the construct that is
open at the end of the text, if that is an error, or else at the end of the text. -/
def stop (run : TokenRun) (text : Text) : Nat :=
  match run.failure with
  | some e => e.offset
  | none => text.utf8Size

end TokenRun

namespace Lexer

/-- `Stops failure l` says that nothing more is read: the text is used up, or a construct that
starts at the place of the lexer is open at its end. -/
inductive Stops : Option TokenizeError → Lexer → Prop where
  | input {l : Lexer} (h : l.rest = []) : Stops none l
  | failure {l : Lexer} {construct c text} (hrest : l.rest = c :: text)
      (hscan : scan l.classifier l.word c text = .unclosed construct)
      (hpolicy : l.policy = .fail) :
      Stops (some ⟨construct, l.position⟩) l

/-- A lexer that reads no token stops. -/
theorem stops_of_scanNext_error {l after : Lexer} {e : TokenizeError}
    (h : l.scanNext = (.error e, after)) : Stops (some e) l := by
  unfold scanNext at h
  split at h
  · cases h
  · next hrest =>
      split at h
      · cases h
      · next hscan =>
          split at h
          · cases h
          · next hpolicy =>
              cases h
              exact .failure hrest hscan hpolicy

/-- A run whose bound reaches to the end of the text is a reading up to where the lexer stops. -/
theorem stops_of_runFor {steps : Nat} {l after : Lexer} (run : TokenRun) (hl : l.IsPlain)
    (hsteps : l.rest.length ≤ steps) (h : runFor steps l = (run, after)) :
    ∃ last, l.Reads run.tokens last ∧ Stops run.failure last ∧
      (run.failure = none → after = last) := by
  induction steps generalizing l run with
  | zero =>
      cases h
      exact ⟨_, .nil _, .input (List.length_eq_zero_iff.mp (Nat.le_zero.mp hsteps)), fun _ ↦ rfl⟩
  | succ steps ih =>
      rcases hscan : l.scanNext with ⟨_ | _ | token, next⟩
      · simp only [runFor, iterate_error hl hscan] at h
        cases h
        exact ⟨l, .nil l, stops_of_scanNext_error hscan,
          fun hnone ↦ absurd hnone (Option.some_ne_none _)⟩
      · simp only [runFor, iterate_ok hl hscan] at h
        cases h
        obtain ⟨hrest, rfl⟩ := scanNext_eq_none_iff.mp hscan
        exact ⟨_, .nil _, .input hrest, fun _ ↦ rfl⟩
      · have hlength := scanNext_length_lt hscan
        rcases hnext : runFor steps next with ⟨following, last⟩
        simp only [runFor, iterate_ok hl hscan, hnext] at h
        cases h
        obtain ⟨stopped, hreads, hstops, hafter⟩ :=
          ih _ (hl.scanNext hscan) (by omega) hnext
        exact ⟨stopped, .cons _ _ _ _ _ hscan hreads, hstops, hafter⟩

/-! ## The tokens of a run cut the text -/

/-- An error is told at the place of the lexer. -/
theorem Stops.offset_eq {l : Lexer} {e : TokenizeError} (h : Stops (some e) l) :
    e.offset = l.position := by
  cases h
  rfl

/-- A lexer that stops is at the byte offset where its run stops. -/
theorem Stops.position_eq {l : Lexer} {run : TokenRun} (h : Stops run.failure l) {text : Text}
    (hplace : l.position + l.rest.utf8Size = text.utf8Size) : l.position = run.stop text := by
  unfold TokenRun.stop
  generalize run.failure = failure at h
  cases failure with
  | some e => exact h.offset_eq.symm
  | none =>
      cases h with
      | input hrest => simpa [hrest] using hplace

/-- The tokens of a reading are pieces of the text, one behind the other. -/
theorem Reads.pieces {l after : Lexer} {tokens : List Token} (h : l.Reads tokens after)
    (before : Text) (hposition : l.position = before.utf8Size) :
    Token.Adjoins l.position tokens after.position ∧
      (∀ t ∈ tokens, t.IsPiece (before ++ l.rest)) ∧
      after.position + after.rest.utf8Size = (before ++ l.rest).utf8Size := by
  induction h generalizing before with
  | nil l => exact ⟨rfl, List.forall_mem_nil _, by rw [hposition, Text.utf8Size_append]⟩
  | cons l next after token tokens hscan _ ih =>
      obtain ⟨hspan, hnext⟩ := scanNext_place hscan
      obtain ⟨hrest, hne⟩ := scanNext_rest hscan
      have hstop : token.span.stop = (before ++ token.text).utf8Size := by
        rw [hspan, hposition, Text.utf8Size_append]
      obtain ⟨hadjoins, hpieces, hsize⟩ := ih (before ++ token.text) (hnext.trans hstop)
      have htext : before ++ token.text ++ next.rest = before ++ l.rest := by
        rw [hrest, List.append_assoc]
      rw [htext] at hpieces hsize
      refine ⟨⟨by rw [hspan], hnext ▸ hadjoins⟩, List.forall_mem_cons.mpr ⟨⟨hne, ?_⟩, hpieces⟩,
        hsize⟩
      have hstart : token.span.start = before.utf8Size := by rw [hspan, hposition]
      rw [hstart, hstop, hrest]
      exact Text.slice?_append before token.text next.rest

/-- The tokens of a run are pieces of the text, one behind the other from its start up to its end,
or up to the construct that the run fails on. -/
theorem covers_run (text : Text) (policy : OpenPolicy) (t : Classifier) :
    let run := (ofText text policy t).run.1
    Token.Adjoins 0 run.tokens (run.stop text) ∧ ∀ token ∈ run.tokens, token.IsPiece text := by
  intro run
  obtain ⟨last, hreads, hstops, -⟩ := stops_of_runFor run (isPlain_ofText text policy t)
    (Nat.le_add_left _ _) rfl
  obtain ⟨hadjoins, hpieces, hsize⟩ := hreads.pieces [] rfl
  rw [hstops.position_eq hsize] at hadjoins
  exact ⟨hadjoins, hpieces⟩

/-! ## Healing -/

/-- A lexer that fails on an open construct reads all that is left as one token when it heals. -/
theorem Stops.scanNext_heal {l : Lexer} {e : TokenizeError} (h : Stops (some e) l) :
    ∃ after, after.rest = [] ∧ scanNext { l with policy := .heal } =
      (.ok (some ⟨e.construct.tokenKind, ⟨e.offset, e.offset + l.rest.utf8Size⟩, l.rest, true⟩),
        after) := by
  cases h with
  | @failure _ construct c text hrest hscan _ =>
      refine ⟨(take { l with policy := .heal } construct.tokenKind l.rest.length true).2, ?_, ?_⟩
      · exact List.drop_length
      · unfold scanNext
        simp only [hrest, hscan, take, List.length_cons]
        rw [← List.length_cons, List.take_length]

/-- Under the policy `heal` every run reads up to the end of the text. -/
theorem failure_run_heal (text : Text) (t : Classifier) :
    (ofText text .heal t).run.1.failure = none := by
  obtain ⟨last, hreads, hstops, -⟩ := stops_of_runFor (ofText text .heal t).run.1
    (isPlain_ofText text .heal t) (Nat.le_add_left _ _) rfl
  generalize (ofText text .heal t).run.1.failure = failure at hstops
  cases hstops with
  | input => rfl
  | failure _ _ hpolicy =>
      rw [hreads.frame.2] at hpolicy
      cases hpolicy

theorem Reads.isPlain {l after : Lexer} {tokens : List Token} (h : l.Reads tokens after)
    (hl : l.IsPlain) : after.IsPlain := by
  induction h with
  | nil => exact hl
  | cons _ _ _ _ _ hscan _ ih => exact ih (hl.scanNext hscan)

/-- A run that does not fail is the same when it heals. One that fails goes on, when it heals,
with one token over all that is left, of the kind of the open construct, and ends there. -/
theorem heals_run (text : Text) (t : Classifier) :
    let strict := (ofText text .fail t).run.1
    let healing := (ofText text .heal t).run
    (∀ token ∈ strict.tokens, token.healed = false) ∧ healing.2.isEof = true ∧
      match strict.failure with
      | none => healing.1 = strict
      | some e => ∃ left, text.slice? e.offset text.utf8Size = some left ∧
          healing.1 = ⟨strict.tokens ++
            [⟨e.construct.tokenKind, ⟨e.offset, text.utf8Size⟩, left, true⟩], none⟩ := by
  intro strict healing
  obtain ⟨last, hreads, hstops, -⟩ := stops_of_runFor strict (isPlain_ofText text .fail t)
    (Nat.le_add_left _ _) rfl
  have hheal : (ofText text .heal t).Reads strict.tokens { last with policy := .heal } :=
    hreads.withPolicy rfl .heal
  -- What a healing lexer reads up to the end of the text is its run.
  have hend {tokens : List Token} {after : Lexer} (h : (ofText text .heal t).Reads tokens after)
      (hafter : after.rest = []) : healing = (⟨tokens, none⟩, after) ∧ after.isEof = true := by
    have hplain := isPlain_ofText text .heal t
    refine ⟨(run_eq_iff_reads hplain).mpr ⟨h, hafter⟩, ?_⟩
    simp [isEof, hafter, (h.isPlain hplain).returned]
  refine ⟨fun token htoken ↦ hreads.healed rfl htoken, ?_⟩
  cases hfailure : strict.failure with
  | none =>
      rw [hfailure] at hstops
      cases hstops with
      | input hrest =>
          obtain ⟨hrun, heof⟩ := hend hheal hrest
          exact ⟨hrun ▸ heof, hrun ▸ congrArg (TokenRun.mk strict.tokens) hfailure.symm⟩
  | some e =>
      rw [hfailure] at hstops
      obtain ⟨after, hafter, hscan⟩ := hstops.scanNext_heal
      obtain ⟨hrun, heof⟩ := hend (hheal.append (.cons _ _ _ _ _ hscan (.nil after))) hafter
      have hrest : text = Token.spelling strict.tokens ++ last.rest := hreads.rest_eq
      have hsize : last.position + last.rest.utf8Size = text.utf8Size :=
        (hreads.pieces [] rfl).2.2
      have hoffset : e.offset = (Token.spelling strict.tokens).utf8Size := by
        have hsizes := congrArg Text.utf8Size hrest
        rw [Text.utf8Size_append] at hsizes
        rw [hstops.offset_eq]
        omega
      refine ⟨hrun ▸ heof, last.rest, ?_, ?_⟩
      · rw [hoffset, hrest]
        exact Text.slice?_utf8Size _ _
      · rw [hrun, hstops.offset_eq, hsize]

end Lexer

end Stylesheet
