import Stylesheet.Token.Lexer

/-!
# Runs of the lexer

`l.Reads tokens after` says that the lexer `l` reads these tokens from the text, one by one, and
is `after` behind them. `run_eq_iff_reads` says that a run without a failure is such a reading up
to the end of the text. A reading loses no character (`Reads.rest_eq`), and it does not depend on
what is done about a construct that is open at the end (`Reads.withPolicy`).
-/

namespace Stylesheet

namespace Lexer

/-- `l.Reads tokens after` says that `l` reads `tokens` from the text and is `after` behind
them. -/
inductive Reads : Lexer → List Token → Lexer → Prop where
  | nil (l) : Reads l [] l
  | cons (l next after token tokens) :
      l.scanNext = (.ok (some token), next) →
      Reads next tokens after →
      Reads l (token :: tokens) after

/-- A lexer at work: no token is handed back, and no error has stopped it. -/
structure IsPlain (l : Lexer) : Prop where
  returned : l.returned = []
  failed : l.failed = false

theorem isPlain_ofText (text : Text) (policy : OpenPolicy) (classifier : Classifier) :
    (ofText text policy classifier).IsPlain :=
  ⟨rfl, rfl⟩

/-- What reading one token leaves as it is. -/
theorem scanNext_frame {l after : Lexer} {result : Except TokenizeError (Option Token)}
    (h : l.scanNext = (result, after)) :
    after.classifier = l.classifier ∧ after.policy = l.policy ∧ after.returned = l.returned ∧
      after.failed = l.failed := by
  unfold scanNext at h
  split at h
  · cases h
    exact ⟨rfl, rfl, rfl, rfl⟩
  · split at h
    · cases h
      exact ⟨rfl, rfl, rfl, rfl⟩
    · split at h <;> cases h <;> exact ⟨rfl, rfl, rfl, rfl⟩

theorem IsPlain.scanNext {l after : Lexer} {result : Except TokenizeError (Option Token)}
    (hl : l.IsPlain) (h : l.scanNext = (result, after)) : after.IsPlain := by
  obtain ⟨_, _, hreturned, hfailed⟩ := scanNext_frame h
  exact ⟨hreturned.trans hl.returned, hfailed.trans hl.failed⟩

/-- The end of the text is read as the end and changes nothing. -/
theorem scanNext_eq_none_iff {l after : Lexer} :
    l.scanNext = (.ok none, after) ↔ l.rest = [] ∧ after = l := by
  unfold scanNext
  split
  · next h => simp [h, eq_comm]
  · next h =>
      split
      · simp [h]
      · split <;> simp [h]

theorem iterate_ok {l after : Lexer} {result : Option Token} (hl : l.IsPlain)
    (h : l.scanNext = (.ok result, after)) : l.iterate = (.ok result, after) := by
  simp [iterate, hl.failed, next, hl.returned, h]

theorem iterate_error {l after : Lexer} {e : TokenizeError} (hl : l.IsPlain)
    (h : l.scanNext = (.error e, after)) :
    l.iterate = (.error e, { after with failed := true }) := by
  simp [iterate, hl.failed, next, hl.returned, h]

/-! ## Runs as readings -/

/-- A run without a failure whose bound reaches to the end of the text reads up to the end. -/
theorem reads_of_runFor {steps : Nat} {l after : Lexer} (run : TokenRun) (hl : l.IsPlain)
    (hsteps : l.rest.length ≤ steps) (h : runFor steps l = (run, after))
    (hrun : run.failure = none) : l.Reads run.tokens after ∧ after.rest = [] := by
  induction steps generalizing l run with
  | zero =>
      cases h
      exact ⟨.nil _, List.length_eq_zero_iff.mp (Nat.le_zero.mp hsteps)⟩
  | succ steps ih =>
      rcases hscan : l.scanNext with ⟨_ | _ | token, next⟩
      · simp only [runFor, iterate_error hl hscan] at h
        cases h
        cases hrun
      · simp only [runFor, iterate_ok hl hscan] at h
        cases h
        obtain ⟨hrest, rfl⟩ := scanNext_eq_none_iff.mp hscan
        exact ⟨.nil _, hrest⟩
      · have hlength := scanNext_length_lt hscan
        rcases hnext : runFor steps next with ⟨following, last⟩
        simp only [runFor, iterate_ok hl hscan, hnext] at h
        cases h
        obtain ⟨hreads, hend⟩ := ih _ (hl.scanNext hscan) (by omega) hnext hrun
        exact ⟨.cons _ _ _ _ _ hscan hreads, hend⟩

/-- A reading up to the end of the text is what a run computes. -/
theorem runFor_of_reads {steps : Nat} {l after : Lexer} {tokens : List Token} (hl : l.IsPlain)
    (hsteps : l.rest.length ≤ steps) (h : l.Reads tokens after) (hend : after.rest = []) :
    runFor steps l = (⟨tokens, none⟩, after) := by
  induction h generalizing steps with
  | nil l =>
      cases steps with
      | zero => rfl
      | succ steps =>
          simp only [runFor, iterate_ok hl (scanNext_eq_none_iff.mpr ⟨hend, rfl⟩)]
  | cons l next after token tokens hscan _ ih =>
      have hlength := scanNext_length_lt hscan
      cases steps with
      | zero => omega
      | succ steps =>
          have hnext := ih (hl.scanNext hscan) (by omega : _ ≤ steps) hend
          simp only [runFor, iterate_ok hl hscan, hnext]

/-- A run has no failure exactly if it is a reading up to the end of the text. -/
theorem run_eq_iff_reads {l after : Lexer} {tokens : List Token} (hl : l.IsPlain) :
    l.run = (⟨tokens, none⟩, after) ↔ l.Reads tokens after ∧ after.rest = [] := by
  constructor
  · intro h
    exact reads_of_runFor _ hl (Nat.le_add_left _ _) h rfl
  · intro ⟨hreads, hend⟩
    exact runFor_of_reads hl (Nat.le_add_left _ _) hreads hend

/-! ## What a reading keeps -/

theorem Reads.frame {l after : Lexer} {tokens : List Token} (h : l.Reads tokens after) :
    after.classifier = l.classifier ∧ after.policy = l.policy := by
  induction h with
  | nil => exact ⟨rfl, rfl⟩
  | cons l next after token tokens hscan _ ih =>
      obtain ⟨hclassifier, hpolicy, _⟩ := scanNext_frame hscan
      exact ⟨ih.1.trans hclassifier, ih.2.trans hpolicy⟩

theorem Reads.append {l middle after : Lexer} {first second : List Token}
    (h : l.Reads first middle) (h' : middle.Reads second after) :
    l.Reads (first ++ second) after := by
  induction h with
  | nil => exact h'
  | cons l next after token tokens hscan _ ih => exact .cons _ _ _ _ _ hscan (ih h')

theorem Reads.split {l after : Lexer} {first second : List Token}
    (h : l.Reads (first ++ second) after) :
    ∃ middle, l.Reads first middle ∧ middle.Reads second after := by
  induction first generalizing l with
  | nil => exact ⟨l, .nil l, h⟩
  | cons t first ih =>
      cases h with
      | cons _ next _ _ _ hscan hreads =>
          obtain ⟨middle, hfirst, hsecond⟩ := ih hreads
          exact ⟨middle, .cons _ _ _ _ _ hscan hfirst, hsecond⟩

/-- The tokens of a reading are the text up to where it stops. -/
theorem Reads.rest_eq {l after : Lexer} {tokens : List Token} (h : l.Reads tokens after) :
    l.rest = Token.spelling tokens ++ after.rest := by
  induction h with
  | nil => rfl
  | cons l next after token tokens hscan _ ih =>
      rw [(scanNext_rest hscan).1, ih, Token.spelling_cons, List.append_assoc]

/-- A lexer that fails on open constructs heals none of its tokens. -/
theorem healed_eq_false {l after : Lexer} {token : Token} (hpolicy : l.policy = .fail)
    (h : l.scanNext = (.ok (some token), after)) : token.healed = false := by
  unfold scanNext at h
  rw [hpolicy] at h
  split at h
  · cases h
  · split at h <;> cases h
    rfl

/-- A token that is read without failing is read under any policy. -/
theorem scanNext_withPolicy {l after : Lexer} {token : Token} (hpolicy : l.policy = .fail)
    (h : l.scanNext = (.ok (some token), after)) (policy : OpenPolicy) :
    { l with policy }.scanNext = (.ok (some token), { after with policy }) := by
  unfold scanNext at h ⊢
  rw [hpolicy] at h
  split at h
  · cases h
  · next hrest =>
      simp only [hrest]
      split at h <;> cases h
      next hscan =>
      simp only [take, remember, hrest]

/-- A token that is not healed is read by a lexer that fails on open constructs as well. -/
theorem scanNext_failing {l after : Lexer} {token : Token}
    (h : l.scanNext = (.ok (some token), after)) (hhealed : token.healed = false) :
    { l with policy := .fail }.scanNext = (.ok (some token), { after with policy := .fail }) := by
  unfold scanNext at h ⊢
  split at h
  · cases h
  · next hrest =>
      simp only [hrest]
      split at h
      · cases h
        simp only [take, remember, hrest]
      · split at h
        · cases h
          cases hhealed
        · cases h

/-- A reading that meets no open construct is the same under any policy. -/
theorem Reads.withPolicy {l after : Lexer} {tokens : List Token} (h : l.Reads tokens after)
    (hpolicy : l.policy = .fail) (policy : OpenPolicy) :
    Reads { l with policy } tokens { after with policy } := by
  induction h with
  | nil l => exact .nil _
  | cons l next after token tokens hscan _ ih =>
      have hnext : next.policy = .fail := (scanNext_frame hscan).2.1.trans hpolicy
      exact .cons _ _ _ _ _ (scanNext_withPolicy hpolicy hscan policy) (ih hnext)

/-- No token of a reading under the policy `fail` is healed. -/
theorem Reads.healed {l after : Lexer} {tokens : List Token} (h : l.Reads tokens after)
    (hpolicy : l.policy = .fail) {token : Token} (ht : token ∈ tokens) :
    token.healed = false := by
  induction h with
  | nil => cases ht
  | cons l next after first tokens hscan _ ih =>
      rcases List.mem_cons.mp ht with rfl | ht
      · exact healed_eq_false hpolicy hscan
      · exact ih ((scanNext_frame hscan).2.1.trans hpolicy) ht

end Lexer

namespace Token

/-- The tokens of a run without a failure are the text that it was given. -/
theorem spelling_run {text : Text} {policy : OpenPolicy} (h : (run text policy).failure = none) :
    spelling (run text policy).tokens = text := by
  obtain ⟨hreads, hend⟩ := Lexer.reads_of_runFor (run text policy)
    (Lexer.isPlain_ofText text policy .stock) (Nat.le_add_left _ _) rfl h
  have hrest := hreads.rest_eq
  rw [hend, List.append_nil] at hrest
  exact hrest.symm

/-- A run that fails on no open construct has nothing to heal. -/
theorem run_heal_of_failure_none {text : Text} (h : (run text .fail).failure = none) :
    run text .heal = run text .fail := by
  obtain ⟨hreads, hend⟩ := Lexer.reads_of_runFor (run text .fail)
    (Lexer.isPlain_ofText text .fail .stock) (Nat.le_add_left _ _) rfl h
  have hheal := (Lexer.run_eq_iff_reads (Lexer.isPlain_ofText text .heal .stock)).mpr
    ⟨hreads.withPolicy rfl .heal, hend⟩
  have hrun : run text .heal = ⟨(run text .fail).tokens, none⟩ := congrArg Prod.fst hheal
  rw [hrun, ← h]

/-- A run that fails on no open construct heals none of its tokens. -/
theorem healed_of_mem_run {text : Text} (h : (run text .fail).failure = none) {t : Token}
    (ht : t ∈ (run text .fail).tokens) : t.healed = false := by
  obtain ⟨hreads, _⟩ := Lexer.reads_of_runFor (run text .fail)
    (Lexer.isPlain_ofText text .fail .stock) (Nat.le_add_left _ _) rfl h
  exact hreads.healed rfl ht

end Token

end Stylesheet
