import Stylesheet.Proofs.Runs
import Stylesheet.Proofs.Tokens

/-!
# Calls of a lexer

A caller asks a lexer for the next token or hands a token back, in any order.
`TokenStream.replies` lists what it is told, call by call up to the first error: the answer, the
place of the lexer, and whether it is at the end. A `Playback` replies from a run that is known
beforehand. All it holds is a stack of the tokens that were handed back and how often the run has
been asked. `replies_eq_playback` says that a lexer cannot be told from a playback of its own run,
so that nothing that is handed back changes what is read behind it.

A caller may also ask again behind an error. A lexer that fails on a string or a comment is as it
was before, and one that fails on the body of a url has forgotten the word before it, so that it
reads the parenthesis (`next_again_iff`).
-/

namespace Stylesheet

/-- What a caller asks of a lexer: the next token, or to take a token back. -/
inductive Call where
  | next
  | back (token : Token)
  deriving Repr, DecidableEq

/-- The answer to a call for the next token: a token, the end, or an error. -/
abbrev Lexer.Result := Except TokenizeError (Option Token)

/-- What a caller is told: the answer, if it has asked for a token, and behind the call the place
of the lexer and whether it is at the end. -/
structure Reply where
  answer : Option Lexer.Result
  position : Nat
  isEof : Bool

/-- `r.failed` says that the answer is an error. -/
def Reply.failed (r : Reply) : Bool :=
  match r.answer with
  | some (.error _) => true
  | _ => false

/-- A stream of tokens with states `σ`: how a call is answered and what it leaves, and what a
state shows. -/
structure TokenStream (σ : Type) where
  respond : σ → Call → Option Lexer.Result × σ
  position : σ → Nat
  isEof : σ → Bool

namespace TokenStream

variable {σ τ : Type}

/-- `stream.reply s call` is what a caller is told. -/
def reply (stream : TokenStream σ) (s : σ) (call : Call) : Reply :=
  let (answer, s) := stream.respond s call
  ⟨answer, stream.position s, stream.isEof s⟩

/-- `stream.replies s calls` lists the replies to a sequence of calls, up to the first error. -/
def replies (stream : TokenStream σ) : σ → List Call → List Reply
  | _, [] => []
  | s, call :: calls =>
      let reply := stream.reply s call
      reply :: if reply.failed then [] else stream.replies (stream.respond s call).2 calls

/-- `stream.behind s calls` is the state behind a sequence of calls, whatever is answered to
them. -/
def behind (stream : TokenStream σ) (s : σ) (calls : List Call) : σ :=
  calls.foldl (fun s call ↦ (stream.respond s call).2) s

/-- Streams that reply alike to every call in related states, and are in related states again
behind a call that does not fail, reply alike to every sequence of calls. -/
theorem replies_congr {first : TokenStream σ} {second : TokenStream τ} {r : σ → τ → Prop}
    (hreply : ∀ {s t} (call : Call), r s t → first.reply s call = second.reply t call)
    (hrespond : ∀ {s t} (call : Call), r s t → (first.reply s call).failed = false →
      r (first.respond s call).2 (second.respond t call).2)
    {s : σ} {t : τ} (h : r s t) (calls : List Call) :
    first.replies s calls = second.replies t calls := by
  induction calls generalizing s t with
  | nil => rfl
  | cons call calls ih =>
      have hsame := hreply call h
      simp only [replies, ← hsame]
      cases hfailed : (first.reply s call).failed with
      | true => rfl
      | false => rw [ih (hrespond call h hfailed)]

end TokenStream

/-- A lexer as a stream of tokens. -/
def Lexer.stream : TokenStream Lexer where
  respond l
    | .next => (some l.next.1, l.next.2)
    | .back token => (none, l.back token)
  position := Lexer.position
  isEof := Lexer.isEof

/-! ## Playing a run back -/

/-- `run.ending` is what is answered behind the last token of a run: its error, or else the
end. -/
def TokenRun.ending (run : TokenRun) : Lexer.Result :=
  match run.failure with
  | some e => .error e
  | none => .ok none

/-- A run that is played back. `pending` holds the tokens that were handed back and not returned
since, the latest first, and `produced` counts the tokens of the run that have been returned. -/
structure Playback where
  pending : List Token := []
  produced : Nat := 0

namespace Playback

/-- `p.next run` returns the token that was handed back last, or else the next one of the run. -/
def next (run : TokenRun) (p : Playback) : Lexer.Result × Playback :=
  match p.pending with
  | token :: pending => (.ok (some token), { p with pending })
  | [] =>
      match run.tokens[p.produced]? with
      | some token => (.ok (some token), { p with produced := p.produced + 1 })
      | none => (run.ending, p)

theorem next_of_pending {run : TokenRun} {p : Playback} {token : Token} {pending : List Token}
    (hp : p.pending = token :: pending) :
    p.next run = (.ok (some token), { p with pending }) := by
  rw [next, hp]

theorem next_of_lt {run : TokenRun} {p : Playback} (hp : p.pending = [])
    (hn : p.produced < run.tokens.length) :
    p.next run = (.ok (some run.tokens[p.produced]), { p with produced := p.produced + 1 }) := by
  simp only [next, hp, List.getElem?_eq_getElem hn]

theorem next_of_le {run : TokenRun} {p : Playback} (hp : p.pending = [])
    (hn : run.tokens.length ≤ p.produced) : p.next run = (run.ending, p) := by
  simp only [next, hp, List.getElem?_eq_none hn]

/-- `p.position run` is the end of the last token of the run that has been produced so far. -/
def position (run : TokenRun) (p : Playback) : Nat :=
  Token.stopOr (run.tokens.take p.produced) 0

/-- The playback of a run over a text of `size` bytes. It is at the end if no token is pending and
the run has reached the end of the text. -/
def stream (run : TokenRun) (size : Nat) : TokenStream Playback where
  respond p
    | .next => (some (p.next run).1, (p.next run).2)
    | .back token => (none, { p with pending := token :: p.pending })
  position := position run
  isEof p := p.pending.isEmpty && p.position run == size

end Playback

namespace Lexer

/-- A lexer that stops answers how the run ends. It does not move, and at the end of the text it
stays as it is. -/
theorem Stops.scanNext_eq {run : TokenRun} {l : Lexer} (h : Stops run.failure l) :
    ∃ word, l.scanNext = (run.ending, { l with word }) ∧
      (run.failure = none → word = l.word) := by
  unfold TokenRun.ending
  generalize run.failure = failure at h
  cases h with
  | input hrest => exact ⟨l.word, scanNext_eq_none_iff.mpr ⟨hrest, rfl⟩, fun _ ↦ rfl⟩
  | @failure _ construct _ _ hrest hscan hpolicy =>
      refine ⟨l.remember construct.tokenKind [], ?_, nofun⟩
      unfold scanNext
      simp only [hrest, hscan, hpolicy]

/-- `Follows start run l p` says that the lexer `l` is where the playback `p` is: the same tokens
are pending, and apart from them it is a lexer that has read from `start` what the run has
produced, and is going to read the rest of the run. -/
structure Follows (start : Lexer) (run : TokenRun) (l : Lexer) (p : Playback) : Prop where
  returned : l.returned = p.pending
  produced : start.Reads (run.tokens.take p.produced) { l with returned := [] }
  following : ∃ last, Reads { l with returned := [] } (run.tokens.drop p.produced) last ∧
    Stops run.failure last

/-- Before any call a lexer is where the playback of its run is. -/
theorem follows_ofText (text : Text) (policy : OpenPolicy) (t : Classifier) :
    Follows (ofText text policy t) (ofText text policy t).run.1 (ofText text policy t) {} := by
  obtain ⟨last, hreads, hstops, -⟩ := stops_of_runFor (ofText text policy t).run.1
    (isPlain_ofText text policy t) (Nat.le_add_left _ _) rfl
  exact ⟨rfl, .nil _, last, hreads, hstops⟩

namespace Follows

variable {text : Text} {policy : OpenPolicy} {t : Classifier} {run : TokenRun} {l : Lexer}
  {p : Playback}

/-- A lexer stands at the end of the last token that was produced. -/
theorem position_eq (h : Follows (ofText text policy t) run l p) :
    l.position = p.position run := by
  have hplaced := h.produced.placed (s := ⟨text, none⟩) [] rfl rfl
  exact hplaced.stopOr_start.symm

/-- A lexer is at the end if no token is pending and the text is read. -/
theorem isEof_eq (h : Follows (ofText text policy t) run l p) :
    l.isEof = (p.pending.isEmpty && p.position run == text.utf8Size) := by
  have hsize : l.position + l.rest.utf8Size = text.utf8Size := (h.produced.pieces [] rfl).2.2
  have hrest : l.rest.isEmpty = (l.position == text.utf8Size) := by
    rw [Bool.eq_iff_iff, List.isEmpty_iff, beq_iff_eq, ← Text.utf8Size_eq_zero_iff]
    omega
  rw [isEof, h.returned, hrest, h.position_eq]

/-- If no token is pending, the lexer reads the next one of the run. -/
theorem scanNext_of_lt {start : Lexer} (h : Follows start run l p) (hreturned : l.returned = [])
    (hn : p.produced < run.tokens.length) :
    ∃ after, l.scanNext = (.ok (some run.tokens[p.produced]), after) ∧
      Follows start run after { p with produced := p.produced + 1 } := by
  have hplain : { l with returned := [] } = l := by rw [← hreturned]
  obtain ⟨hpending, hproduced, last, hfollowing, hstops⟩ := h
  rw [hplain] at hproduced hfollowing
  rw [List.drop_eq_getElem_cons hn] at hfollowing
  cases hfollowing with
  | cons _ after _ _ _ hscan hfollowing =>
      have hafter : after.returned = [] := (scanNext_frame hscan).2.2.1.trans hreturned
      have hplain : { after with returned := [] } = after := by rw [← hafter]
      refine ⟨after, hscan, (hafter.trans hreturned.symm).trans hpending, ?_, last, ?_, hstops⟩
      · show start.Reads (run.tokens.take (p.produced + 1)) _
        rw [hplain, List.take_add_one, List.getElem?_eq_getElem hn]
        exact hproduced.append (.cons _ _ _ _ _ hscan (.nil after))
      · rw [hplain]
        exact hfollowing

/-- If no token is pending and the run has no more, the lexer stops. -/
theorem stops_of_le {start : Lexer} (h : Follows start run l p) (hreturned : l.returned = [])
    (hn : run.tokens.length ≤ p.produced) : Stops run.failure l := by
  have hplain : { l with returned := [] } = l := by rw [← hreturned]
  obtain ⟨last, hfollowing, hstops⟩ := h.following
  rw [hplain, List.drop_eq_nil_of_le hn] at hfollowing
  cases hfollowing
  exact hstops

/-- A call for the next token is answered alike, and the lexer and the playback are at the same
place behind it. Unless they fail, the one follows the other again. -/
theorem next (h : Follows (ofText text policy t) run l p) :
    ∃ after, l.next = ((p.next run).1, after) ∧
      after.position = (p.next run).2.position run ∧
      after.isEof =
        ((p.next run).2.pending.isEmpty && (p.next run).2.position run == text.utf8Size) ∧
      ((∀ e, (p.next run).1 ≠ .error e) →
        Follows (ofText text policy t) run after (p.next run).2) := by
  cases hp : p.pending with
  | cons token pending =>
      have hafter : Follows (ofText text policy t) run { l with returned := pending }
          { p with pending } :=
        ⟨rfl, h.produced, h.following⟩
      rw [Playback.next_of_pending hp]
      exact ⟨_, next_of_returned (h.returned.trans hp), hafter.position_eq, hafter.isEof_eq,
        fun _ ↦ hafter⟩
  | nil =>
      have hreturned : l.returned = [] := h.returned.trans hp
      rw [next_of_returned_nil hreturned]
      by_cases hn : p.produced < run.tokens.length
      · obtain ⟨after, hscan, hafter⟩ := h.scanNext_of_lt hreturned hn
        rw [Playback.next_of_lt hp hn]
        exact ⟨after, hscan, hafter.position_eq, hafter.isEof_eq, fun _ ↦ hafter⟩
      · have hn : run.tokens.length ≤ p.produced := Nat.le_of_not_lt hn
        obtain ⟨word, hscan, hword⟩ := (h.stops_of_le hreturned hn).scanNext_eq
        rw [Playback.next_of_le hp hn]
        refine ⟨_, hscan, h.position_eq, h.isEof_eq, fun hok ↦ ?_⟩
        -- The lexer does not fail here, so that it has forgotten nothing.
        have hnone : run.failure = none := by
          cases hfailure : run.failure with
          | none => rfl
          | some e => exact absurd (by rw [TokenRun.ending, hfailure]) (hok e)
        rw [hword hnone]
        exact h

end Follows

/-- Whatever tokens are handed back, and whenever, a lexer replies as the playback of its run
does. -/
theorem replies_eq_playback (text : Text) (policy : OpenPolicy) (t : Classifier)
    (calls : List Call) :
    stream.replies (ofText text policy t) calls =
      (Playback.stream (ofText text policy t).run.1 text.utf8Size).replies {} calls := by
  refine TokenStream.replies_congr (r := Follows (ofText text policy t) _) ?_ ?_
    (follows_ofText text policy t) calls
  · intro l p call h
    cases call with
    | back token =>
        have hafter : Follows (ofText text policy t) _ (l.back token)
            { p with pending := token :: p.pending } :=
          ⟨congrArg _ h.returned, h.produced, h.following⟩
        simp only [TokenStream.reply, stream, Playback.stream, hafter.position_eq,
          hafter.isEof_eq]
    | next =>
        obtain ⟨after, hnext, hposition, heof, -⟩ := h.next
        simp only [TokenStream.reply, stream, Playback.stream, hnext, hposition, heof]
  · intro l p call h hfailed
    cases call with
    | back token => exact ⟨congrArg _ h.returned, h.produced, h.following⟩
    | next =>
        obtain ⟨after, hnext, -, -, hfollows⟩ := h.next
        simp only [TokenStream.reply, Reply.failed, stream, hnext] at hfailed ⊢
        refine hfollows fun e he ↦ ?_
        rw [he] at hfailed
        cases hfailed

end Lexer

/-! ## Asking again -/

/-- A body of a url that is open is read as a group by a lexer that remembers no word. -/
theorem Scan.scan_none_of_unclosed {t : Classifier} {before : Option Text} {c : Char}
    {text : Text} (h : scan t before c text = .unclosed .bracket) :
    scan t none c text = Scan.group t text := by
  have hdispatch := scan_dispatch t before c text
  rw [h] at hdispatch
  generalize hextent : Extent.unclosed .bracket = e at hdispatch
  cases hdispatch with
  | openParen hspace hc =>
      subst hc
      simp [scan, hspace, single?, openParen, opensUrl]
  | space | single | atWord | word => cases hextent
  | string =>
      unfold Scan.string at hextent
      split at hextent <;> cases hextent
  | comment =>
      unfold Scan.comment at hextent
      split at hextent <;> cases hextent
  | escape =>
      unfold escape at hextent
      dsimp only at hextent
      split at hextent <;> cases hextent

/-- A group is read as one token or as its parenthesis, and never left open. -/
theorem Scan.exists_group (t : Classifier) (text : Text) :
    ∃ kind n, Scan.group t text = .closed kind n ∧ (kind = .leftParen ∨ kind = .brackets) := by
  unfold group
  dsimp only
  split
  · exact ⟨_, _, rfl, .inl rfl⟩
  · exact ⟨_, _, rfl, .inr rfl⟩

namespace Lexer

variable {l after : Lexer} {e : TokenizeError}

/-- What there is to know of a lexer that fails. No token is pending, a construct that is open
starts at its place, and all that it can forget is the last word. -/
theorem exists_unclosed (h : l.next = (.error e, after)) :
    l.returned = [] ∧ e.offset = l.position ∧
      after = { l with word := l.remember e.construct.tokenKind [] } ∧
        ∃ c text, l.rest = c :: text ∧
        scan l.classifier l.word c text = .unclosed e.construct := by
  have hreturned : l.returned = [] := by
    cases hreturned : l.returned with
    | nil => rfl
    | cons token returned =>
        rw [next_of_returned hreturned] at h
        cases h
  rw [next_of_returned_nil hreturned] at h
  unfold scanNext at h
  split at h
  · cases h
  · next c text hrest =>
      split at h
      · cases h
      · next hscan =>
          split at h
          · cases h
          · cases h
            exact ⟨hreturned, rfl, rfl, c, text, hrest, hscan⟩

/-- A lexer that fails on a string or a comment stays as it is. -/
theorem eq_of_next_error (h : l.next = (.error e, after)) (he : e.construct ≠ .bracket) :
    after = l := by
  obtain ⟨-, -, hafter, -⟩ := exists_unclosed h
  rw [hafter]
  cases hconstruct : e.construct with
  | string | comment => rfl
  | bracket => exact absurd hconstruct he

/-- A lexer that a failure leaves as it is fails in the same way however often it is asked. -/
theorem behind_next_of_error (h : l.next = (.error e, l)) (n : Nat) :
    stream.behind l (List.replicate n .next) = l := by
  induction n with
  | zero => rfl
  | succ n ih =>
      rw [List.replicate_succ, TokenStream.behind, List.foldl_cons]
      show stream.behind l.next.2 _ = l
      rw [h]
      exact ih

/-- A token that is closed is read. -/
theorem scanNext_of_closed {c : Char} {text : Text} {kind : TokenKind} {n : Nat}
    (hrest : l.rest = c :: text) (hscan : scan l.classifier l.word c text = .closed kind n) :
    l.scanNext = (.ok (some (l.take kind n false).1), (l.take kind n false).2) := by
  unfold scanNext
  simp only [hrest, hscan]

/-- A lexer that has failed on the body of a url reads its parenthesis when it is asked again. -/
theorem next_of_bracket (h : l.next = (.error e, after)) (he : e.construct = .bracket) :
    ∃ token behind, after.next = (.ok (some token), behind) ∧
      (token.kind = .leftParen ∨ token.kind = .brackets) ∧ token.span.start = e.offset := by
  obtain ⟨hreturned, hoffset, hafter, c, text, hrest, hscan⟩ := exists_unclosed h
  rw [he] at hafter hscan
  obtain ⟨kind, n, hgroup, hkind⟩ := Scan.exists_group l.classifier text
  rw [← Scan.scan_none_of_unclosed hscan] at hgroup
  have hreads : after.scanNext = (.ok (some (after.take kind n false).1),
      (after.take kind n false).2) := by
    subst hafter
    exact scanNext_of_closed hrest hgroup
  have hpending : after.returned = [] := by
    rw [hafter]
    exact hreturned
  have hplace : after.position = e.offset := by
    rw [hafter]
    exact hoffset.symm
  exact ⟨_, _, (next_of_returned_nil hpending).trans hreads, hkind, hplace⟩

/-- A lexer that fails does not move. It fails in the same way however often it is asked again, if
it has failed on a string or a comment; the body of a url, and only that, it reads at the second
time. -/
theorem next_again_iff (h : l.next = (.error e, after)) :
    after.position = l.position ∧
      ((∀ n, (stream.behind after (List.replicate n .next)).next.1 = .error e) ↔
        e.construct ≠ .bracket) ∧
      (e.construct = .bracket → ∃ token behind, after.next = (.ok (some token), behind) ∧
        (token.kind = .leftParen ∨ token.kind = .brackets) ∧ token.span.start = e.offset) := by
  refine ⟨?_, ⟨fun hagain hbracket ↦ ?_, fun he n ↦ ?_⟩, next_of_bracket h⟩
  · obtain ⟨-, -, hafter, -⟩ := exists_unclosed h
    rw [hafter]
  · obtain ⟨token, behind, hnext, -⟩ := next_of_bracket h hbracket
    have herror := hagain 0
    rw [List.replicate_zero, TokenStream.behind, List.foldl_nil, hnext] at herror
    cases herror
  · obtain rfl := eq_of_next_error h he
    rw [behind_next_of_error h, h]

/-- A string that is open is an error again and again. -/
theorem next_again_string :
    ∃ e after, (stream.behind (ofText "a 'b".toList) [.next, .next]).next = (.error e, after) ∧
      after.position = 2 ∧
        ∀ n, (stream.behind after (List.replicate n .next)).next.1 = .error e := by
  have h {e : TokenizeError} {after : Lexer}
      (hnext : (stream.behind (ofText "a 'b".toList) [.next, .next]).next = (.error e, after))
      (he : e.construct ≠ .bracket) :
      after.position = 2 ∧
        ∀ n, (stream.behind after (List.replicate n .next)).next.1 = .error e :=
    ⟨(next_again_iff hnext).1, (next_again_iff hnext).2.1.mpr he⟩
  exact ⟨_, _, rfl, h rfl nofun⟩

/-- The body of a url that is open is an error once. The next call reads its parenthesis. -/
theorem not_next_again :
    ∃ e after, (stream.behind (ofText "url(a".toList) [.next]).next = (.error e, after) ∧
      after.next.1 = .ok (some ⟨.leftParen, ⟨3, 4⟩, ['('], false⟩) :=
  ⟨_, _, rfl, rfl⟩

end Lexer

end Stylesheet
