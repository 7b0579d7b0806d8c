import Mathlib.Data.List.DropRight
import Stylesheet.Proofs.Declared
import Stylesheet.Proofs.Values

/-!
# The important mark

A value ends with an important mark if `!important` stands at its end, in one word or as an
exclamation mark and a word with white space and comments between them (`IsMarked`).
`takeImportant` finds a mark in one word as it is written. For a mark in two words it goes
backwards from the end of the value, and looks for a place from which the text starts with an
exclamation mark; how far it goes is told by another token, which lies as much further to the left
as white space and comments follow the word (`IsTaken`, `takeImportant_iff`).

The two agree on values that are plain (`IsPlain`): the exclamation mark in front of the word
stands alone, and there are tokens enough in front of it. If nothing follows the word, they agree
on no other values.
-/

namespace Stylesheet

/-! ## Exclamation marks -/

namespace Text

/-- `text.hasBang` says that a text starts with an exclamation mark, behind blank characters. -/
def hasBang (text : Text) : Bool :=
  (trimStart text).head? = some '!'

variable {first second : Text}

theorem trimStart_append_of_blank (h : ∀ c ∈ first, c.isBlank = true) :
    trimStart (first ++ second) = trimStart second :=
  List.dropWhile_append_of_pos h

/-- A text with an exclamation mark at its start has it also with more behind it. -/
theorem hasBang_append (h : first.hasBang = true) : hasBang (first ++ second) = true := by
  rw [hasBang, decide_eq_true_eq] at h ⊢
  obtain ⟨rest, hrest⟩ := List.head?_eq_some_iff.mp h
  unfold trimStart at hrest ⊢
  rw [List.dropWhile_append, hrest]
  rfl

/-- An exclamation mark at the start of two texts is at the start of the first one, or of the
second. -/
theorem hasBang_of_append (h : hasBang (first ++ second) = true) :
    first.hasBang = true ∨ second.hasBang = true := by
  rw [hasBang, decide_eq_true_eq] at h
  unfold trimStart at h
  rw [List.dropWhile_append] at h
  split at h
  · exact .inr (decide_eq_true h)
  · next hne =>
      rw [List.head?_append_of_ne_nil _ (mt List.isEmpty_iff.mpr hne)] at h
      exact .inl (decide_eq_true h)

theorem mem_of_hasBang (h : first.hasBang = true) : '!' ∈ first := by
  rw [hasBang, decide_eq_true_eq] at h
  exact (List.dropWhile_sublist _).subset (List.mem_of_head? h)

/-- What is cut off at the end of a text is not the character that it starts with. -/
theorem head?_trim (text : Text) : (trim text).head? = (trimStart text).head? := by
  unfold trim
  cases htrim : trimStart text with
  | nil => rfl
  | cons c rest =>
      have hc : c.isBlank = false := by
        have hhead := List.head?_dropWhile_not Char.isBlank text
        rw [show text.dropWhile Char.isBlank = c :: rest from htrim] at hhead
        simpa using hhead
      have happend : trimStart (rest.reverse ++ [c]) ≠ [] := by
        unfold trimStart
        rw [List.dropWhile_append]
        split
        · simp [hc]
        · simp
      rw [trimEnd, List.reverse_cons]
      unfold trimStart at happend ⊢
      rw [List.dropWhile_append]
      split
      · simp [hc]
      · simp

end Text

namespace Token

/-- `t.isBang` says that a token starts with an exclamation mark. -/
def isBang (t : Token) : Bool := t.text.hasBang

/-- `t.Spells text` says that a token is neither white space nor a comment, and that it is a text
up to the case of letters. -/
structure Spells (t : Token) (text : String) : Prop where
  isTrivia : t.isTrivia = false
  equals : t.text.equalsIgnoringCase text.toList = true

variable {t : Token} {tokens : List Token}

/-- White space and comments do not start with an exclamation mark. -/
theorem IsScanned.isBang_eq_false (h : t.IsScanned) (htrivia : t.isTrivia = true) :
    t.isBang = false := by
  unfold isTrivia TokenKind.isTrivia at htrivia
  split at htrivia
  · next hspace =>
      have hblank : ∀ c ∈ t.text, c.isBlank = true :=
        fun c hc ↦ isBlank_of_is_space (h.forall_isSpace hspace c hc)
      have hnil : Text.trimStart t.text = [] := List.dropWhile_eq_nil_iff.mpr hblank
      rw [isBang, Text.hasBang, hnil]
      rfl
  · next hcomment =>
      have hformed := h.isFormed
      rw [IsFormed, hcomment] at hformed
      obtain ⟨inner, htext⟩ := hformed
      rw [isBang, Text.hasBang, htext]
      rfl
  · cases htrivia

/-- A word without an exclamation mark does not start with one. -/
theorem Spells.isBang_eq_false {text : String} (h : t.Spells text)
    (hbang : '!' ∉ text.toList.map Char.toLower) : t.isBang = false := by
  refine Bool.eq_false_iff.mpr fun hstarts ↦ hbang ?_
  rw [← beq_iff_eq.mp h.equals]
  exact List.mem_map.mpr ⟨'!', Text.mem_of_hasBang hstarts, rfl⟩

/-- Tokens that start with an exclamation mark have a token that does. -/
theorem exists_isBang (h : (spelling tokens).hasBang = true) : ∃ t ∈ tokens, t.isBang = true := by
  induction tokens with
  | nil => cases h
  | cons t tokens ih =>
      rcases Text.hasBang_of_append h with h | h
      · exact ⟨t, List.mem_cons_self, h⟩
      · obtain ⟨u, hu, hbang⟩ := ih h
        exact ⟨u, List.mem_cons_of_mem t hu, hbang⟩

end Token

/-! ## The marks of a value -/

/-- `IsMarked tokens` says that a run ends with an important mark: but for white space and
comments behind it, its end is `!important` in one word, or an exclamation mark, white space and
comments, and the word `important`. -/
inductive IsMarked : List Token → Prop where
  | joined (front trivia : List Token) {mark : Token} (hmark : mark.Spells "!important")
      (htrivia : ∀ u ∈ trivia, u.isTrivia = true) : IsMarked (front ++ mark :: trivia)
  | split (front gap trivia : List Token) {bang word : Token} (hbang : bang.text = ['!'])
      (hgap : ∀ u ∈ gap, u.isTrivia = true)
      (hword : word.Spells "important") (htrivia : ∀ u ∈ trivia, u.isTrivia = true) :
      IsMarked (front ++ bang :: (gap ++ word :: trivia))

/-- One element more at the end of a list is the one before the others. -/
theorem exists_rdrop_succ {α : Type} {l : List α} {i : Nat} (h : i < l.length) :
    ∃ x, l.rdrop i = l.rdrop (i + 1) ++ [x] ∧ l.rtake (i + 1) = x :: l.rtake i := by
  obtain ⟨n, hn⟩ : ∃ n, l.length = i + 1 + n := ⟨l.length - (i + 1), by omega⟩
  have hlt : n < l.length := by omega
  have hsub : l.length - i = n + 1 ∧ l.length - (i + 1) = n := by omega
  refine ⟨l[n], ?_, ?_⟩
  · rw [List.rdrop, List.rdrop, hsub.1, hsub.2, List.take_append_getElem hlt]
  · rw [List.rtake, List.rtake, hsub.1, hsub.2, List.drop_eq_getElem_cons hlt]

/-- `StopsAt tokens body k` says that the last `k` tokens of a value start with an exclamation
mark, and that no white space is `k` tokens before the end of its body. -/
def StopsAt (tokens body : List Token) (k : Nat) : Prop :=
  (Token.spelling (tokens.rtake k)).hasBang = true ∧
    ∃ guard, (body.rdrop k).getLast? = some guard ∧ guard.kind ≠ .space

/-- `searchBack tokens body i` goes on with the search for an exclamation mark behind the last `i`
tokens of a value. -/
def searchBack (tokens body : List Token) (i : Nat) : Text × List Token :=
  spellBack (Token.spelling (tokens.rtake i)) (body.rdrop i).reverse (tokens.rdrop i).reverse

section SearchBack

variable {tokens body : List Token} {i : Nat}

/-- The search ends at the last token of the body that is left. -/
theorem searchBack_last (h : i + 1 = body.length) :
    searchBack tokens body i = (Token.spelling (tokens.rtake i), (tokens.rdrop i).reverse) := by
  have hone : (body.rdrop i).reverse.length = 1 := by
    rw [List.length_reverse, List.rdrop, List.length_take]
    omega
  obtain ⟨guard, hguard⟩ := List.length_eq_one_iff.mp hone
  rw [searchBack, hguard]
  unfold spellBack
  rfl

/-- As long as two tokens of the body are left, the search ends at a place to stop at and takes
one token more at any other. -/
theorem searchBack_step (tokens : List Token) (h : i + 1 < body.length)
    (hlength : body.length ≤ tokens.length) :
    (StopsAt tokens body i →
      searchBack tokens body i = (Token.spelling (tokens.rtake i), (tokens.rdrop i).reverse)) ∧
    (¬StopsAt tokens body i → searchBack tokens body i = searchBack tokens body (i + 1)) := by
  obtain ⟨guard, hguard, -⟩ := exists_rdrop_succ (l := body) (i := i) (by omega)
  obtain ⟨next, hnext, -⟩ := exists_rdrop_succ (l := body) (i := i + 1) (by omega)
  obtain ⟨t, ht, htake⟩ := exists_rdrop_succ (l := tokens) (i := i) (by omega)
  have hstops : StopsAt tokens body i ↔
      (Token.spelling (tokens.rtake i)).hasBang = true ∧ guard.kind ≠ .space := by
    rw [StopsAt, hguard, List.getLast?_concat]
    simp
  have hback : searchBack tokens body i =
      if (Token.spelling (tokens.rtake i)).hasBang = true ∧ guard.kind ≠ .space then
        (Token.spelling (tokens.rtake i), (tokens.rdrop i).reverse)
      else searchBack tokens body (i + 1) := by
    rw [searchBack, searchBack, hguard, hnext, ht, htake]
    simp [spellBack, Text.hasBang]
  rw [hback, hstops]
  exact ⟨fun h ↦ if_pos h, fun h ↦ if_neg h⟩

/-- Going back ends at the first place to stop at, or at the first token of the body. -/
theorem spellBack_eq (tokens : List Token) (hbody : body ≠ [])
    (hlength : body.length ≤ tokens.length) :
    ∃ k, k < body.length ∧ spellBack [] body.reverse tokens.reverse =
        (Token.spelling (tokens.rtake k), (tokens.rdrop k).reverse) ∧
      (k + 1 = body.length ∨ StopsAt tokens body k) ∧ ∀ j < k, ¬StopsAt tokens body j := by
  -- Behind `i` tokens, none of which is a place to stop at.
  suffices h : ∀ steps i, i + steps + 1 = body.length → (∀ j < i, ¬StopsAt tokens body j) →
      ∃ k, k < body.length ∧ searchBack tokens body i = (Token.spelling (tokens.rtake k),
        (tokens.rdrop k).reverse) ∧ (k + 1 = body.length ∨ StopsAt tokens body k) ∧
          ∀ j < k, ¬StopsAt tokens body j by
    obtain ⟨steps, hsteps⟩ :=
      Nat.exists_eq_add_one_of_ne_zero (mt List.length_eq_zero_iff.mp hbody)
    simpa [searchBack] using h steps 0 (by omega) nofun
  intro steps
  induction steps with
  | zero => exact fun i hi hbefore ↦ ⟨i, by omega, searchBack_last hi, .inl hi, hbefore⟩
  | succ steps ih =>
      intro i hi hbefore
      obtain ⟨hstop, hmore⟩ := searchBack_step tokens (i := i) (by omega) hlength
      by_cases h : StopsAt tokens body i
      · exact ⟨i, by omega, hstop h, .inr h, hbefore⟩
      · rw [hmore h]
        refine ih (i + 1) (by omega) fun j hj ↦ ?_
        rcases Nat.lt_succ_iff_lt_or_eq.mp hj with hj | rfl
        · exact hbefore j hj
        · exact h

end SearchBack

/-! ## The last token of a kind -/

section Last

variable {p : Token → Bool} {front front' tail tail' : List Token} {x x' : Token}

/-- Something holds of all tokens of a run, or there is a last one of which it does not hold. -/
theorem exists_last (p : Token → Bool) (tokens : List Token) :
    (∀ u ∈ tokens, p u = true) ∨
      ∃ front x tail, tokens = front ++ x :: tail ∧ p x = false ∧ ∀ u ∈ tail, p u = true := by
  induction tokens with
  | nil => exact .inl (List.forall_mem_nil _)
  | cons t rest ih =>
      rcases ih with hall | ⟨front, x, tail, rfl, hx, htail⟩
      · cases ht : p t with
        | true => exact .inl (List.forall_mem_cons.mpr ⟨ht, hall⟩)
        | false => exact .inr ⟨[], t, rest, rfl, ht, hall⟩
      · exact .inr ⟨t :: front, x, tail, rfl, hx, htail⟩

theorem splitTrailing_append_cons (front : List Token) (hx : p x = false)
    (htail : ∀ u ∈ tail, p u = true) :
    Token.splitTrailing p (front ++ x :: tail) = (front ++ [x], tail) := by
  rw [List.append_cons]
  refine Token.splitTrailing_append_of_forall htail fun v hv ↦ ?_
  rw [List.getLast?_concat, Option.mem_some] at hv
  exact hv ▸ hx

/-- There is only one such token. -/
theorem last_unique (h : front ++ x :: tail = front' ++ x' :: tail') (hx : p x = false)
    (hx' : p x' = false) (htail : ∀ u ∈ tail, p u = true) (htail' : ∀ u ∈ tail', p u = true) :
    front = front' ∧ x = x' ∧ tail = tail' := by
  have hsplit := splitTrailing_append_cons front' hx' htail'
  rw [← h, splitTrailing_append_cons front hx htail, Prod.mk.injEq] at hsplit
  obtain ⟨hfront, hlast⟩ := List.append_inj' hsplit.1 rfl
  exact ⟨hfront, List.singleton_injective hlast, hsplit.2⟩

end Last

/-! ## What is taken for a mark -/

section Taken

variable {front gap trivia tail tokens : List Token} {mark bang word : Token}

theorem Token.Spells.ne {v w : String} {t : Token} (h : t.Spells v)
    (hne : v.toList.map Char.toLower ≠ w.toList.map Char.toLower) :
    ¬t.text.equalsIgnoringCase w.toList = true :=
  fun hequals ↦ hne ((beq_iff_eq.mp h.equals).symm.trans (beq_iff_eq.mp hequals))

/-- A mark in one word is taken with the white space in front of it. -/
theorem takeImportant_joined (front : List Token) (hmark : mark.Spells "!important")
    (htrivia : ∀ u ∈ trivia, u.isTrivia = true) :
    (takeImportant (front ++ mark :: trivia)).important = true ∧
      ∀ spelled ∈ (takeImportant (front ++ mark :: trivia)).spelling, ∃ spaces, spaces <:+ front ∧
        (∀ u ∈ spaces, u.kind = .space) ∧
        spelled = Token.spelling (spaces ++ mark :: trivia) := by
  have htake : takeImportant (front ++ mark :: trivia) =
      let split := Token.splitTrailing (·.is .space) front
      let spelled := Token.spelling split.2 ++ mark.text ++ Token.spelling trivia
      ⟨split.1, true, if spelled = usualMark then none else some spelled⟩ := by
    unfold takeImportant
    rw [splitTrailing_append_cons front hmark.isTrivia htrivia]
    simp only [List.getLast?_concat, hmark.equals, if_true, List.dropLast_concat]
  have happend := Token.splitTrailing_append (·.is .space) front
  have hspaces := Token.forall_mem_splitTrailing_snd (·.is .space) front
  rw [htake]
  generalize Token.splitTrailing (·.is .space) front = split at happend hspaces
  obtain ⟨kept, spaces⟩ := split
  refine ⟨rfl,
    fun spelled hspelled ↦ ⟨spaces, ⟨kept, happend⟩, fun u hu ↦ beq_iff_eq.mp (hspaces u hu), ?_⟩⟩
  simp only [Option.mem_def] at hspelled
  split at hspelled
  · cases hspelled
  · rw [← Option.some.inj hspelled]
    simp

/-- Behind the word of a mark in two words the value is searched, and cut where the search ends if
an exclamation mark is there. -/
theorem takeImportant_word (front : List Token) (hword : word.Spells "important")
    (htrivia : ∀ u ∈ trivia, u.isTrivia = true) :
    let tokens := front ++ word :: trivia
    ∃ k ≤ front.length, (k = front.length ∨ StopsAt tokens (front ++ [word]) k) ∧
      (∀ j < k, ¬StopsAt tokens (front ++ [word]) j) ∧
      takeImportant tokens = if (Token.spelling (tokens.rtake k)).hasBang = true then
        ⟨tokens.rdrop k, true, some (Token.spelling (tokens.rtake k))⟩ else { tokens } := by
  intro tokens
  have hlength : (front ++ [word]).length = front.length + 1 := by simp
  obtain ⟨k, hk, hback, hends, hbefore⟩ :=
    spellBack_eq tokens (List.concat_ne_nil word front) (by simp [tokens])
  refine ⟨k, by omega, hends.imp_left (by omega), hbefore, ?_⟩
  have hjoined : ¬word.text.equalsIgnoringCase "!important".toList = true := hword.ne (by decide)
  unfold takeImportant
  rw [splitTrailing_append_cons front hword.isTrivia htrivia]
  simp only [List.getLast?_concat, hjoined, hword.equals, if_true, hback, Text.head?_trim,
    Text.hasBang, decide_eq_true_eq, List.reverse_reverse]
  rfl

/-- Without one of the two words at its end a value is not marked as important. -/
theorem takeImportant_other (front : List Token) (htoken : mark.isTrivia = false)
    (hjoined : ¬mark.Spells "!important") (hword : ¬mark.Spells "important")
    (htrivia : ∀ u ∈ trivia, u.isTrivia = true) :
    takeImportant (front ++ mark :: trivia) = { tokens := front ++ mark :: trivia } := by
  have hequals {text : String} (h : ¬mark.Spells text) :
      ¬mark.text.equalsIgnoringCase text.toList = true :=
    fun heq ↦ h ⟨htoken, heq⟩
  unfold takeImportant
  rw [splitTrailing_append_cons front htoken htrivia]
  simp only [List.getLast?_concat, hequals hjoined, hequals hword]
  rfl

theorem takeImportant_trivia (h : ∀ u ∈ tokens, u.isTrivia = true) :
    takeImportant tokens = { tokens } := by
  have hsplit : Token.splitTrailing Token.isTrivia ([] ++ tokens) = ([], tokens) :=
    Token.splitTrailing_append_of_forall h nofun
  unfold takeImportant
  rw [show Token.splitTrailing Token.isTrivia tokens = ([], tokens) from hsplit]
  rfl

/-- `IsTaken tokens` says what is taken for an important mark: `!important` in one word, or the
word `important` if a search from it finds an exclamation mark. It is found at the start of the
last `k` tokens of the value, and the token `k` places before the end of the body of the value is
no white space or the first one. -/
inductive IsTaken : List Token → Prop where
  | joined (front trivia : List Token) {mark : Token} (hmark : mark.Spells "!important")
      (htrivia : ∀ u ∈ trivia, u.isTrivia = true) : IsTaken (front ++ mark :: trivia)
  | split (front trivia : List Token) {word : Token} (hword : word.Spells "important")
      (htrivia : ∀ u ∈ trivia, u.isTrivia = true) (k : Nat) {left : List Token} {guard : Token}
      (hleft : (front ++ [word]).rdrop k = left ++ [guard])
      (hguard : left = [] ∨ guard.kind ≠ .space)
      (hbang : (Token.spelling ((front ++ word :: trivia).rtake k)).hasBang = true) :
      IsTaken (front ++ word :: trivia)

theorem isTaken_of_important (h : (takeImportant tokens).important = true) : IsTaken tokens := by
  rcases exists_last Token.isTrivia tokens with hall | ⟨front, mark, trivia, rfl, htoken, htrivia⟩
  · rw [takeImportant_trivia hall] at h
    cases h
  · by_cases hjoined : mark.Spells "!important"
    · exact .joined front trivia hjoined htrivia
    by_cases hword : mark.Spells "important"
    · obtain ⟨k, hk, hends, -, htake⟩ := takeImportant_word front hword htrivia
      obtain ⟨guard, hguard, -⟩ := exists_rdrop_succ (l := front ++ [mark]) (i := k)
        (by simp; omega)
      rw [htake] at h
      split at h
      · next hbang =>
          refine .split front trivia hword htrivia k hguard (hends.imp ?_ ?_) hbang
          · rintro rfl
            rw [List.rdrop, List.length_append, List.length_singleton, Nat.sub_self,
              List.take_zero]
          · rintro ⟨-, u, hu, hspace⟩
            rw [hguard, List.getLast?_concat] at hu
            rwa [Option.some.inj hu]
      · cases h
    · rw [takeImportant_other front htoken hjoined hword htrivia] at h
      cases h

theorem important_of_isTaken (h : IsTaken tokens) : (takeImportant tokens).important = true := by
  rcases h with ⟨front, trivia, hmark, htrivia⟩ |
    @⟨front, trivia, word, hword, htrivia, k, left, guard, hleft, hguard, hbang⟩
  · exact (takeImportant_joined front hmark htrivia).1
  · -- The search ends where it stops first, or goes as far as it can.
    obtain ⟨i, hi, hends, hbefore, htake⟩ := takeImportant_word front hword htrivia
    have hlength := congrArg List.length hleft
    simp only [List.rdrop, List.length_take, List.length_append, List.length_singleton] at hlength
    have hstops : k = front.length ∨ StopsAt (front ++ word :: trivia) (front ++ [word]) k := by
      rcases hguard with rfl | hguard
      · exact .inl (by simp at hlength; omega)
      · exact .inr ⟨hbang, guard, by rw [hleft, List.getLast?_concat], hguard⟩
    have hle : i ≤ k := by
      by_contra hlt
      rcases hstops with rfl | hstops
      · omega
      · exact hbefore k (by omega) hstops
    have hfound : (Token.spelling ((front ++ word :: trivia).rtake i)).hasBang = true := by
      rcases hends with rfl | hends
      · obtain rfl : k = front.length := by omega
        exact hbang
      · exact hends.1
    rw [htake, if_pos hfound]

/-- Exactly those values are marked as important that have what is taken for a mark. -/
theorem takeImportant_iff (tokens : List Token) :
    (takeImportant tokens).important = true ↔ IsTaken tokens :=
  ⟨isTaken_of_important, important_of_isTaken⟩

/-! ## Plain values -/

/-- `IsPlain tokens` says of a value whose last word is `important` that the last token in front
of it that starts with an exclamation mark, if there is one, is a lone mark with white space and
comments behind it exactly if more tokens are in front of it than white space and comments behind
the word, and that the token which many places in front of it is no white space unless nothing
follows the word. -/
def IsPlain (tokens : List Token) : Prop :=
  ∀ (front gap trivia : List Token) (bang word : Token), tokens =
    front ++ bang :: (gap ++ word :: trivia) → bang.isBang = true →
      (∀ u ∈ gap, u.isBang = false) → word.Spells "important" →
    (∀ u ∈ trivia, u.isTrivia = true) →
      (bang.text = ['!'] ∧ (∀ u ∈ gap, u.isTrivia = true) ↔ trivia.length < front.length) ∧
      (trivia = [] ∨ ∀ guard ∈ (front.rdrop trivia.length).getLast?, guard.kind ≠ .space)

/-- The end of a run is the end of its second part if that is long enough. -/
theorem rtake_append_of_le (first second : List Token) {j : Nat} (h : j ≤ second.length) :
    (first ++ second).rtake j = second.rtake j := by
  rw [List.rtake, List.rtake, List.length_append, Nat.add_sub_assoc h, List.drop_append,
    List.drop_eq_nil_of_le (by omega), List.nil_append, Nat.add_sub_cancel_left]

/-- The end of a value from the last exclamation mark on starts with it, and no smaller end starts
with one. -/
theorem hasBang_rtake (front : List Token) (bang : Token) (htail : ∀ u ∈ tail, u.isBang = false) :
    (front ++ bang :: tail).rtake (tail.length + 1) = bang :: tail ∧
      ∀ j, (Token.spelling ((front ++ bang :: tail).rtake j)).hasBang = true →
        tail.length < j := by
  refine ⟨?_, fun j hj ↦ ?_⟩
  · have hle : tail.length + 1 ≤ (bang :: tail).length := Nat.le_refl _
    rw [rtake_append_of_le front (bang :: tail) hle, List.rtake, List.length_cons, Nat.sub_self,
      List.drop_zero]
  · by_contra hle
    obtain ⟨u, hu, hstarts⟩ := Token.exists_isBang hj
    rw [List.append_cons, rtake_append_of_le _ tail (by omega)] at hu
    rw [htail u (List.mem_of_mem_drop hu)] at hstarts
    cases hstarts

/-- White space in front of an exclamation mark does not hide it. -/
theorem hasBang_spaces {spaces : List Token} (hspaces : ∀ u ∈ spaces, u.kind = .space)
    (hscanned : ∀ u ∈ spaces, u.IsScanned) (hbang : bang.isBang = true) :
    (Token.spelling (spaces ++ bang :: tail)).hasBang = true := by
  have hblank : ∀ c ∈ Token.spelling spaces, c.isBlank = true := by
    intro c hc
    obtain ⟨u, hu, hc⟩ := List.mem_flatMap.mp hc
    exact isBlank_of_is_space ((hscanned u hu).forall_isSpace (hspaces u hu) c hc)
  rw [Token.spelling_append, Text.hasBang, Text.trimStart_append_of_blank hblank]
  exact Text.hasBang_append hbang

/-- A search that has come to an exclamation mark without stopping has gone on over white space,
where nothing follows the word. -/
theorem exists_spaces_rtake (hbang : bang.isBang = true)
    (hscanned : ∀ u ∈ tokens, u.IsScanned) {i k : Nat} (hi : tokens.rtake i = bang :: tail)
    (hik : i ≤ k) (hk : k < tokens.length) (hbefore : ∀ j < k, ¬StopsAt tokens tokens j) :
    ∃ spaces, (∀ u ∈ spaces, u.kind = .space) ∧ tokens.rtake k = spaces ++ bang :: tail := by
  induction k, hik using Nat.le_induction with
  | base => exact ⟨[], List.forall_mem_nil _, hi⟩
  | succ k hik ih =>
      obtain ⟨spaces, hspaces, hrtake⟩ := ih (by omega) fun j hj ↦ hbefore j (by omega)
      have hfound : (Token.spelling (tokens.rtake k)).hasBang = true := by
        rw [hrtake]
        exact hasBang_spaces hspaces
          (fun u hu ↦ hscanned u (List.mem_of_mem_drop (hrtake ▸ List.mem_append_left _ hu)))
            hbang
      obtain ⟨guard, hrdrop, hnext⟩ := exists_rdrop_succ (l := tokens) (i := k) (by omega)
      have hguard : guard.kind = .space := by
        by_contra hne
        exact hbefore k (Nat.lt_succ_self k) ⟨hfound, guard,
          by rw [hrdrop, List.getLast?_concat], hne⟩
      exact ⟨guard :: spaces, List.forall_mem_cons.mpr ⟨hguard, hspaces⟩,
        by rw [hnext, hrtake, List.cons_append]⟩

/-- The search stops at the last exclamation mark if the token that is as many places in front of
it as white space and comments follow the word is no white space. -/
theorem stopsAt_bang (hbang : bang.isBang = true)
    (htail : ∀ u ∈ gap ++ word :: trivia, u.isBang = false)
    (hlength : trivia.length < front.length)
    (hguard : ∀ guard ∈ (front.rdrop trivia.length).getLast?, guard.kind ≠ .space) :
    StopsAt (front ++ bang :: (gap ++ word :: trivia)) (front ++ bang :: gap ++ [word])
      ((gap ++ word :: trivia).length + 1) := by
  obtain ⟨last, hlast, -⟩ := exists_rdrop_succ hlength
  have hget : (front.rdrop trivia.length).getLast? = some last := by
    rw [hlast, List.getLast?_concat]
  have hrdrop : (front ++ bang :: gap ++ [word]).rdrop ((gap ++ word :: trivia).length + 1) =
      front.rdrop trivia.length := by
    rw [List.rdrop, List.rdrop, List.append_assoc, List.take_append_of_le_length (by simp)]
    congr 1
    simp
    omega
  refine ⟨?_, last, by rw [hrdrop, hget], hguard last hget⟩
  rw [(hasBang_rtake front bang htail).1]
  exact Text.hasBang_append hbang

/-- The last exclamation mark in front of the word is found if there are tokens enough in front of
it. Only white space in front of it is taken with it. -/
theorem takeImportant_bang (hbang : bang.isBang = true)
    (htail : ∀ u ∈ gap ++ word :: trivia, u.isBang = false) (hword : word.Spells "important")
    (htrivia : ∀ u ∈ trivia, u.isTrivia = true) (hlength : trivia.length < front.length)
    (hguard : trivia = [] ∨ ∀ guard ∈ (front.rdrop trivia.length).getLast?, guard.kind ≠ .space)
    (hscanned : ∀ u ∈ front ++ bang :: (gap ++ word :: trivia), u.IsScanned) :
    let tokens := front ++ bang :: (gap ++ word :: trivia)
    ∃ spaces, (∀ u ∈ spaces, u.kind = .space) ∧
      spaces ++ bang :: (gap ++ word :: trivia) <:+ tokens ∧
      (takeImportant tokens).important = true ∧
      (takeImportant tokens).spelling =
        some (Token.spelling (spaces ++ bang :: (gap ++ word :: trivia))) := by
  intro tokens
  have htokens : front ++ bang :: gap ++ word :: trivia = tokens := by simp [tokens]
  obtain ⟨k, hk, hends, hbefore, htake⟩ := takeImportant_word (front ++ bang :: gap) hword htrivia
  rw [htokens] at hends hbefore htake
  obtain ⟨hwhole, hleast⟩ := hasBang_rtake front bang htail
  have hreached : (gap ++ word :: trivia).length + 1 ≤ k := by
    rcases hends with rfl | hstops
    · simp
      omega
    · exact hleast k hstops.1
  have hspaces : ∃ spaces, (∀ u ∈ spaces, u.kind = .space) ∧
      tokens.rtake k = spaces ++ bang :: (gap ++ word :: trivia) := by
    rcases hguard with rfl | hguard
    · rw [show front ++ bang :: gap ++ [word] = tokens from htokens] at hbefore
      exact exists_spaces_rtake hbang hscanned hwhole hreached (by simp at hk ⊢; omega) hbefore
    · -- The search stops at the exclamation mark itself.
      obtain rfl : k = (gap ++ word :: trivia).length + 1 := by
        by_contra hne
        exact hbefore _ (by omega) (stopsAt_bang hbang htail hlength hguard)
      exact ⟨[], List.forall_mem_nil _, hwhole⟩
  obtain ⟨spaces, hall, hrtake⟩ := hspaces
  have hfound : (Token.spelling (tokens.rtake k)).hasBang = true := by
    rw [hrtake]
    refine hasBang_spaces hall (fun u hu ↦ hscanned u ?_) hbang
    exact List.mem_of_mem_drop (hrtake ▸ List.mem_append_left _ hu)
  rw [if_pos hfound] at htake
  refine ⟨spaces, hall, hrtake ▸ List.drop_suffix _ _, by rw [htake], by rw [htake, hrtake]⟩

/-- With too few tokens in front of it the last exclamation mark is out of reach. -/
theorem takeImportant_bang_le (htail : ∀ u ∈ gap ++ word :: trivia, u.isBang = false)
    (hword : word.Spells "important") (htrivia : ∀ u ∈ trivia, u.isTrivia = true)
    (hlength : front.length ≤ trivia.length) :
    let tokens := front ++ bang :: (gap ++ word :: trivia)
    takeImportant tokens = { tokens } := by
  intro tokens
  have htokens : front ++ bang :: gap ++ word :: trivia = tokens := by simp [tokens]
  obtain ⟨k, hk, -, -, htake⟩ := takeImportant_word (front ++ bang :: gap) hword htrivia
  rw [htokens] at htake
  obtain ⟨-, hleast⟩ := hasBang_rtake front bang htail
  rw [htake, if_neg]
  intro hfound
  have := hleast k hfound
  simp at this hk
  omega

/-- Without an exclamation mark nothing is found. -/
theorem takeImportant_of_forall (h : ∀ u ∈ tokens, u.isBang = false)
    (hword : word.Spells "important") (htrivia : ∀ u ∈ trivia, u.isTrivia = true)
    (htokens : tokens = front ++ word :: trivia) : takeImportant tokens = { tokens } := by
  obtain ⟨k, -, -, -, htake⟩ := takeImportant_word front hword htrivia
  rw [← htokens] at htake
  rw [htake, if_neg]
  intro hfound
  obtain ⟨u, hu, hbang⟩ := Token.exists_isBang hfound
  rw [h u (List.mem_of_mem_drop hu)] at hbang
  cases hbang

/-! ## The marks of plain values -/

/-- The word at the end of a marked value is one of the two. -/
theorem IsMarked.last (h : IsMarked tokens) (htokens : tokens = front ++ mark :: trivia)
    (hmark : mark.isTrivia = false) (htrivia : ∀ u ∈ trivia, u.isTrivia = true) :
    mark.Spells "!important" ∨ mark.Spells "important" ∧ ∃ front' gap bang,
      front = front' ++ bang :: gap ∧ bang.text = ['!'] ∧ ∀ u ∈ gap, u.isTrivia = true := by
  cases h with
  | joined front' trivia' hmark' htrivia' =>
      obtain ⟨-, rfl, -⟩ := last_unique htokens hmark'.isTrivia hmark htrivia' htrivia
      exact .inl hmark'
  | @split front' gap trivia' bang word hbang hgap hword htrivia' =>
      have hassoc : front' ++ bang :: (gap ++ word :: trivia') =
          (front' ++ bang :: gap) ++ word :: trivia' := by simp
      rw [hassoc] at htokens
      obtain ⟨rfl, rfl, -⟩ := last_unique htokens hword.isTrivia hmark htrivia' htrivia
      exact .inr ⟨hword, front', gap, bang, rfl, hbang, hgap⟩

/-- A value with an exclamation mark in front of its last word is marked if the mark is alone and
next to the word. -/
theorem isMarked_bang_iff (hbang : bang.isBang = true) (hgap : ∀ u ∈ gap, u.isBang = false)
    (hword : word.Spells "important") (htrivia : ∀ u ∈ trivia, u.isTrivia = true)
    (hscanned : ∀ u ∈ front ++ bang :: (gap ++ word :: trivia), u.IsScanned) :
    IsMarked (front ++ bang :: (gap ++ word :: trivia)) ↔
      bang.text = ['!'] ∧ ∀ u ∈ gap, u.isTrivia = true := by
  constructor
  · intro h
    have htokens : front ++ bang :: (gap ++ word :: trivia) =
        (front ++ bang :: gap) ++ word :: trivia := by simp
    rcases h.last htokens hword.isTrivia htrivia with hjoined | ⟨-, h⟩
    · exact absurd hword.equals (hjoined.ne (by decide))
    · obtain ⟨front', gap', bang', heq, htext, htrivia'⟩ := h
      have hbang' : bang'.isBang = true := by
        rw [Token.isBang, htext]
        rfl
      have hgap' : ∀ u ∈ gap', u.isBang = false := fun u hu ↦
        (hscanned u (by
          rw [List.append_cons, ← List.append_assoc, ← List.append_cons, heq]
          simp [hu])).isBang_eq_false (htrivia' u hu)
      have hnot {t : Token} {b : Bool} (h : t.isBang = b) : (!t.isBang) = !b := by rw [h]
      obtain ⟨-, rfl, rfl⟩ := last_unique (p := (!·.isBang)) heq (hnot hbang) (hnot hbang')
        (fun u hu ↦ hnot (hgap u hu)) fun u hu ↦ hnot (hgap' u hu)
      exact ⟨htext, htrivia'⟩
  · rintro ⟨htext, hall⟩
    exact .split front gap trivia htext hall hword htrivia

/-- `IsSpelled spelled tokens` says that a text is the end of a value, and that without its white
space and its comments it is `!important` up to the case of letters. -/
def IsSpelled (spelled : Text) (tokens : List Token) : Prop :=
  ∃ mark, mark <:+ tokens ∧ spelled = Token.spelling mark ∧
    (Token.spelling (mark.filter (!·.isTrivia))).equalsIgnoringCase "!important".toList = true

theorem filter_trivia_append (spaces : List Token) (hspaces : ∀ u ∈ spaces, u.isTrivia = true)
    (more : List Token) : (spaces ++ more).filter (!·.isTrivia) = more.filter (!·.isTrivia) := by
  rw [List.filter_append, List.filter_eq_nil_iff.mpr fun u hu ↦ by simp [hspaces u hu],
    List.nil_append]

/-- A mark in one word is spelled with white space and comments around it. -/
theorem isSpelled_joined {spaces : List Token} (hspaces : ∀ u ∈ spaces, u.isTrivia = true)
    (hmark : mark.Spells "!important") (htrivia : ∀ u ∈ trivia, u.isTrivia = true)
    (hsuffix : spaces ++ mark :: trivia <:+ tokens) :
    IsSpelled (Token.spelling (spaces ++ mark :: trivia)) tokens := by
  refine ⟨_, hsuffix, rfl, ?_⟩
  have htail := filter_trivia_append trivia htrivia []
  rw [List.append_nil] at htail
  rw [filter_trivia_append spaces hspaces, List.filter_cons_of_pos (by simp [hmark.isTrivia]),
    htail]
  simpa using hmark.equals

/-- A mark in two words is spelled with white space and comments around them and between them. -/
theorem isSpelled_split {spaces : List Token} (hspaces : ∀ u ∈ spaces, u.isTrivia = true)
    (hbang : bang.text = ['!']) (hbangTrivia : bang.isTrivia = false)
    (hgap : ∀ u ∈ gap, u.isTrivia = true) (hword : word.Spells "important")
    (htrivia : ∀ u ∈ trivia, u.isTrivia = true)
    (hsuffix : spaces ++ bang :: (gap ++ word :: trivia) <:+ tokens) :
    IsSpelled (Token.spelling (spaces ++ bang :: (gap ++ word :: trivia))) tokens := by
  refine ⟨_, hsuffix, rfl, ?_⟩
  have htail := filter_trivia_append trivia htrivia []
  rw [List.append_nil] at htail
  rw [filter_trivia_append spaces hspaces, List.filter_cons_of_pos (by simp [hbangTrivia]),
    filter_trivia_append gap hgap, List.filter_cons_of_pos (by simp [hword.isTrivia]), htail]
  have hequals := beq_iff_eq.mp hword.equals
  simp only [Token.spelling_cons, hbang, List.filter_nil, Token.spelling_nil, List.append_nil,
    List.singleton_append, Text.equalsIgnoringCase, List.map_cons, hequals]
  rfl

/-- `TellsMark tokens` says that a value is marked as important exactly if it has a mark, and that
the recorded spelling is one. -/
structure TellsMark (tokens : List Token) : Prop where
  important_iff : (takeImportant tokens).important = true ↔ IsMarked tokens
  spelling : ∀ spelled ∈ (takeImportant tokens).spelling, IsSpelled spelled tokens

theorem tellsMark_of_not_isMarked (htake : takeImportant tokens = { tokens })
    (hnot : ¬IsMarked tokens) : TellsMark tokens := by
  constructor <;> rw [htake]
  · exact ⟨fun h ↦ absurd h Bool.false_ne_true, fun h ↦ absurd h hnot⟩
  · exact nofun

theorem tellsMark_joined (front : List Token) (hmark : mark.Spells "!important")
    (htrivia : ∀ u ∈ trivia, u.isTrivia = true) : TellsMark (front ++ mark :: trivia) := by
  obtain ⟨himportant, hspelled⟩ := takeImportant_joined front hmark htrivia
  refine ⟨⟨fun _ ↦ .joined front trivia hmark htrivia, fun _ ↦ himportant⟩,
    fun spelled hsome ↦ ?_⟩
  obtain ⟨spaces, ⟨kept, rfl⟩, hspaces, rfl⟩ := hspelled spelled hsome
  refine isSpelled_joined (fun u hu ↦ ?_) hmark htrivia ⟨kept, (List.append_assoc ..).symm⟩
  rw [Token.isTrivia, hspaces u hu]
  rfl

/-- Behind the last exclamation mark no token starts with one. -/
theorem isBang_eq_false_of_mem_tail (hgap : ∀ u ∈ gap, u.isBang = false)
    (hword : word.Spells "important") (htrivia : ∀ u ∈ trivia, u.isTrivia = true)
    (hscanned : ∀ u ∈ trivia, u.IsScanned) : ∀ u ∈ gap ++ word :: trivia, u.isBang = false := by
  intro u hu
  rcases List.mem_append.mp hu with hu | hu
  · exact hgap u hu
  rcases List.mem_cons.mp hu with rfl | hu
  · exact hword.isBang_eq_false (by decide)
  · exact (hscanned u hu).isBang_eq_false (htrivia u hu)

theorem tellsMark_bang (h : IsPlain (front ++ bang :: (gap ++ word :: trivia)))
    (hbang : bang.isBang = true) (hgap : ∀ u ∈ gap, u.isBang = false)
    (hword : word.Spells "important") (htrivia : ∀ u ∈ trivia, u.isTrivia = true)
    (hscanned : ∀ u ∈ front ++ bang :: (gap ++ word :: trivia), u.IsScanned) :
    TellsMark (front ++ bang :: (gap ++ word :: trivia)) := by
  obtain ⟨hiff, hguard⟩ := h front gap trivia bang word rfl hbang hgap hword htrivia
  have htail := isBang_eq_false_of_mem_tail hgap hword htrivia
    fun u hu ↦ hscanned u (by simp [hu])
  have hmarked := isMarked_bang_iff hbang hgap hword htrivia hscanned
  by_cases hlength : trivia.length < front.length
  · obtain ⟨spaces, hspaces, hsuffix, himportant, hspelling⟩ :=
      takeImportant_bang hbang htail hword htrivia hlength hguard hscanned
    obtain ⟨htext, hgapTrivia⟩ := hiff.mpr hlength
    have hbangTrivia : bang.isTrivia = false := by
      refine Bool.eq_false_iff.mpr fun htrue ↦ ?_
      rw [(hscanned bang (by simp)).isBang_eq_false htrue] at hbang
      cases hbang
    refine ⟨⟨fun _ ↦ hmarked.mpr (hiff.mpr hlength), fun _ ↦ himportant⟩, fun spelled hsome ↦ ?_⟩
    obtain rfl := Option.some.inj (hspelling.symm.trans hsome)
    refine isSpelled_split (fun u hu ↦ ?_) htext hbangTrivia hgapTrivia hword htrivia hsuffix
    rw [Token.isTrivia, hspaces u hu]
    rfl
  · exact tellsMark_of_not_isMarked
      (takeImportant_bang_le htail hword htrivia (Nat.le_of_not_lt hlength)) fun h ↦
      hlength (hiff.mp (hmarked.mp h))

/-- A value whose last word is `important`, without an exclamation mark, has no mark. -/
theorem tellsMark_of_forall (hfront : ∀ u ∈ front, u.isBang = false)
    (hword : word.Spells "important") (htrivia : ∀ u ∈ trivia, u.isTrivia = true)
    (hscanned : ∀ u ∈ front ++ word :: trivia, u.IsScanned) :
    TellsMark (front ++ word :: trivia) := by
  have hnone := isBang_eq_false_of_mem_tail hfront hword htrivia
    fun u hu ↦ hscanned u (by simp [hu])
  refine tellsMark_of_not_isMarked (takeImportant_of_forall hnone hword htrivia rfl)
    fun hmarked ↦ ?_
  obtain hjoined | ⟨-, front', gap, bang, rfl, hbang, -⟩ :=
    hmarked.last rfl hword.isTrivia htrivia
  · exact absurd hword.equals (hjoined.ne (by decide))
  · have hstarts := hfront bang (by simp)
    rw [Token.isBang, hbang] at hstarts
    cases hstarts

/-- On plain values what is taken for a mark is a mark, and its spelling is one. -/
theorem tellsMark_of_isPlain (hscanned : ∀ u ∈ tokens, u.IsScanned) (h : IsPlain tokens) :
    TellsMark tokens := by
  rcases exists_last Token.isTrivia tokens with hall | ⟨front, mark, trivia, rfl, htoken, htrivia⟩
  · refine tellsMark_of_not_isMarked (takeImportant_trivia hall) fun hmarked ↦ ?_
    cases hmarked with
    | joined front trivia hmark =>
        have := hmark.isTrivia
        simp [hall] at this
    | split front gap trivia hbang hgap hword =>
        have := hword.isTrivia
        simp [hall] at this
  by_cases hjoined : mark.Spells "!important"
  · exact tellsMark_joined front hjoined htrivia
  by_cases hword : mark.Spells "important"
  · rcases exists_last (!·.isBang) front with hnone | ⟨front, bang, gap, rfl, hbang, hgap⟩
    · exact tellsMark_of_forall (fun u hu ↦ (Bool.not_eq_true' _).mp (hnone u hu)) hword
        htrivia hscanned
    · rw [List.append_assoc, List.cons_append] at h hscanned ⊢
      exact tellsMark_bang h ((Bool.not_eq_false' _).mp hbang)
        (fun u hu ↦ (Bool.not_eq_true' _).mp (hgap u hu)) hword
        htrivia hscanned
  · refine tellsMark_of_not_isMarked (takeImportant_other front htoken hjoined hword htrivia)
      fun hmarked ↦ ?_
    rcases hmarked.last rfl htoken htrivia with h | ⟨h, -⟩
    · exact hjoined h
    · exact hword h

/-- If nothing follows its last word, a value is marked as important exactly if it has a mark only
if it is plain. -/
theorem isPlain_of_important_iff (hscanned : ∀ u ∈ tokens, u.IsScanned)
    (hlast : ∀ u ∈ tokens.getLast?, u.isTrivia = false)
    (h : (takeImportant tokens).important = true ↔ IsMarked tokens) : IsPlain tokens := by
  rintro front gap trivia bang word rfl hbang hgap hword htrivia
  obtain rfl : trivia = [] := by
    by_contra hne
    obtain ⟨more, u, rfl⟩ := (List.eq_nil_or_concat' trivia).resolve_left hne
    have htrue := htrivia u (by simp)
    rw [show front ++ bang :: (gap ++ word :: (more ++ [u])) =
      (front ++ bang :: (gap ++ word :: more)) ++ [u] by simp,
      List.getLast?_concat] at hlast
    rw [hlast u rfl] at htrue
    cases htrue
  refine ⟨?_, .inl rfl⟩
  have htail := isBang_eq_false_of_mem_tail hgap hword htrivia nofun
  rw [← isMarked_bang_iff hbang hgap hword htrivia hscanned, ← h]
  constructor
  · intro himportant
    by_contra hle
    rw [takeImportant_bang_le htail hword htrivia (Nat.le_of_not_lt hle)] at himportant
    cases himportant
  · intro hlength
    obtain ⟨-, -, -, himportant, -⟩ := takeImportant_bang hbang htail hword htrivia hlength
      (.inl rfl) hscanned
    exact himportant

/-- A value with a lone exclamation mark in front of its last word is plain, if there are tokens
enough in front of it. -/
theorem isPlain_of_bang (hbang : bang.text = ['!']) (hgap : ∀ u ∈ gap, u.isTrivia = true)
    (hword : word.Spells "important") (htrivia : ∀ u ∈ trivia, u.isTrivia = true)
    (hlength : trivia.length < front.length)
    (hguard : trivia = [] ∨ ∀ guard ∈ (front.rdrop trivia.length).getLast?, guard.kind ≠ .space)
    (hscanned : ∀ u ∈ front ++ bang :: (gap ++ word :: trivia), u.IsScanned) :
    IsPlain (front ++ bang :: (gap ++ word :: trivia)) := by
  intro front' gap' trivia' bang' word' htokens hbang' hgap' hword' htrivia'
  have hmarked : bang'.text = ['!'] ∧ ∀ u ∈ gap', u.isTrivia = true :=
    (isMarked_bang_iff hbang' hgap' hword' htrivia' (htokens ▸ hscanned)).mp
      (htokens ▸ .split front gap trivia hbang hgap hword htrivia)
  have hstarts : bang.isBang = true := by
    rw [Token.isBang, hbang]
    rfl
  have hnone : ∀ u ∈ gap, u.isBang = false :=
    fun u hu ↦ (hscanned u (by simp [hu])).isBang_eq_false (hgap u hu)
  have hnot {t : Token} {b : Bool} (h : t.isBang = b) : (!t.isBang) = !b := by rw [h]
  rw [List.append_cons, ← List.append_assoc, List.append_cons front',
    ← List.append_assoc] at htokens
  obtain ⟨hfront, rfl, rfl⟩ := last_unique htokens hword.isTrivia hword'.isTrivia htrivia htrivia'
  rw [List.append_assoc, List.append_assoc] at hfront
  obtain ⟨rfl, rfl, rfl⟩ := last_unique (p := (!·.isBang)) hfront (hnot hstarts) (hnot hbang')
    (fun u hu ↦ hnot (hnone u hu)) fun u hu ↦ hnot (hgap' u hu)
  exact ⟨⟨fun _ ↦ hlength, fun _ ↦ hmarked⟩, hguard⟩

end Taken

/-! ## Documents that were read -/

/-- `n.KeepsMark parts` says what a declaration keeps of the mark of the value that it was made
of. -/
structure Node.KeepsMark (n : Node) (parts : Parts) : Prop where
  important : ∃ name value, n.kind = .declaration name value (takeImportant parts.value).important
  spelling : n.raws.important = (takeImportant parts.value).spelling
  scanned : ∀ u ∈ parts.value, u.IsScanned

theorem Assembly.makes_keepsMark (s : Source) (stop : Nat) : Makes s stop Node.KeepsMark := by
  intro a b t tokens rest behind custom terminator parts _ hcut _ _ hscanned hparts
  refine ⟨⟨_, _, rfl⟩, rfl, fun u hu ↦ hscanned u ?_⟩
  have hbody : u ∈ Statement.bodyOf tokens := by
    rw [← Parts.tokens_ofTokens? hparts, Parts.tokens]
    exact List.mem_append_right _ hu
  rw [← hcut.tokens_append]
  exact List.mem_append_left _ (Statement.bodyOf_subset tokens hbody)

theorem Node.KeepsMark.of_unlinked {n m : Node} {parts : Parts} (heq : m.unlinked = n.unlinked)
    (h : n.KeepsMark parts) : m.KeepsMark parts := by
  have hkind : m.unlinked.kind = n.unlinked.kind := congrArg Node.kind heq
  have hraws : m.unlinked.raws = n.unlinked.raws := congrArg Node.raws heq
  obtain ⟨⟨name, value, himportant⟩, hspelling, hscanned⟩ := h
  exact ⟨⟨name, value, hkind.trans himportant⟩, (congrArg Raws.important hraws).trans hspelling,
    hscanned⟩

/-- In a document that strict reading takes, exactly those declarations are important in whose
value a mark is found. If the value is plain, it is important exactly if it ends with a mark, and
the spelling that is recorded is one; if the last word of the value is its end, it is important
exactly if it ends with a mark only if it is plain. -/
theorem importance_of_parse {source : Source} {doc : Document}
    (h : parse source .strict = .ok doc) :
    (∀ id, doc.type id = .declaration → id ∈ doc.declarations) ∧
      List.Forall₂ (fun id parts ↦ ∃ name value important,
          (doc.node id).kind = .declaration name value important ∧
          (important = true ↔ IsTaken parts.value) ∧
          (IsPlain parts.value → (important = true ↔ IsMarked parts.value) ∧
            ∀ spelled ∈ (doc.node id).raws.important, IsSpelled spelled parts.value) ∧
          ((∀ u ∈ parts.value.getLast?, u.isTrivia = false) →
            ((important = true ↔ IsMarked parts.value) ↔ IsPlain parts.value)))
        doc.declarations
        ((Statement.ofRun source.size (Token.run source.text .fail)).filterMap
          Statement.parts?) := by
  refine ⟨fun id ↦ mem_declarations_of_parse h,
    (declared_of_parse (Assembly.makes_keepsMark source source.size)
      Node.KeepsMark.of_unlinked h).imp ?_⟩
  rintro id parts ⟨⟨name, value, hkind⟩, hspelling, hscanned⟩
  refine ⟨name, value, _, hkind, takeImportant_iff _, fun hplain ↦ ?_, fun hlast ↦
    ⟨isPlain_of_important_iff hscanned hlast,
      fun hplain ↦ (tellsMark_of_isPlain hscanned hplain).important_iff⟩⟩
  obtain ⟨hiff, hspelled⟩ := tellsMark_of_isPlain hscanned hplain
  exact ⟨hiff, hspelling ▸ hspelled⟩

/-- A mark in two words with a comment between them, and white space behind it. -/
theorem importance_of_parse_split :
    ∃ doc, parse ⟨"a\x7bb:c !/**/Important ;\x7d".toList, none⟩ .strict = .ok doc ∧
      ∃ name value, (doc.node 2).kind = .declaration name value true := by
  have h (source : Source) (front gap trivia : List Token) {doc : Document} {parts : Parts}
      {bang word : Token}
      (hparse : parse source .strict = .ok doc) (hdeclarations : doc.declarations = [2])
      (hstatements : (Statement.ofRun source.size (Token.run source.text .fail)).filterMap
        Statement.parts? = [parts])
      (hvalue : parts.value = front ++ bang :: (gap ++ word :: trivia))
      (hbang : bang.text = ['!'])
      (hgap : ∀ u ∈ gap, u.isTrivia = true) (hword : word.Spells "important")
      (htrivia : ∀ u ∈ trivia, u.isTrivia = true) (hlength : trivia.length < front.length)
      (hguard : ∀ guard ∈ (front.rdrop trivia.length).getLast?, guard.kind ≠ .space) :
      ∃ name value, (doc.node 2).kind = .declaration name value true := by
    have hmarks := (importance_of_parse hparse).2
    rw [hdeclarations, hstatements, List.forall₂_cons] at hmarks
    obtain ⟨name, value, important, hkind, -, hplain, -⟩ := hmarks.1
    have hscanned : ∀ u ∈ parts.value, u.IsScanned := by
      have hkeeps := declared_of_parse (Assembly.makes_keepsMark source source.size)
        Node.KeepsMark.of_unlinked hparse
      rw [hdeclarations, hstatements, List.forall₂_cons] at hkeeps
      exact hkeeps.1.scanned
    rw [hvalue] at hplain hscanned
    have hiff :=
      (hplain (isPlain_of_bang hbang hgap hword htrivia hlength (.inr hguard) hscanned)).1
    exact ⟨name, value, (hiff.mpr (.split front gap trivia hbang hgap hword htrivia)) ▸ hkind⟩
  refine ⟨_, rfl,
    h ⟨"a\x7bb:c !/**/Important ;\x7d".toList, none⟩ [_,
      _] [_] [_] rfl rfl rfl rfl rfl ?_ ⟨rfl, rfl⟩ ?_
    (by decide) ?_⟩
  · exact List.forall_mem_singleton.mpr rfl
  · exact List.forall_mem_singleton.mpr rfl
  · rintro guard hguard
    cases hguard
    exact nofun

/-- Next to the exclamation mark a single token is in front of it, and white space follows the
word: the mark is overlooked. -/
theorem not_importance_of_parse :
    ¬∀ (source : Source) (doc : Document), parse source .strict = .ok doc →
      List.Forall₂ (fun id parts ↦ ∀ name value important,
          (doc.node id).kind = .declaration name value important → value ≠ [] →
          (important = true ↔ IsMarked parts.value))
        doc.declarations
        ((Statement.ofRun source.size (Token.run source.text .fail)).filterMap
          Statement.parts?) := by
  intro hall
  have h (source : Source) (front gap trivia : List Token) {doc : Document} {parts : Parts}
      {name value : Text}
      {bang word : Token} (hparse : parse source .strict = .ok doc)
      (hdeclarations : doc.declarations = [2])
      (hstatements : (Statement.ofRun source.size (Token.run source.text .fail)).filterMap
        Statement.parts? = [parts])
      (hkind : (doc.node 2).kind = .declaration name value false) (hpresent : value ≠ [])
      (hvalue : parts.value = front ++ bang :: (gap ++ word :: trivia))
      (hbang : bang.text = ['!'])
      (hgap : ∀ u ∈ gap, u.isTrivia = true) (hword : word.Spells "important")
      (htrivia : ∀ u ∈ trivia, u.isTrivia = true) : False := by
    have hmarks := hall source doc hparse
    rw [hdeclarations, hstatements, List.forall₂_cons, hvalue] at hmarks
    have hmarked : IsMarked (front ++ bang :: (gap ++ word :: trivia)) :=
      .split front gap trivia hbang hgap hword htrivia
    exact absurd ((hmarks.1 name value false hkind hpresent).mpr hmarked) Bool.false_ne_true
  refine h ⟨"a\x7bb:c! important ;\x7d".toList, none⟩ [_] [_] [_] rfl rfl rfl rfl
    (List.cons_ne_nil _ _) rfl rfl ?_
    ⟨rfl, rfl⟩ ?_
  · exact List.forall_mem_singleton.mpr rfl
  · exact List.forall_mem_singleton.mpr rfl

end Stylesheet
