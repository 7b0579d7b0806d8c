import Stylesheet.Proofs.Repairs
import Stylesheet.Text.Bytes

/-!
# Runs of tokens by index

The functions of this module tidy and cut runs of tokens by the indices of tokens. They are `none`
if an index or an end of a range is not in its run, or if a difference of indices is below zero.
The `_eq` lemmas say that neither happens: each of them computes what the function by recursion on
the run does.
-/

namespace Stylesheet

section

variable {α : Type} {p : α → Bool} {x : α} {xs ys : List α}

/-- `cutAt? k xs` cuts a list before the element of an index, or is `none` if the index is behind
the end. -/
def cutAt? (k : Nat) (xs : List α) : Option (List α × List α) :=
  if k ≤ xs.length then some (xs.take k, xs.drop k) else none

/-- `lastIndex? p xs` is the index of the last element that `p` holds of. -/
def lastIndex? (p : α → Bool) : List α → Option Nat
  | [] => none
  | x :: xs =>
      match lastIndex? p xs with
      | some i => some (i + 1)
      | none => if p x then some 0 else none

/-- `behindLast p xs` is the index behind the last element that `p` holds of. -/
def behindLast (p : α → Bool) (xs : List α) : Nat :=
  ((lastIndex? p xs).map (· + 1)).getD 0

/-- `elementBefore? xs i` looks up the element before an index. There is none before the first
one. -/
def elementBefore? (xs : List α) (i : Nat) : Option (Option α) :=
  if i = 0 then some none
  else do return some (← xs[← difference? i 1]?)

theorem cutAt?_of_le {k : Nat} (h : k ≤ xs.length) :
    cutAt? k xs = some (xs.take k, xs.drop k) := if_pos h

@[simp] theorem cutAt?_append (xs ys : List α) : cutAt? xs.length (xs ++ ys) = some (xs, ys) := by
  rw [cutAt?_of_le (List.length_append ▸ Nat.le_add_right _ _), List.take_left, List.drop_left]

@[simp] theorem elementBefore?_append (xs ys : List α) :
    elementBefore? (xs ++ ys) xs.length = some xs.getLast? := by
  rcases List.eq_nil_or_concat xs with rfl | ⟨before, x, hxs⟩
  · rfl
  · rw [hxs, List.concat_eq_append]
    have hindex : difference? (before ++ [x]).length 1 = some before.length := by
      rw [List.length_append, List.length_singleton, difference?_add]
    rw [elementBefore?, if_neg (by simp), hindex, List.getLast?_concat]
    simp

theorem lastIndex?_append (p : α → Bool) (xs ys : List α) :
    lastIndex? p (xs ++ ys) = ((lastIndex? p ys).map (xs.length + ·)).or (lastIndex? p xs) := by
  induction xs with
  | nil => cases h : lastIndex? p ys <;> simp [lastIndex?, h]
  | cons x xs ih =>
      rw [List.cons_append, lastIndex?, ih, lastIndex?]
      cases lastIndex? p ys with
      | none => rfl
      | some i => simp [Nat.add_right_comm]

theorem lastIndex?_eq_none (h : ∀ x ∈ xs, p x = false) : lastIndex? p xs = none := by
  induction xs with
  | nil => rfl
  | cons x xs ih =>
      obtain ⟨hx, hxs⟩ := List.forall_mem_cons.mp h
      rw [lastIndex?, ih hxs, hx]
      rfl

/-- The last element that `p` holds of is the one behind which `p` holds of none. -/
theorem lastIndex?_eq_some (hx : p x = true) (h : ∀ y ∈ ys, p y = false) :
    lastIndex? p (xs ++ x :: ys) = some xs.length := by
  have hlast : lastIndex? p (x :: ys) = some 0 := by
    rw [lastIndex?, lastIndex?_eq_none h, hx, if_pos rfl]
  rw [lastIndex?_append, hlast]
  rfl

end

namespace Token

variable {p : Token → Bool} {tokens : List Token}

/-! ## Cuts at an edge -/

/-- A run has only tokens that `p` holds of, or a last one that it does not hold of.
`splitTrailing` cuts behind that one. -/
theorem exists_splitTrailing (p : Token → Bool) (tokens : List Token) :
    ((∀ t ∈ tokens, p t = true) ∧ splitTrailing p tokens = ([], tokens)) ∨
      ∃ before t behind, tokens = before ++ t :: behind ∧ p t = false ∧
      (∀ u ∈ behind, p u = true) ∧
        splitTrailing p tokens = (before ++ [t], behind) := by
  have hlast : (∀ t ∈ tokens, p t = true) ∨
      ∃ before t behind, tokens = before ++ t :: behind ∧ p t = false ∧
      ∀ u ∈ behind, p u = true := by
    induction tokens with
    | nil => exact .inl (List.forall_mem_nil _)
    | cons t rest ih =>
        rcases ih with hrest | ⟨before, u, behind, rfl, hu, hbehind⟩
        · cases ht : p t with
          | true => exact .inl (List.forall_mem_cons.mpr ⟨ht, hrest⟩)
          | false => exact .inr ⟨[], t, rest, rfl, ht, hrest⟩
        · exact .inr ⟨t :: before, u, behind, rfl, hu, hbehind⟩
  rcases hlast with hall | ⟨before, t, behind, rfl, ht, hbehind⟩
  · have hcut : splitTrailing p ([] ++ tokens) = ([], tokens) :=
      splitTrailing_append_of_forall hall nofun
    exact .inl ⟨hall, hcut⟩
  · refine .inr ⟨before, t, behind, rfl, ht, hbehind, ?_⟩
    have hcut : splitTrailing p ((before ++ [t]) ++ behind) = (before ++ [t], behind) :=
      splitTrailing_append_of_forall hbehind fun v hv ↦ by
        rw [List.getLast?_concat] at hv
        exact Option.some.inj hv ▸ ht
    rwa [List.append_assoc] at hcut

/-- `cutLeading? p tokens` counts the tokens at the start of a run that `p` holds of and cuts them
off. -/
def cutLeading? (p : Token → Bool) (tokens : List Token) : Option (List Token × List Token) :=
  cutAt? (tokens.takeWhile p).length tokens

/-- `cutTrailing? p tokens` cuts a run behind its last token that `p` does not hold of. -/
def cutTrailing? (p : Token → Bool) (tokens : List Token) : Option (List Token × List Token) :=
  cutAt? (behindLast (!p ·) tokens) tokens

/-- `cutBefore? p tokens` cuts a run before its first token that `p` holds of, or at its end. -/
def cutBefore? (p : Token → Bool) (tokens : List Token) : Option (List Token × List Token) :=
  cutAt? (tokens.findIdx p) tokens

@[simp] theorem cutLeading?_eq (p : Token → Bool) (tokens : List Token) :
    cutLeading? p tokens = some (splitLeading p tokens) := by
  have h := cutAt?_append (splitLeading p tokens).1 (splitLeading p tokens).2
  rwa [splitLeading_append] at h

@[simp] theorem cutBefore?_eq (p : Token → Bool) (tokens : List Token) :
    cutBefore? p tokens = some (splitLeading (!p ·) tokens) := by
  rw [cutBefore?, cutAt?_of_le List.findIdx_le_length, splitLeading,
    List.takeWhile_eq_take_findIdx_not, List.dropWhile_eq_drop_findIdx_not]
  simp only [Bool.not_not]

theorem behindLast_eq (p : Token → Bool) (tokens : List Token) :
    behindLast (!p ·) tokens = (splitTrailing p tokens).1.length := by
  rcases exists_splitTrailing p tokens with ⟨hall, hcut⟩ | ⟨before, t, behind, rfl, ht,
    hbehind, hcut⟩
  · rw [behindLast, lastIndex?_eq_none fun t h ↦ by rw [hall t h, Bool.not_true], hcut]
    rfl
  · rw [behindLast, lastIndex?_eq_some (by rw [ht, Bool.not_false])
      fun u h ↦ by rw [hbehind u h, Bool.not_true], hcut, List.length_append]
    rfl

@[simp] theorem cutTrailing?_eq (p : Token → Bool) (tokens : List Token) :
    cutTrailing? p tokens = some (splitTrailing p tokens) := by
  have h := cutAt?_append (splitTrailing p tokens).1 (splitTrailing p tokens).2
  rw [splitTrailing_append] at h
  rwa [cutTrailing?, behindLast_eq]

end Token

/-! ## Tidying -/

namespace Value

/-- `tidyAt? custom tokens i rest text clean dropped` goes on tidying at the index `i`, behind
which the tokens `rest` stand. `text` is what has been kept, `clean` says that this is all, and
`dropped` that the token before is a comment that was left out. -/
def tidyAt? (custom : Bool) (tokens : List Token) :
    Nat → List Token → Text → Bool → Bool → Option (Text × Bool)
  | _, [], text, clean, _ => some (text, clean)
  | i, t :: rest, text, clean, dropped => do
      let isEdge := t.is .space &&
        ((i + 1 == tokens.length && !custom) || (dropped && text.getLast?.any Char.isBlank))
      let before ← elementBefore? tokens i
      let isRemark := t.is .comment &&
        (isLoose (before.map (·.kind)) || isLoose (tokens[i + 1]?.map (·.kind)) ||
          text.getLast? == some ',')
      if isEdge then tidyAt? custom tokens (i + 1) rest text false false
      else if isRemark then tidyAt? custom tokens (i + 1) rest text false true
      else tidyAt? custom tokens (i + 1) rest (text ++ t.text) clean false

/-- `ofIndices? custom tokens` is the tidied text of a run of tokens, by index. -/
def ofIndices? (custom : Bool) (tokens : List Token) : Option Value := do
  let (text, clean) ← tidyAt? custom tokens 0 tokens [] true false
  return ⟨text, if clean then none else some ⟨text, Token.spelling tokens⟩⟩

/-- Tidying by index keeps the tokens that tidying by recursion keeps. -/
theorem tidyAt?_eq (custom : Bool) (passed rest : List Token) (text : Text)
    (clean dropped : Bool) :
    let kept := tidyFrom custom (passed.getLast?.map (·.kind)) text.getLast? dropped rest
    tidyAt? custom (passed ++ rest) passed.length rest text clean dropped =
      some (text ++ Token.spelling kept, clean && kept.length == rest.length) := by
  induction rest generalizing passed text clean dropped with
  | nil => simp [tidyAt?, tidyFrom]
  | cons t rest ih =>
      have hnext (text : Text) (clean dropped : Bool) := ih (passed ++ [t]) text clean dropped
      simp only [List.append_assoc, List.singleton_append, List.length_append,
        List.length_singleton, List.getLast?_concat, Option.map_some] at hnext
      have hend : (passed.length + 1 == (passed ++ t :: rest).length) = rest.isEmpty := by
        cases rest <;> simp
      have hafter : (passed ++ t :: rest)[passed.length + 1]? = rest.head? := by
        have h : (passed ++ t :: rest)[passed.length + 1]? =
            (t :: rest)[passed.length + 1 - passed.length]? :=
          List.getElem?_append_right (Nat.le_succ passed.length)
        rwa [Nat.add_sub_cancel_left, List.getElem?_cons_succ, ← List.head?_eq_getElem?] at h
      -- If a token is left out, fewer are kept than there are.
      have hless (last : Option Char) (dropped : Bool) :
          ((tidyFrom custom (some t.kind) last dropped rest).length == (t :: rest).length) =
            false := by
        have h := (tidyFrom_sublist custom (some t.kind) last dropped rest).length_le
        exact beq_eq_false_iff_ne.mpr (Nat.ne_of_lt (Nat.lt_succ_of_le h))
      simp only [tidyAt?, tidyFrom, hend, hafter, elementBefore?_append, Option.bind_eq_bind,
        Option.bind_some]
      split
      · rw [hnext, hless, Bool.false_and, Bool.and_false]
      · split
        · rw [hnext, hless, Bool.false_and, Bool.and_false]
        · have hsame (m n : Nat) : (m + 1 == n + 1) = (m == n) := by simp
          rw [hnext, List.getLast?_append, Token.spelling_cons, List.append_assoc,
            List.length_cons, List.length_cons, hsame, Option.orElse_eq_orElse,
            Option.orElse_eq_or]

@[simp] theorem ofIndices?_eq (custom : Bool) (tokens : List Token) :
    ofIndices? custom tokens = some (ofTokens custom tokens) := by
  have h := tidyAt?_eq custom [] tokens [] true false
  simp only [List.nil_append, List.length_nil, Bool.true_and] at h
  rw [ofIndices?, h]
  by_cases hlength : (tidy custom tokens).length = tokens.length <;>
    simp_all [ofTokens, tidy]

end Value

/-! ## The important mark -/

namespace Marked

/-- `spellBackAt? tokens i cut spelled` goes backwards from the index `i` in search of an
exclamation mark and takes the tokens before the index `cut` one by one. -/
def spellBackAt? (tokens : List Token) : Nat → Nat → Text → Option (Text × Nat)
  | 0, cut, spelled => some (spelled, cut)
  | i + 1, cut, spelled => do
      let guard ← tokens[i + 1]?
      if (Text.trimStart spelled).head? = some '!' ∧
        guard.kind ≠ .space then return (spelled, cut)
      let cut ← difference? cut 1
      let t ← tokens[cut]?
      spellBackAt? tokens i cut (t.text ++ spelled)

/-- `splitMark? tokens i` is the value before an exclamation mark that is apart from the word at
the index `i`, with the mark, if there is one. -/
def splitMark? (tokens : List Token) (i : Nat) : Option (Option Marked) := do
  let (spelled, cut) ← spellBackAt? tokens i tokens.length []
  return if (Text.trim spelled).head? = some '!' then some ⟨tokens.take cut, true,
    some spelled⟩ else none

/-- `searchBack? tokens i` looks for the important mark from the index before `i` backwards, as
long as there are only white space and comments. -/
def searchBack? (tokens : List Token) : Nat → Option Marked
  | 0 => some { tokens }
  | i + 1 => do
      let t ← tokens[i]?
      if t.text.equalsIgnoringCase "!important".toList then
        let (before, tail) ← cutAt? i tokens
        let (kept, spaces) ← Token.cutTrailing? (·.is .space) before
        let spelled := Token.spelling spaces ++ Token.spelling tail
        return ⟨kept, true, if spelled = usualMark then none else some spelled⟩
      let split ← if t.text.equalsIgnoringCase "important".toList then splitMark? tokens i
          else some none
      match split with
      | some marked => return marked
      | none => if t.isTrivia then searchBack? tokens i else return { tokens }

/-- `ofIndices? tokens` cuts the important mark off the end of a value, by index. -/
def ofIndices? (tokens : List Token) : Option Marked :=
  searchBack? tokens tokens.length

/-- `t.IsUnmarked` says that a token is spelled as neither form of the mark. -/
def IsUnmarked (t : Token) : Prop :=
  t.text.equalsIgnoringCase "!important".toList = false ∧
    t.text.equalsIgnoringCase "important".toList = false

/-- There are as many indices before a token as the way back from it has steps, and no fewer
tokens to take. -/
theorem spellBackAt?_eq (tokens : List Token) {i cut : Nat} (spelled : Text) (hi : i < cut)
    (hcut : cut ≤ tokens.length) :
    ∃ rest, spellBackAt? tokens i cut spelled =
        some ((spellBack spelled (tokens.take (i + 1)).reverse (tokens.take cut).reverse).1,
          rest) ∧
      (tokens.take rest).reverse =
        (spellBack spelled (tokens.take (i + 1)).reverse (tokens.take cut).reverse).2 := by
  have hrev {k : Nat} (hk : k < tokens.length) :
      (tokens.take (k + 1)).reverse = tokens[k] :: (tokens.take k).reverse := by
    rw [List.take_succ_eq_append_getElem hk, List.reverse_append]
    rfl
  induction i generalizing cut spelled with
  | zero =>
      refine ⟨cut, ?_, ?_⟩ <;> rw [hrev (Nat.lt_of_lt_of_le hi hcut)] <;> rfl
  | succ i ih =>
      obtain ⟨cut, rfl⟩ : ∃ k, cut = k + 1 := Nat.exists_eq_succ_of_ne_zero (Nat.ne_zero_of_lt hi)
      have hguard : i + 1 < tokens.length := Nat.lt_of_lt_of_le hi hcut
      have hback : cut < tokens.length := hcut
      rw [hrev hguard, hrev (Nat.lt_of_succ_lt hguard), hrev hback, spellBackAt?, spellBack,
        List.getElem?_eq_getElem hguard]
      simp only [Option.bind_eq_bind, Option.bind_some]
      split
      · exact ⟨cut + 1, rfl, hrev hback⟩
      · have hnext := ih (tokens[cut].text ++ spelled) (Nat.lt_of_succ_lt_succ hi)
          (Nat.le_of_lt hback)
        rw [hrev (Nat.lt_of_succ_lt hguard)] at hnext
        simp only [difference?_add, Option.bind_some, List.getElem?_eq_getElem hback]
        exact hnext

/-- The way back from a word that is the last one but for white space and comments. -/
theorem splitMark?_eq (body : List Token) (word : Token) (trivia : List Token) :
    let tokens := body ++ word :: trivia
    let (spelled, behind) := spellBack [] (body ++ [word]).reverse tokens.reverse
    splitMark? tokens body.length =
      some (if (Text.trim spelled).head? = some '!' then some ⟨behind.reverse, true, some spelled⟩
        else none) := by
  intro tokens
  have hlt : body.length < tokens.length := by simp [tokens]
  have htake : tokens.take (body.length + 1) = body ++ [word] := by
    have h : tokens = (body ++ [word]) ++ trivia := by simp [tokens]
    rw [h]
    exact List.take_left' (by simp)
  obtain ⟨rest, hback, hrest⟩ := spellBackAt?_eq tokens [] hlt (Nat.le_refl _)
  rw [htake, List.take_length] at hback hrest
  rw [splitMark?, hback]
  simp only [Option.bind_eq_bind, Option.bind_some, ← hrest, List.reverse_reverse]
  rfl

/-- White space and comments are passed over. -/
theorem searchBack?_append (before : List Token) {trivia : List Token}
    (h : ∀ t ∈ trivia, t.isTrivia = true ∧ IsUnmarked t) :
    searchBack? (before ++ trivia) (before ++ trivia).length =
      searchBack? (before ++ trivia) before.length := by
  have hpass (k : Nat) (hk : k ≤ trivia.length) :
      searchBack? (before ++ trivia) (before.length + k) =
        searchBack? (before ++ trivia) before.length := by
    induction k with
    | zero => rfl
    | succ k ih =>
        obtain ⟨htrivia, hmark, hword⟩ := h trivia[k] (List.getElem_mem hk)
        have ht : (before ++ trivia)[before.length + k]? = some trivia[k] := by
          rw [List.getElem?_append_right (Nat.le_add_right _ _), Nat.add_sub_cancel_left]
          exact List.getElem?_eq_getElem hk
        rw [← Nat.add_assoc, searchBack?, ht, ← ih (Nat.le_of_lt hk), Option.bind_eq_bind,
          Option.bind_some, hmark, hword, if_neg Bool.false_ne_true, if_neg Bool.false_ne_true,
          Option.bind_eq_bind, Option.bind_some, htrivia]
        rfl
  rw [List.length_append]
  exact hpass trivia.length (Nat.le_refl _)

/-- Looking for the mark by index finds it where looking behind the last token does that is
neither white space nor a comment. -/
theorem ofIndices?_eq {tokens : List Token} (h : ∀ t ∈ tokens, t.isTrivia = true → IsUnmarked t) :
    ofIndices? tokens = some (takeImportant tokens) := by
  rcases Token.exists_splitTrailing Token.isTrivia tokens with
    ⟨hall, hcut⟩ | ⟨body, word, trivia, rfl, hword, htrivia, hcut⟩
  · have hpass := searchBack?_append [] fun t ht ↦ ⟨hall t ht, h t ht (hall t ht)⟩
    rw [ofIndices?, takeImportant, hcut]
    exact hpass
  · have hpass := searchBack?_append (body ++ [word]) fun t ht ↦
      ⟨htrivia t ht, h t (by simp [ht]) (htrivia t ht)⟩
    have hsplit := splitMark?_eq body word trivia
    have hcutAt := cutAt?_append body (word :: trivia)
    have hword' : (body ++ word :: trivia)[body.length]? = some word := by simp
    have hlength : (body ++ [word]).length = body.length + 1 := List.length_append
    rw [List.append_assoc, List.singleton_append, hlength] at hpass
    rw [ofIndices?, hpass, searchBack?, hword', takeImportant, hcut]
    simp only [Option.bind_eq_bind, Option.bind_some, List.getLast?_concat,
      List.dropLast_concat, hcutAt, Token.cutTrailing?_eq, hword, Token.spelling_cons, hsplit,
      List.append_assoc]
    generalize spellBack [] (body ++ [word]).reverse (body ++ word :: trivia).reverse = back
    split
    · rfl
    · split
      · by_cases hmark : (Text.trim back.1).head? = some '!'
        · rw [if_pos hmark, if_pos hmark]
          rfl
        · rw [if_neg hmark, if_neg hmark]
          rfl
      · rfl

end Marked

/-! ## The parts of a declaration -/

namespace Parts

/-- `countThrough tokens` is the number of tokens up to and with the first colon. -/
def countThrough : List Token → Nat
  | [] => 0
  | t :: rest => if t.is .colon then 1 else countThrough rest + 1

/-- `p.start` is the byte offset where the name of the property starts. -/
def start (p : Parts) : Nat :=
  (p.name.head?.map (·.span.start)).getD 0

/-- `ofIndices? tokens` are the parts of a declaration, by index, with the place of its first
word. -/
def ofIndices? (tokens : List Token) : Option (Option (Parts × Nat)) :=
  match tokens.findIdx? (·.is .word) with
  | none => some none
  | some lead => do
      let (stray, body) ← cutAt? lead tokens
      let word ← body[0]?
      let (name, rest) ← Token.cutBefore? (fun t ↦ t.is .colon || t.isTrivia) body
      let (colon, rest) ← cutAt? (countThrough rest) rest
      let (gap, value) ← Token.cutLeading? Token.isTrivia rest
      return some ({ stray, name, colon, gap, value }, word.span.start)

theorem countThrough_eq (tokens : List Token) :
    countThrough tokens = (throughColon tokens).1.length := by
  induction tokens with
  | nil => rfl
  | cons t rest ih =>
      rw [countThrough, throughColon]
      split
      · rfl
      · rw [ih, List.length_cons]

@[simp] theorem cutAt?_countThrough (tokens : List Token) :
    cutAt? (countThrough tokens) tokens = some (throughColon tokens) := by
  have h := cutAt?_append (throughColon tokens).1 (throughColon tokens).2
  rwa [throughColon_append, ← countThrough_eq] at h

@[simp] theorem ofIndices?_eq (tokens : List Token) :
    ofIndices? tokens = some ((ofTokens? tokens).map fun p ↦ (p, p.start)) := by
  have hsplit : cutAt? (tokens.findIdx (·.is .word)) tokens =
      some (Token.splitLeading (!·.is .word) tokens) := Token.cutBefore?_eq _ tokens
  have hbody : tokens.findIdx (·.is .word) < tokens.length ↔
      (Token.splitLeading (!·.is .word) tokens).2 ≠ [] := by
    have h := congrArg (fun cut ↦ cut.map (·.2.length)) hsplit
    rw [cutAt?_of_le List.findIdx_le_length] at h
    simp only [Option.map_some, List.length_drop, Option.some.injEq] at h
    rw [← List.length_pos_iff, ← h]
    omega
  rw [ofIndices?, ofTokens?, List.findIdx?_eq_guard_findIdx_lt]
  cases hcut : Token.splitLeading (!·.is .word) tokens with
  | mk stray body =>
      rw [hcut] at hbody hsplit
      cases body with
      | nil =>
          rw [Option.guard_eq_none_iff.mpr (by simpa using hbody)]
          rfl
      | cons word body =>
          have hword : word.is .word = true := by
            have h := List.head?_dropWhile_not (!·.is .word) tokens
            rw [show tokens.dropWhile (!·.is .word) = word :: body from congrArg Prod.snd hcut]
              at h
            simpa using h
          have hname : (Token.splitLeading (fun t ↦ !(t.is .colon || t.isTrivia))
              (word :: body)).1.head? = some word := by
            have hkind : word.kind = .word := beq_iff_eq.mp hword
            simp [Token.splitLeading, Token.is, Token.isTrivia, TokenKind.isTrivia, hkind]
          rw [Option.guard_eq_some_iff.mpr ⟨rfl, by simpa using hbody⟩]
          simp only [hsplit, Option.bind_eq_bind, Option.bind_some, List.getElem?_cons_zero,
            Token.cutBefore?_eq, cutAt?_countThrough, Token.cutLeading?_eq, List.isEmpty_cons,
            Bool.false_eq_true, if_false, Option.map_some, start, hname]
          rfl

end Parts

/-! ## A missed semicolon -/

/-- `colonFrom? depth previous i tokens` is the index of the first colon outside parentheses that
does not follow `progid`, where `tokens` stand from the index `i` on. -/
def colonFrom? (depth : Int) (previous : Token) (i : Nat) : List Token → Option Nat
  | [] => none
  | t :: rest =>
      if t.is .colon && depth == 0 then
        if isProgid previous then colonFrom? depth previous (i + 1) rest else some i
      else colonFrom? (nesting t depth) t (i + 1) rest

/-- `colonIndex? value` is the index of the first colon that cannot belong to a value. -/
def colonIndex? : List Token → Option Nat
  | [] => none
  | t :: rest => colonFrom? (nesting t 0) t 1 rest

/-- `culpritFrom found culprit tokens` goes on to the second token that is not white space, of
which `found` have been passed, or to the last token. -/
def culpritFrom (found : Bool) (culprit : Token) : List Token → Token
  | [] => culprit
  | t :: rest =>
      if t.is .space then culpritFrom found t rest
      else if found then t
      else culpritFrom true t rest

/-- `missedFrom? tokens colon` is the byte offset where a semicolon is missed if a second colon
stands at an index. -/
def missedFrom? (tokens : List Token) (colon : Nat) : Option Nat := do
  let t ← tokens[colon]?
  let (before, _) ← cutAt? colon tokens
  let culprit := culpritFrom false t before.reverse
  return if culprit.is .word then culprit.span.stop else culprit.span.start

theorem colonFrom?_eq (depth : Int) (previous : Token) (i : Nat) (tokens : List Token) :
    colonFrom? depth previous i tokens =
      (findColon depth previous tokens).map fun cut ↦ i + cut.1.length := by
  induction tokens generalizing depth previous i with
  | nil => rfl
  | cons t rest ih =>
      have hmore (cut : Option (List Token × List Token)) :
          (cut.map fun cut ↦ (t :: cut.1, cut.2)).map (fun cut ↦ i + cut.1.length) =
            cut.map fun cut ↦ i + 1 + cut.1.length := by
        cases cut <;> simp [Nat.add_comm 1, Nat.add_assoc]
      rw [colonFrom?, findColon]
      split
      · split
        · rw [ih, hmore]
        · rfl
      · rw [ih, hmore]

@[simp] theorem colonIndex?_eq (value : List Token) :
    colonIndex? value = (secondColon value).map (·.1.length) := by
  cases value with
  | nil => rfl
  | cons t rest =>
      rw [colonIndex?, colonFrom?_eq, secondColon, Option.map_map]
      simp [Function.comp_def, Nat.add_comm 1]

/-- A run that is cut before a colon goes on behind the cut. -/
theorem ne_nil_of_findColon {depth : Int} {previous : Token} {tokens : List Token}
    {cut : List Token × List Token} (h : findColon depth previous tokens = some cut) :
    cut.2 ≠ [] := by
  induction tokens generalizing depth previous cut with
  | nil => cases h
  | cons t rest ih =>
      rw [findColon] at h
      split at h
      · split at h
        · obtain ⟨more, hmore, rfl⟩ := Option.map_eq_some_iff.mp h
          have hbehind := ih hmore
          exact hbehind
        · cases h
          exact List.cons_ne_nil t rest
      · obtain ⟨more, hmore, rfl⟩ := Option.map_eq_some_iff.mp h
        have hbehind := ih hmore
        exact hbehind

/-- A value that is cut before a second colon is not empty on either side of the cut. -/
theorem ne_nil_of_secondColon {value before behind : List Token}
    (h : secondColon value = some (before, behind)) : before ≠ [] ∧ behind ≠ [] := by
  cases value with
  | nil => cases h
  | cons t rest =>
      obtain ⟨cut, hcut, hcons⟩ := Option.map_eq_some_iff.mp h
      cases hcons
      exact ⟨List.cons_ne_nil t cut.1, ne_nil_of_findColon hcut⟩

theorem culpritFrom_eq (culprit : Token) (tokens : List Token) :
    culpritFrom true culprit tokens =
        ((tokens.filter (!·.is .space)).head?).getD (tokens.getLast?.getD culprit) ∧
      culpritFrom false culprit tokens =
        ((tokens.filter (!·.is .space)).tail.head?).getD (tokens.getLast?.getD culprit) := by
  induction tokens generalizing culprit with
  | nil => exact ⟨rfl, rfl⟩
  | cons t rest ih =>
      have hlast : (t :: rest).getLast?.getD culprit = rest.getLast?.getD t := by
        rw [List.getLast?_cons]
        rfl
      obtain ⟨hsecond, hfirst⟩ := ih t
      rw [culpritFrom, culpritFrom, hlast]
      cases hspace : t.is .space with
      | true =>
          rw [List.filter_cons_of_neg (by simp [hspace])]
          exact ⟨hsecond, hfirst⟩
      | false =>
          rw [List.filter_cons_of_pos (by simp [hspace])]
          exact ⟨rfl, hsecond⟩

/-- The place of a missed semicolon is looked up in the tokens before a second colon. -/
theorem missedFrom?_eq {value before behind : List Token}
    (h : secondColon value = some (before, behind)) :
    missedFrom? value before.length = some (missedAt before) := by
  obtain ⟨hbefore, hbehind⟩ := ne_nil_of_secondColon h
  obtain ⟨rfl, -⟩ := secondColon_append h
  obtain ⟨t, rest, rfl⟩ := List.exists_cons_of_ne_nil hbefore
  obtain ⟨colon, more, rfl⟩ := List.exists_cons_of_ne_nil hbehind
  have hcolon : ((t :: rest) ++ colon :: more)[(t :: rest).length]? = some colon := by simp
  have hlast : ((t :: rest).reverse.getLast?).getD colon = t := by simp
  rw [missedFrom?, hcolon, cutAt?_append, missedAt]
  simp only [Option.bind_eq_bind, Option.bind_some, (culpritFrom_eq colon _).2, hlast]
  generalize (t :: rest).reverse.filter (!·.is .space) = words
  rcases words with - | ⟨first, - | ⟨second, words⟩⟩ <;> rfl

namespace Missed

/-- `m.start` is the byte offset where the second declaration starts. -/
def start (m : Missed) : Nat :=
  (m.next.head?.map (·.span.start)).getD 0

/-- `m.keptStop?` is the byte offset where the value of the first declaration ends, if it has
one. -/
def keptStop? (m : Missed) : Option Nat :=
  m.kept.getLast?.map (·.span.stop)

/-- `m.placed` is the cut with the places on both sides of it. -/
def placed (m : Missed) : Missed × Nat × Option Nat :=
  (m, m.start, m.keptStop?)

/-- `splitBefore? value start` cuts a value before an index, and off the white space at the end of
its first piece. It looks up the places on both sides of the cut. -/
def splitBefore? (value : List Token) (start : Nat) : Option (Missed × Nat × Option Nat) := do
  let (ahead, _) ← cutAt? start value
  let stop := behindLast (!·.is .space) ahead
  let word ← value[start]?
  let last ← elementBefore? value stop
  let (rest, next) ← cutAt? start value
  let (kept, gap) ← cutAt? stop rest
  return (⟨kept, gap, next⟩, word.span.start, last.map (·.span.stop))

/-- `ofIndices? value` cuts a value before the last word in front of a second colon, by index. -/
def ofIndices? (value : List Token) : Option (Option (Missed × Nat × Option Nat)) :=
  match colonIndex? value with
  | none => some none
  | some colon => do
      let (before, _) ← cutAt? colon value
      match lastIndex? (·.is .word) before with
      | none | some 0 => return none
      | some (start + 1) => return some (← splitBefore? value (start + 1))

theorem splitBefore?_append (ahead : List Token) (word : Token) (behind : List Token) :
    let (kept, gap) := Token.splitTrailing (·.is .space) ahead
    splitBefore? (ahead ++ word :: behind) ahead.length =
      some (⟨kept, gap, word :: behind⟩, word.span.start, kept.getLast?.map (·.span.stop)) := by
  have happend := Token.splitTrailing_append (·.is .space) ahead
  have hstop := Token.behindLast_eq (·.is .space) ahead
  generalize Token.splitTrailing (·.is .space) ahead = cut at happend hstop
  obtain ⟨kept, gap⟩ := cut
  have hlast := elementBefore?_append kept (gap ++ word :: behind)
  rw [← List.append_assoc, happend] at hlast
  have hword : (ahead ++ word :: behind)[ahead.length]? = some word := by simp
  have hkept := cutAt?_append kept gap
  rw [happend] at hkept
  simp only [splitBefore?, cutAt?_append, Option.bind_eq_bind, Option.bind_some, hstop, hlast,
    hword, hkept]
  rfl

/-- Cutting by index is cutting by recursion. -/
@[simp] theorem ofIndices?_eq (value : List Token) :
    ofIndices? value = some ((ofValue? value).map placed) := by
  rw [ofIndices?, ofValue?, colonIndex?_eq]
  cases hsecond : secondColon value with
  | none => rfl
  | some cut =>
      obtain ⟨before, behind⟩ := cut
      obtain ⟨rfl, -⟩ := secondColon_append hsecond
      simp only [Option.map_some, Option.bind_some, cutAt?_append, Option.bind_eq_bind]
      rcases Token.exists_splitTrailing (!·.is .word) before with
        ⟨hall, hcut⟩ | ⟨ahead, word, signs, rfl, hword, hsigns, hcut⟩
      · rw [lastIndex?_eq_none fun t ht ↦ by simpa using hall t ht, hcut]
        rfl
      · have hlast : lastIndex? (·.is .word) (ahead ++ word :: signs) = some ahead.length :=
          lastIndex?_eq_some (by simpa using hword) fun t ht ↦ by simpa using hsigns t ht
        have hsplit := splitBefore?_append ahead word (signs ++ behind)
        rw [hlast, hcut, List.append_assoc, List.cons_append]
        cases ahead with
        | nil => rfl
        | cons t ahead =>
            simp only [List.length_cons, List.dropLast_concat] at hsplit ⊢
            rw [hsplit]
            simp [placed, start, keptStop?]

end Missed

end Stylesheet
