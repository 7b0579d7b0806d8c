import Stylesheet.Parse
import Stylesheet.Proofs.Recast

/-!
# Tokens without their places

`Token.bare` leaves out where a token stands. What a statement means does not depend on that:
cutting a run into parts, tidying a value and looking for colons and for the important mark all
commute with leaving the places out.
-/

namespace Stylesheet

namespace Token

/-- `t.bare` is the token without its place. -/
def bare (t : Token) : Token := { t with span := ⟨0, 0⟩ }

@[simp] theorem kind_bare (t : Token) : t.bare.kind = t.kind := rfl

@[simp] theorem text_bare (t : Token) : t.bare.text = t.text := rfl

@[simp] theorem healed_bare (t : Token) : t.bare.healed = t.healed := rfl

theorem kind_of_bare {u t : Token} (h : u.bare = t.bare) : u.kind = t.kind := by
  rw [← kind_bare u, h, kind_bare]

theorem text_of_bare {u t : Token} (h : u.bare = t.bare) : u.text = t.text := by
  rw [← text_bare u, h, text_bare]

@[simp] theorem spelling_map_bare (tokens : List Token) :
    spelling (tokens.map bare) = spelling tokens := by
  simp [spelling, List.flatMap_map]

/-! ## Runs that differ in their places -/

/-- `Alike us ts` says that two runs differ at most in where their tokens stand. -/
def Alike (us ts : List Token) : Prop :=
  us.map bare = ts.map bare

namespace Alike

variable {us ts : List Token}

theorem refl (ts : List Token) : Alike ts ts := rfl

theorem kinds (h : Alike us ts) : us.map kind = ts.map kind := by
  have := congrArg (List.map kind) h
  rwa [List.map_map, List.map_map] at this

theorem append {vs ws : List Token} (h : Alike us ts) (hmore : Alike vs ws) :
    Alike (us ++ vs) (ts ++ ws) := by
  unfold Alike at *
  rw [List.map_append, List.map_append, h, hmore]

theorem nil (h : Alike us []) : us = [] := List.map_eq_nil_iff.mp h

theorem exists_cons {t : Token} (h : Alike us (t :: ts)) :
    ∃ u vs, us = u :: vs ∧ u.bare = t.bare ∧ Alike vs ts := by
  obtain ⟨u, vs, rfl, hu, hvs⟩ := List.map_eq_cons_iff.mp h
  exact ⟨u, vs, rfl, hu, hvs⟩

theorem exists_append {vs : List Token} (h : Alike us (ts ++ vs)) :
    ∃ xs ys, us = xs ++ ys ∧ Alike xs ts ∧ Alike ys vs := by
  unfold Alike at h
  rw [List.map_append] at h
  obtain ⟨xs, ys, rfl, hxs, hys⟩ := List.map_eq_append_iff.mp h
  exact ⟨xs, ys, rfl, hxs, hys⟩

theorem forall_kind {P : TokenKind → Prop} (h : Alike us ts) (hts : ∀ t ∈ ts, P t.kind) :
    ∀ u ∈ us, P u.kind := by
  intro u hu
  have hmem : u.kind ∈ ts.map kind := h.kinds ▸ List.mem_map_of_mem hu
  obtain ⟨t, ht, hkind⟩ := List.mem_map.mp hmem
  exact hkind ▸ hts t ht

theorem singleton {t : Token} (h : Alike us [t]) : ∃ u, us = [u] ∧ u.bare = t.bare := by
  obtain ⟨u, vs, rfl, hu, hvs⟩ := h.exists_cons
  exact ⟨u, by rw [hvs.nil], hu⟩

end Alike

theorem isRecast_bare : IsRecast bare := ⟨fun _ ↦ rfl, fun _ ↦ rfl⟩

end Token

open Token

/-! ## Parts and colons -/

namespace Parts

/-- `p.bare` are the parts without the places of their tokens. -/
def bare (p : Parts) : Parts where
  stray := p.stray.map Token.bare
  name := p.name.map Token.bare
  colon := p.colon.map Token.bare
  gap := p.gap.map Token.bare
  value := p.value.map Token.bare

theorem ofTokens?_map_bare (tokens : List Token) :
    ofTokens? (tokens.map Token.bare) = (ofTokens? tokens).map bare :=
  ofTokens?_map isRecast_bare tokens

theorem unknownWords_bare (p : Parts) : p.bare.unknownWords = p.unknownWords.map Token.bare := by
  rw [unknownWords, unknownWords, bare, List.filter_map]
  rfl

end Parts

/-! ## Values -/

theorem tidyFrom_map_bare (custom : Bool) (before : Option TokenKind) (last : Option Char)
    (dropped : Bool) (tokens : List Token) :
    tidyFrom custom before last dropped (tokens.map bare) =
      (tidyFrom custom before last dropped tokens).map bare := by
  induction tokens generalizing before last dropped with
  | nil => rfl
  | cons t rest ih =>
      have hnext : (rest.map bare).head?.map (·.kind) = rest.head?.map (·.kind) := by
        cases rest <;> rfl
      rw [List.map_cons, tidyFrom, tidyFrom]
      by_cases hedge : (t.is .space && ((rest.isEmpty && !custom) ||
          (dropped && last.any Char.isBlank))) = true
      · rw [if_pos hedge, if_pos (by rw [List.isEmpty_map]; exact hedge)]
        exact ih _ _ _
      rw [if_neg hedge, if_neg (by rw [List.isEmpty_map]; exact hedge)]
      by_cases hremark : (t.is .comment && (isLoose before ||
          isLoose (rest.head?.map (·.kind)) || last == some ',')) = true
      · rw [if_pos hremark, if_pos (by rw [hnext]; exact hremark)]
        exact ih _ _ _
      · rw [if_neg hremark, if_neg (by rw [hnext]; exact hremark)]
        exact congrArg (t.bare :: ·) (ih _ _ _)

theorem Value.ofTokens_map_bare (custom : Bool) (tokens : List Token) :
    ofTokens custom (tokens.map bare) = ofTokens custom tokens := by
  simp only [ofTokens, tidy, tidyFrom_map_bare, spelling_map_bare, List.length_map]
  rfl

/-! ## The important mark -/

/-- `m.bare` is a value without its mark and without the places of its tokens. -/
def Marked.bare (m : Marked) : Marked := { m with tokens := m.tokens.map Token.bare }

theorem spellBack_map_bare (spelled : Text) (ahead behind : List Token) :
    spellBack spelled (ahead.map bare) (behind.map bare) =
      ((spellBack spelled ahead behind).1, (spellBack spelled ahead behind).2.map bare) := by
  induction behind generalizing spelled ahead with
  | nil =>
      cases ahead with
      | nil => rfl
      | cons guard ahead => cases ahead <;> rfl
  | cons t behind ih =>
      match ahead with
      | [] => rfl
      | [_] => rfl
      | guard :: next :: ahead =>
          show spellBack spelled (guard.bare :: next.bare :: ahead.map bare)
            (t.bare :: behind.map bare) = _
          rw [spellBack, spellBack]
          split
          · next hstop =>
              rw [if_pos (by exact hstop)]
              rfl
          · next hstop =>
              rw [if_neg (by exact hstop)]
              exact ih (t.text ++ spelled) (next :: ahead)

theorem takeImportant_map_bare (tokens : List Token) :
    takeImportant (tokens.map bare) = (takeImportant tokens).bare := by
  unfold takeImportant
  rw [splitTrailing_map (f := bare) fun _ ↦ rfl]
  generalize splitTrailing isTrivia tokens = split
  obtain ⟨body, trivia⟩ := split
  dsimp only
  rw [List.getLast?_map]
  cases body.getLast? with
  | none => rfl
  | some word =>
      rw [Option.map_some]
      dsimp only
      rw [← List.map_dropLast, splitTrailing_map (f := bare) fun _ ↦ rfl, ← List.map_reverse,
        ← List.map_reverse, spellBack_map_bare]
      dsimp only
      rw [spelling_map_bare, spelling_map_bare]
      by_cases hwhole : word.text.equalsIgnoringCase "!important".toList = true
      · rw [if_pos hwhole, if_pos (show word.bare.text.equalsIgnoringCase _ = true from hwhole)]
        rfl
      rw [if_neg hwhole, if_neg (show ¬word.bare.text.equalsIgnoringCase _ = true from hwhole)]
      by_cases hword : word.text.equalsIgnoringCase "important".toList = true
      · rw [if_pos hword, if_pos (show word.bare.text.equalsIgnoringCase _ = true from hword)]
        by_cases hmark : (Text.trim (spellBack [] body.reverse tokens.reverse).1).head? = some '!'
        · rw [if_pos hmark, if_pos hmark, ← List.map_reverse]
          rfl
        · rw [if_neg hmark, if_neg hmark]
          rfl
      · rw [if_neg hword, if_neg (show ¬word.bare.text.equalsIgnoringCase _ = true from hword)]
        rfl

end Stylesheet
