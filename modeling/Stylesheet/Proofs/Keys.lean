import Stylesheet.Proofs.Caches

/-!
# Layout under keys

A key is that of a raw, that of a written form, or any other text, under which an extra text is
kept. `get_withText` and `get_withCache` say what is read under a key behind a change of one of
the first two, and `get_of_isExtra` and `get_of_not_isExtra` behind a change of the third.

Reading, writing and dropping each choose between the three on their own, and they do not quite
agree. A text that is written under the key of a written form goes to the extra texts and is not
read again (`get_set`). Under the name of the semicolon flag, or of a property with a written
form, the flag or the written form is dropped, although what is read there is an extra text
(`get_remove`). `get_keyed` says that keys are those of a map in all other cases.
-/

namespace Stylesheet

theorem TextRaw.ofKey?_eq_some_iff {key : String} {raw : TextRaw} :
    ofKey? key = some raw ↔ key = raw.key := by
  constructor
  · intro h
    have hkey := List.find?_some (p := fun raw : TextRaw ↦ raw.key == key) h
    exact (beq_iff_eq.mp hkey).symm
  · rintro rfl
    cases raw <;> rfl

theorem CachedRaw.ofKey?_eq_some_iff {key : String} {raw : CachedRaw} :
    ofKey? key = some raw ↔ key = raw.key := by
  constructor
  · intro h
    have hkey := List.find?_some (p := fun raw : CachedRaw ↦ raw.key == key) h
    exact (beq_iff_eq.mp hkey).symm
  · rintro rfl
    cases raw <;> rfl

/-- The key of a raw is not that of a written form. -/
theorem CachedRaw.ofKey?_eq_none {key : String} {raw : TextRaw}
    (h : TextRaw.ofKey? key = some raw) : ofKey? key = none := by
  rw [TextRaw.ofKey?_eq_some_iff.mp h]
  cases raw <;> rfl

namespace Raws

variable (r : Raws) {key : String}

/-! ## Reading behind a change -/

theorem get_withText (raw : TextRaw) (text : Option Text) (key : String) :
    (r.withText raw text).get key = if key = raw.key then text else r.get key := by
  simp only [← TextRaw.ofKey?_eq_some_iff]
  cases htext : TextRaw.ofKey? key with
  | none => simp only [get, htext, cache_withText, extra_withText, reduceCtorEq, if_false]
  | some other =>
      simp only [get, htext]
      by_cases h : other = raw
      · rw [h, if_pos rfl, text_withText_self]
      · rw [if_neg fun heq ↦ h (Option.some.inj heq), text_withText_of_ne r text h]

theorem get_withCache (raw : CachedRaw) (cache : Option RawValue) (key : String) :
    (r.withCache raw cache).get key = if key = raw.key then cache.map (·.raw) else r.get key := by
  simp only [← CachedRaw.ofKey?_eq_some_iff]
  cases htext : TextRaw.ofKey? key with
  | some other =>
      rw [CachedRaw.ofKey?_eq_none htext, if_neg (Option.some_ne_none raw).symm]
      simp only [get, htext]
      cases raw <;> cases other <;> rfl
  | none =>
      simp only [get, htext]
      cases CachedRaw.ofKey? key with
      | none => cases raw <;> rfl
      | some other =>
          dsimp only
          by_cases h : other = raw
          · rw [h, if_pos rfl, cache_withCache_self]
          · rw [if_neg fun heq ↦ h (Option.some.inj heq), cache_withCache_of_ne r cache h]

/-- `IsExtra key` says that an extra text is read under a key. -/
def IsExtra (key : String) : Prop :=
  TextRaw.ofKey? key = none ∧ CachedRaw.ofKey? key = none

theorem get_of_isExtra (h : IsExtra key) : r.get key = r.extra.get? key := by
  simp only [get, h.1, h.2]

/-- A change of the extra texts, or of the semicolon flag, shows under the keys of extra texts
only. -/
theorem get_of_not_isExtra (extra : TextMap) (semicolon : Option Bool) (h : ¬IsExtra key) :
    ({ r with extra, semicolon } : Raws).get key = r.get key := by
  cases htext : TextRaw.ofKey? key with
  | some raw =>
      simp only [get, htext]
      cases raw <;> rfl
  | none =>
      cases hcached : CachedRaw.ofKey? key with
      | some raw =>
          simp only [get, htext, hcached]
          cases raw <;> rfl
      | none => exact absurd ⟨htext, hcached⟩ h

/-! ## Writing and dropping -/

/-- Behind writing, the text is read under its key unless that is the key of a written form.
Nothing else changes. -/
theorem get_set (key : String) (text : Text) (other : String) :
    (r.set key text).get other =
      if other = key ∧ CachedRaw.ofKey? key = none then some text else r.get other := by
  cases htext : TextRaw.ofKey? key with
  | some raw =>
      simp only [set, htext, CachedRaw.ofKey?_eq_none htext, and_true]
      rw [get_withText, ← TextRaw.ofKey?_eq_some_iff.mp htext]
  | none =>
      simp only [set, htext]
      by_cases hextra : IsExtra other
      · rw [get_of_isExtra _ hextra, TextMap.get?_put, ← get_of_isExtra r hextra]
        by_cases heq : other = key
        · rw [if_pos heq, if_pos ⟨heq, heq ▸ hextra.2⟩]
        · rw [if_neg heq, if_neg fun h ↦ heq h.1]
      · rw [get_of_not_isExtra r _ _ hextra, if_neg]
        rintro ⟨rfl, hcached⟩
        exact hextra ⟨htext, hcached⟩

/-- `dropped? key` is the key under which nothing is read behind dropping what is under `key`. -/
def dropped? (key : String) : Option String :=
  if key = "semicolon" then none
  else some (((CachedRaw.all.find? (·.name == key)).map CachedRaw.key).getD key)

/-- Dropping under a key changes what is read under one key at most. -/
theorem get_remove (key other : String) :
    (r.remove key).get other = if some other = dropped? key then none else r.get other := by
  cases htext : TextRaw.ofKey? key with
  | some raw =>
      have hdropped : dropped? key = some key := by
        rw [TextRaw.ofKey?_eq_some_iff.mp htext]
        cases raw <;> rfl
      simp only [remove, htext, hdropped, Option.some.injEq]
      rw [get_withText, ← TextRaw.ofKey?_eq_some_iff.mp htext]
  | none =>
      simp only [remove, htext]
      split
      · next hsemicolon =>
          rw [dropped?, if_pos hsemicolon, if_neg (Option.some_ne_none other)]
          by_cases hextra : IsExtra other
          · rw [get_of_isExtra _ hextra, get_of_isExtra _ hextra]
          · exact get_of_not_isExtra r _ _ hextra
      · next hsemicolon =>
          split
          · next raw hfound =>
              have hdropped : dropped? key = some raw.key := by
                have hkey := List.find?_some
                  (p := fun raw : CachedRaw ↦ raw.key == key || raw.name == key) hfound
                rw [Bool.or_eq_true, beq_iff_eq, beq_iff_eq] at hkey
                rcases hkey with rfl | rfl <;> cases raw <;> rfl
              simp only [hdropped, Option.some.injEq]
              exact get_withCache r raw none other
          · next hnone =>
              have hnot : ∀ raw : CachedRaw, raw.key ≠ key ∧ raw.name ≠ key := by
                intro raw
                have hraw := List.find?_eq_none.mp hnone raw (by cases raw <;> decide)
                simpa using hraw
              have hdropped : dropped? key = some key := by
                rw [dropped?, if_neg hsemicolon,
                  List.find?_eq_none.mpr fun raw _ ↦ by simpa using (hnot raw).2]
                rfl
              have hcached : CachedRaw.ofKey? key = none :=
                List.find?_eq_none.mpr fun raw _ ↦ by simpa using (hnot raw).1
              simp only [hdropped, Option.some.injEq]
              by_cases hextra : IsExtra other
              · rw [get_of_isExtra _ hextra, TextMap.get?_erase, ← get_of_isExtra r hextra]
              · rw [get_of_not_isExtra r _ _ hextra, if_neg]
                rintro rfl
                exact hextra ⟨htext, hcached⟩

theorem ofKey?_eq_none_iff :
    CachedRaw.ofKey? key = none ↔ key ∉ ["selector.raw", "value.raw", "params.raw"] := by
  change _ ↔ key ∉ CachedRaw.all.map CachedRaw.key
  simp [CachedRaw.ofKey?]

/-- What is dropped under a key is what is read there, but for four names. -/
theorem eq_dropped?_iff : some key = dropped? key ↔ key ∉ ["semicolon", "selector", "value",
    "params"] := by
  constructor
  · rintro h hmem
    simp only [List.mem_cons, List.not_mem_nil, or_false] at hmem
    rcases hmem with rfl | rfl | rfl | rfl <;> exact absurd h (by decide)
  · intro hnot
    change key ∉ "semicolon" :: CachedRaw.all.map CachedRaw.name at hnot
    obtain ⟨hsemicolon, hname⟩ := not_or.mp (mt List.mem_cons.mpr hnot)
    have hnone : CachedRaw.all.find? (·.name == key) = none :=
      List.find?_eq_none.mpr fun raw hraw heq ↦
        hname (List.mem_map.mpr ⟨raw, hraw, beq_iff_eq.mp heq⟩)
    rw [dropped?, if_neg hsemicolon, hnone]
    rfl

/-- Keys are those of a map. A text is read under the key that it was written under, unless that
is the key of a written form, and what is read under the other keys stays as it was. Nothing is
read under a key that was dropped, unless it is the name of the semicolon flag or of a property
with a written form: under these an extra text stays. -/
theorem get_keyed (key : String) (text : Text) :
    (∀ other, (r.set key text).get other =
      if other = key ∧ key ∉ ["selector.raw", "value.raw",
        "params.raw"] then some text else r.get other) ∧
    ((r.remove key).get key = none ↔
      (key ∈ ["semicolon", "selector", "value", "params"] → r.get key = none)) := by
  refine ⟨fun other ↦ ?_, ?_⟩
  · simp only [get_set, ofKey?_eq_none_iff]
  · rw [get_remove]
    split
    · next h => exact iff_of_true rfl fun hmem ↦ absurd hmem (eq_dropped?_iff.mp h)
    · next h =>
        exact ⟨fun hnone _ ↦ hnone, fun himp ↦ himp (not_not.mp (mt eq_dropped?_iff.mpr h))⟩

/-- An extra text under the name of a property with a written form cannot be dropped. -/
theorem get_remove_value :
    ((({} : Raws).set "value" "x".toList).remove "value").get "value" = some "x".toList := rfl

end Raws

end Stylesheet
