import Stylesheet.Text

/-!
# Recorded layout

The `Raws` of a node record how it was written: the text before it, between its parts and before
its end, the written form of a text that was tidied, and what a repair has found wrong. A missing
raw is inferred when the node is printed. Raws can be read and written under their keys; a key
that names no raw is kept among the extra texts.

`get?_put` and `get?_erase` say what can be read from the extra texts behind a change, and
`text_withText_self` and `text_withText_of_ne` say it of the text raws.
-/

namespace Stylesheet

/-- A tidied text together with the text as it was written. -/
structure RawValue where
  value : Text
  raw : Text
  deriving Repr, DecidableEq, Inhabited

/-- `written cache value` is the written form of a value. A cache that belongs to another value
does not count. -/
def RawValue.written (cache : Option RawValue) (value : Text) : Text :=
  match cache with
  | some cached => if cached.value = value then cached.raw else value
  | none => value

/-- What a repair has found wrong with a node. -/
inductive Damage where
  | unclosedBlock
  | unclosedString
  | unclosedComment
  | unclosedBracket
  | missingValue
  | unexpectedClose
  | missedSemicolon
  | doubleColon
  | unnamedAtRule
  | unknownWord
  deriving Repr, DecidableEq, Inhabited

namespace Damage

/-- All damages. -/
def all : List Damage :=
  [unclosedBlock, unclosedString, unclosedComment, unclosedBracket, missingValue, unexpectedClose,
    missedSemicolon, doubleColon, unnamedAtRule, unknownWord]

/-- The name of a damage. -/
def name : Damage → String
  | unclosedBlock => "unclosed-block"
  | unclosedString => "unclosed-string"
  | unclosedComment => "unclosed-comment"
  | unclosedBracket => "unclosed-bracket"
  | missingValue => "missing-value"
  | unexpectedClose => "unexpected-close"
  | missedSemicolon => "missed-semicolon"
  | doubleColon => "double-colon"
  | unnamedAtRule => "unnamed-at-rule"
  | unknownWord => "unknown-word"

end Damage

/-- Texts under keys, in the order in which the keys were first written. -/
abbrev TextMap := List (String × Text)

namespace TextMap

/-- `m.put key text` writes the text under the key. -/
def put (m : TextMap) (key : String) (text : Text) : TextMap :=
  match m with
  | [] => [(key, text)]
  | (k, t) :: m => if k = key then (key, text) :: m else (k, t) :: put m key text

/-- `m.erase key` drops the text under the key. -/
def erase (m : TextMap) (key : String) : TextMap :=
  match m with
  | [] => []
  | (k, t) :: m => if k = key then erase m key else (k, t) :: erase m key

/-- `m.get? key` is the text under the key. -/
def get? (m : TextMap) (key : String) : Option Text :=
  match m with
  | [] => none
  | (k, t) :: m => if k = key then some t else get? m key

theorem get?_put (m : TextMap) (key other : String) (text : Text) :
    (m.put key text).get? other = if other = key then some text else m.get? other := by
  induction m with
  | nil => simp [put, get?, eq_comm]
  | cons entry m ih =>
      obtain ⟨k, t⟩ := entry
      by_cases hk : k = key
      · by_cases ho : other = key
        · simp [put, get?, hk, ho]
        · simp [put, get?, hk, ho, Ne.symm ho]
      · by_cases ho : k = other
        · subst ho
          simp [put, get?, hk]
        · simp [put, get?, hk, ho, ih]

theorem get?_erase (m : TextMap) (key other : String) :
    (m.erase key).get? other = if other = key then none else m.get? other := by
  induction m with
  | nil => simp [erase, get?]
  | cons entry m ih =>
      obtain ⟨k, t⟩ := entry
      by_cases hk : k = key
      · subst hk
        by_cases ho : other = k
        · simpa [erase, ho] using ih
        · simp [erase, get?, ho, ih, Ne.symm ho]
      · by_cases ho : k = other
        · subst ho
          simp [erase, get?, hk]
        · simp [erase, get?, hk, ho, ih]

end TextMap

/-- How a node was written. -/
structure Raws where
  /-- The text before the node. -/
  before : Option Text := none
  /-- The text before the end of the block. -/
  after : Option Text := none
  /-- The text between the head of the node and its block or value. -/
  between : Option Text := none
  /-- The last child that can end with a semicolon does so. -/
  semicolon : Option Bool := none
  /-- The text between the name of an at-rule and its parameters. -/
  afterName : Option Text := none
  /-- The blank text at the start of a comment. -/
  left : Option Text := none
  /-- The blank text at the end of a comment. -/
  right : Option Text := none
  /-- The spelling of an important mark. -/
  important : Option Text := none
  /-- The text up to a semicolon that follows a rule. -/
  ownSemicolon : Option Text := none
  selector : Option RawValue := none
  value : Option RawValue := none
  params : Option RawValue := none
  damage : List Damage := []
  extra : TextMap := []
  deriving Repr, DecidableEq, Inhabited

/-- The raws that are a single text and are read and written under a key. -/
inductive TextRaw where
  | before
  | after
  | between
  | afterName
  | left
  | right
  | important
  | ownSemicolon
  deriving Repr, DecidableEq

namespace TextRaw

/-- All raws that are a single text, in the order in which they are listed. -/
def all : List TextRaw :=
  [before, after, between, afterName, left, right, important, ownSemicolon]

/-- The key of a raw. -/
def key : TextRaw → String
  | before => "before"
  | after => "after"
  | between => "between"
  | afterName => "afterName"
  | left => "left"
  | right => "right"
  | important => "important"
  | ownSemicolon => "ownSemicolon"

/-- `ofKey? key` is the raw with this key. -/
def ofKey? (key : String) : Option TextRaw :=
  all.find? (·.key == key)

end TextRaw

/-- The raws that keep a tidied text with its written form. -/
inductive CachedRaw where
  | selector
  | value
  | params
  deriving Repr, DecidableEq

namespace CachedRaw

/-- All raws that keep a written form. -/
def all : List CachedRaw :=
  [selector, value, params]

/-- The name of the property whose written form is kept. -/
def name : CachedRaw → String
  | selector => "selector"
  | value => "value"
  | params => "params"

/-- The key of the written form. -/
def key : CachedRaw → String
  | selector => "selector.raw"
  | value => "value.raw"
  | params => "params.raw"

/-- `ofKey? key` is the raw whose written form has this key. -/
def ofKey? (key : String) : Option CachedRaw :=
  all.find? (·.key == key)

end CachedRaw

namespace Raws

/-- `r.text raw` is the recorded text of a raw. -/
def text (r : Raws) : TextRaw → Option Text
  | .before => r.before
  | .after => r.after
  | .between => r.between
  | .afterName => r.afterName
  | .left => r.left
  | .right => r.right
  | .important => r.important
  | .ownSemicolon => r.ownSemicolon

/-- `r.withText raw text` records a text or its absence. -/
def withText (r : Raws) (raw : TextRaw) (text : Option Text) : Raws :=
  match raw with
  | .before => { r with before := text }
  | .after => { r with after := text }
  | .between => { r with between := text }
  | .afterName => { r with afterName := text }
  | .left => { r with left := text }
  | .right => { r with right := text }
  | .important => { r with important := text }
  | .ownSemicolon => { r with ownSemicolon := text }

/-- `r.cache raw` is the text that is kept with its written form. -/
def cache (r : Raws) : CachedRaw → Option RawValue
  | .selector => r.selector
  | .value => r.value
  | .params => r.params

/-- `r.withCache raw cache` keeps a written form or drops it. -/
def withCache (r : Raws) (raw : CachedRaw) (cache : Option RawValue) : Raws :=
  match raw with
  | .selector => { r with selector := cache }
  | .value => { r with value := cache }
  | .params => { r with params := cache }

/-- `r.get key` is the text under a key: a raw, a written form or an extra text. -/
def get (r : Raws) (key : String) : Option Text :=
  match TextRaw.ofKey? key with
  | some raw => r.text raw
  | none =>
      match CachedRaw.ofKey? key with
      | some raw => (r.cache raw).map (·.raw)
      | none => r.extra.get? key

/-- `r.set key text` writes a text under a key. A key of no text raw goes to the extra texts, also
when it is the key of a written form. -/
def set (r : Raws) (key : String) (text : Text) : Raws :=
  match TextRaw.ofKey? key with
  | some raw => r.withText raw (some text)
  | none => { r with extra := r.extra.put key text }

/-- `r.remove key` drops what is recorded under a key. The semicolon flag can be dropped under its
name, and a written form also under the name of its property. -/
def remove (r : Raws) (key : String) : Raws :=
  match TextRaw.ofKey? key with
  | some raw => r.withText raw none
  | none =>
      if key = "semicolon" then { r with semicolon := none }
      else
        match CachedRaw.all.find? fun raw ↦ raw.key == key || raw.name == key with
        | some raw => r.withCache raw none
        | none => { r with extra := r.extra.erase key }

/-- `r.forgetPlace` drops the layout that depends on where the node stands. -/
def forgetPlace (r : Raws) : Raws :=
  { r with before := none, after := none }

/-- `r.isDamaged` says that a repair has found something wrong. -/
def isDamaged (r : Raws) : Bool :=
  !r.damage.isEmpty

@[simp] theorem text_withText_self (r : Raws) (raw : TextRaw) (text : Option Text) :
    (r.withText raw text).text raw = text := by
  cases raw <;> rfl

theorem text_withText_of_ne (r : Raws) {raw other : TextRaw} (text : Option Text)
    (h : other ≠ raw) : (r.withText raw text).text other = r.text other := by
  cases raw <;> cases other <;> simp_all [withText, Raws.text]

@[simp] theorem cache_withText (r : Raws) (raw : TextRaw) (text : Option Text)
    (cached : CachedRaw) : (r.withText raw text).cache cached = r.cache cached := by
  cases raw <;> cases cached <;> rfl

@[simp] theorem extra_withText (r : Raws) (raw : TextRaw) (text : Option Text) :
    (r.withText raw text).extra = r.extra := by
  cases raw <;> rfl

@[simp] theorem cache_withCache_self (r : Raws) (raw : CachedRaw) (cache : Option RawValue) :
    (r.withCache raw cache).cache raw = cache := by
  cases raw <;> rfl

end Raws

end Stylesheet
