import Stylesheet.Token.Class
import Stylesheet.Token.Basic

/-!
# Scanning one token

`scan` looks at the first character of a text that is not empty and decides how far the first
token reaches. Its answer, an `Extent`, is the kind of the token with the number of its
characters, or the construct that is open at the end of the text. Each kind of token has a scanner
of its own. `scan_length` says that every token takes at least one character and no more than
there are.
-/

namespace Stylesheet

/-- How far a token reaches: over a number of characters, or to the end of the text, where its
construct is still open. -/
inductive Extent where
  | closed (kind : TokenKind) (length : Nat)
  | unclosed (construct : OpenConstruct)
  deriving Repr, DecidableEq

namespace Scan

/-! ## Searching -/

/-- `endsEscaped seen` says that the text whose reverse is `seen` ends with an odd number of
backslashes, so that they escape the character behind it. -/
def endsEscaped (seen : Text) : Bool :=
  (seen.takeWhile (· == '\\')).length % 2 == 1

/-- `findUnescapedFrom seen terminator text` computes the place of the first terminator in `text`
that no odd run of backslashes stands before. `seen` is the reverse of what has been passed. -/
def findUnescapedFrom (seen : Text) (terminator : Char) : Text → Option Nat
  | [] => none
  | c :: text =>
      if c = terminator ∧ endsEscaped seen = false then some seen.length
      else findUnescapedFrom (c :: seen) terminator text

/-- `findUnescaped terminator text` computes the number of characters before the first unescaped
terminator of `text`. Backslashes before `text` do not count. -/
def findUnescaped (terminator : Char) (text : Text) : Option Nat :=
  findUnescapedFrom [] terminator text

/-- `commentEnd text` computes the number of characters of `text` up to and with the first
`*/`. -/
def commentEnd : Text → Option Nat
  | '*' :: '/' :: _ => some 2
  | _ :: text => (commentEnd text).map (· + 1)
  | [] => none

/-- `wordLength t text` computes the number of characters of `text` before the first one that ends
a word and before the first comment. -/
def wordLength (t : Classifier) : Text → Nat
  | [] => 0
  | c :: text =>
      if t.is .wordEnd c || (c == '/' && text.head? == some '*') then 0
      else wordLength t text + 1

/-! ## Scanners

Each scanner is given the text behind the first character of its token. -/

/-- White space reaches as far as the class does. -/
def space (t : Classifier) (text : Text) : Extent :=
  .closed .space (1 + (text.takeWhile (t.is .space)).length)

/-- A string reaches to the next unescaped quote of the kind that opened it. -/
def string (quote : Char) (text : Text) : Extent :=
  match findUnescaped quote text with
  | some n => .closed .string (n + 2)
  | none => .unclosed .string

/-- A comment reaches to the first `*/` behind its opening. -/
def comment (text : Text) : Extent :=
  match commentEnd (text.drop 1) with
  | some n => .closed .comment (n + 2)
  | none => .unclosed .comment

/-- An at-keyword reaches to the first character that ends it. -/
def atWord (t : Classifier) (text : Text) : Extent :=
  .closed .atWord (1 + (text.takeWhile fun c ↦ !t.is .atEnd c).length)

/-- The characters that a backslash does not escape. -/
def escapeStops : Text := ['/', ' ', '\n', '\t', '\r', '\x0c']

/-- `escapedLength t text` computes the number of characters that an escape takes behind its
backslash: one, or all the digits of a hexadecimal escape with one space behind them. -/
def escapedLength (t : Classifier) : Text → Nat
  | [] => 0
  | c :: text =>
      if escapeStops.contains c then 0
      else if t.is .hex c then
        let digits := (text.takeWhile (t.is .hex)).length
        1 + digits + if (text.drop digits).head? = some ' ' then 1 else 0
      else 1

/-- An escape is a run of backslashes. If their number is odd, the last one escapes what
follows. -/
def escape (t : Classifier) (text : Text) : Extent :=
  let slashes := (text.takeWhile (· == '\\')).length
  if slashes % 2 = 0 then .closed .word (1 + slashes + escapedLength t (text.drop slashes))
  else .closed .word (1 + slashes)

/-- A word reaches to the first character that ends it or to a comment. -/
def word (t : Classifier) (text : Text) : Extent :=
  .closed .word (1 + wordLength t text)

/-- The characters that make the argument of a url a quoted or a spaced one. -/
def urlStops : Text := ['"', '\'', ' ', '\n', '\t', '\r', '\x0c']

/-- `opensUrl before text` says that an opening parenthesis starts the body of an unquoted url:
the last word before it is `url`, and neither a quote nor white space follows. -/
def opensUrl (before : Option Text) (text : Text) : Bool :=
  before == some "url".toList && !text.head?.any urlStops.contains

/-- The body of an unquoted url reaches to the next unescaped closing parenthesis. -/
def url (text : Text) : Extent :=
  match findUnescaped ')' text with
  | some n => .closed .brackets (n + 2)
  | none => .unclosed .bracket

/-- A group without refused characters is one token; any other opening parenthesis stands
alone. -/
def group (t : Classifier) (text : Text) : Extent :=
  let body := text.takeWhile (· != ')')
  if body.length = text.length || body.any (t.is .badBracket) then .closed .leftParen 1
  else .closed .brackets (body.length + 2)

/-- An opening parenthesis starts the body of a url or a group. -/
def openParen (t : Classifier) (before : Option Text) (text : Text) : Extent :=
  if opensUrl before text then url text else group t text

/-- The kind of the token that a structural character is on its own. -/
def single? : Char → Option TokenKind
  | '[' => some .leftBracket
  | ']' => some .rightBracket
  | '\x7b' => some .leftBrace
  | '\x7d' => some .rightBrace
  | ':' => some .colon
  | ';' => some .semicolon
  | ')' => some .rightParen
  | _ => none

end Scan

/-- `scan t before c text` computes the extent of the token that starts with the character `c` and
goes on in `text`. `before` is the last word since the last opening parenthesis. -/
def scan (t : Classifier) (before : Option Text) (c : Char) (text : Text) : Extent :=
  if t.is .space c then Scan.space t text
  else
    match Scan.single? c with
    | some kind => .closed kind 1
    | none =>
        if c = '(' then Scan.openParen t before text
        else if c = '"' ∨ c = '\'' then Scan.string c text
        else if c = '@' then Scan.atWord t text
        else if c = '\\' then Scan.escape t text
        else if c = '/' ∧ text.head? = some '*' then Scan.comment text
        else Scan.word t text

/-! ## Extents are within the text -/

namespace Scan

theorem findUnescapedFrom_lt {seen : Text} {terminator : Char} {text : Text} {n : Nat}
    (h : findUnescapedFrom seen terminator text = some n) : n < seen.length + text.length := by
  induction text generalizing seen with
  | nil => simp [findUnescapedFrom] at h
  | cons c text ih =>
      simp only [findUnescapedFrom] at h
      split at h
      · cases h
        simp
      · have := ih h
        simp at this ⊢
        omega

theorem findUnescaped_lt {terminator : Char} {text : Text} {n : Nat}
    (h : findUnescaped terminator text = some n) : n < text.length := by
  simpa using findUnescapedFrom_lt h

theorem commentEnd_le {text : Text} {n : Nat} (h : commentEnd text = some n) :
    n ≤ text.length := by
  induction text using commentEnd.induct generalizing n with
  | case1 text =>
      simp only [commentEnd, Option.some.injEq] at h
      simp
      omega
  | case2 c text hne ih =>
      rw [commentEnd.eq_2 c text hne] at h
      obtain ⟨m, hm, rfl⟩ := Option.map_eq_some_iff.mp h
      have := ih hm
      simp
      omega
  | case3 => simp [commentEnd] at h

theorem length_takeWhile_le (p : Char → Bool) (text : Text) :
    (text.takeWhile p).length ≤ text.length :=
  (List.takeWhile_sublist p).length_le

theorem wordLength_le (t : Classifier) (text : Text) : wordLength t text ≤ text.length := by
  induction text with
  | nil => simp [wordLength]
  | cons c text ih =>
      simp only [wordLength]
      split <;> simp
      omega

theorem escapedLength_le (t : Classifier) (text : Text) :
    escapedLength t text ≤ text.length := by
  cases text with
  | nil => simp [escapedLength]
  | cons c text =>
      have hdigits := length_takeWhile_le (t.is .hex) text
      simp only [escapedLength, List.length_cons]
      split
      · omega
      · split
        · split
          · next h =>
              have : (text.drop (text.takeWhile (t.is .hex)).length) ≠ [] := by
                intro hnil
                simp [hnil] at h
              have := List.length_pos_iff.mpr this
              simp at this
              omega
          · omega
        · omega

variable {t : Classifier} {before : Option Text} {text : Text} {kind : TokenKind} {n : Nat}

theorem string_length {quote : Char} (h : string quote text = .closed kind n) :
    0 < n ∧ n ≤ text.length + 1 := by
  unfold string at h
  split at h
  · next hn =>
      have := findUnescaped_lt hn
      cases h
      omega
  · cases h

theorem url_length (h : url text = .closed kind n) : 0 < n ∧ n ≤ text.length + 1 := by
  unfold url at h
  split at h
  · next hn =>
      have := findUnescaped_lt hn
      cases h
      omega
  · cases h

theorem group_length (h : group t text = .closed kind n) : 0 < n ∧ n ≤ text.length + 1 := by
  have := length_takeWhile_le (· != ')') text
  simp only [group] at h
  split at h
  · cases h
    omega
  · next hne =>
      simp only [Bool.or_eq_true, decide_eq_true_eq, not_or] at hne
      cases h
      omega

theorem openParen_length (h : openParen t before text = .closed kind n) :
    0 < n ∧ n ≤ text.length + 1 := by
  unfold openParen at h
  split at h
  · exact url_length h
  · exact group_length h

theorem escape_length (h : escape t text = .closed kind n) : 0 < n ∧ n ≤ text.length + 1 := by
  have hslashes := length_takeWhile_le (· == '\\') text
  have hescaped := escapedLength_le t (text.drop (text.takeWhile (· == '\\')).length)
  simp only [List.length_drop] at hescaped
  simp only [escape] at h
  split at h <;> cases h <;> omega

theorem comment_length (hne : text ≠ []) (h : comment text = .closed kind n) :
    0 < n ∧ n ≤ text.length + 1 := by
  have := List.length_pos_iff.mpr hne
  unfold comment at h
  split at h
  · next hn =>
      have := commentEnd_le hn
      simp only [List.length_drop] at this
      cases h
      omega
  · cases h

end Scan

open Scan in
/-- Every token takes at least one character and no more than there are. -/
theorem scan_length {t : Classifier} {before : Option Text} {c : Char} {text : Text}
    {kind : TokenKind} {n : Nat} (h : scan t before c text = .closed kind n) :
    0 < n ∧ n ≤ text.length + 1 := by
  have htake := fun p ↦ length_takeWhile_le p text
  unfold scan at h
  split at h
  · have := htake (t.is .space)
    cases h
    omega
  split at h
  · cases h
    omega
  split at h
  · exact openParen_length h
  split at h
  · exact string_length h
  split at h
  · have := htake fun c ↦ !t.is .atEnd c
    cases h
    omega
  split at h
  · exact escape_length h
  split at h
  · next hopen =>
      refine comment_length (fun hnil ↦ ?_) h
      simp [hnil] at hopen
  · have := wordLength_le t text
    cases h
    omega

end Stylesheet
