import Mathlib.Data.List.TakeWhile
import Stylesheet.Text.Bytes
import Stylesheet.Token.Lexer

/-!
# Reading tokens by byte offset

A `Cursor` reads tokens as a lexer does, but it holds the whole text and a byte offset into it,
looks at single bytes, and cuts texts out by their range. Its functions are `none` where an index
is behind the end of the text, an end of a range is inside of a character, a difference is below
zero, or a loop does not end within as many steps as the text has bytes.

What a cursor sees at a byte is what its character is, as all that a scanner asks for is ASCII.
From this follows `firstStop_class`, for the loops that go on as far as a class of characters
does.
-/

namespace Stylesheet

/-- A place in a text, as a byte offset. `word` is the last plain word since the last opening
parenthesis. -/
structure Cursor where
  classifier : Classifier
  policy : OpenPolicy
  text : Text
  position : Nat := 0
  word : Option Text := none

/-- How far a token reaches: up to a byte offset, or to the end of the text, where its construct
is still open. -/
inductive Reach where
  | closed (kind : TokenKind) (stop : Nat)
  | unclosed (construct : OpenConstruct)
  deriving Repr, DecidableEq

/-- `e.reach start text` is an extent in bytes, for a token at the start of `text`. -/
def Extent.reach (start : Nat) (text : Text) : Extent → Reach
  | .closed kind n => .closed kind (start + Text.utf8Size (text.take n))
  | .unclosed construct => .unclosed construct

namespace Cursor

/-- A bound for the number of steps of a loop over the bytes of the text. -/
def bound (cur : Cursor) : Nat := cur.text.utf8Size + 1

/-- `cur.holds k i` says that there is a byte at an index and that it is in class `k`. -/
def holds (cur : Cursor) (k : CharClass) (i : Nat) : Bool :=
  (cur.text.byte? i).any (cur.classifier.is k)

/-- `cur.sees i c` says that the byte at an index is `c`. -/
def sees (cur : Cursor) (i : Nat) (c : Char) : Bool :=
  cur.text.byte? i == some c

/-! ## Searching -/

/-- `cur.slashes start found steps n` counts the backslashes directly before the byte at `found`,
from the `n`-th one on and not before `start`. -/
def slashes (cur : Cursor) (start found : Nat) : Nat → Nat → Option Nat
  | 0, _ => none
  | steps + 1, n => do
      let stop ← difference? found n
      if start < stop then
        let c ← cur.text.byte? (← difference? stop 1)
        if c = '\\' then slashes cur start found steps (n + 1) else return n
      else return n

/-- `cur.findUnescaped terminator start steps search` is the index of the first terminator from
`search` on that no odd run of backslashes stands before, where those before `start` do not
count. -/
def findUnescaped (cur : Cursor) (terminator : Char) (start : Nat) :
    Nat → Nat → Option (Option Nat)
  | 0, _ => none
  | steps + 1, search => do
      let (_, rest) ← cur.text.cut? search
      match Text.find? [terminator] rest with
      | none => return none
      | some n =>
          let found := search + n
          let slashes ← cur.slashes start found cur.bound 0
          if slashes % 2 = 0 then return some found
          else findUnescaped cur terminator start steps (found + 1)

/-! ## Scanners

Each scanner is given the byte offset of the first character of its token. -/

/-- White space reaches as far as the class does. -/
def space (cur : Cursor) (start : Nat) : Option Reach := do
  let stop ← firstStop (fun i ↦ some (!cur.holds .space i)) cur.bound (start + 1)
  return .closed .space stop

/-- `cur.enclosed construct terminator start` is a construct that reaches to the next unescaped
terminator. -/
def enclosed (cur : Cursor) (construct : OpenConstruct) (terminator : Char) (start : Nat) :
    Option Reach := do
  match ← cur.findUnescaped terminator (start + 1) cur.bound (start + 1) with
  | some close => return .closed construct.tokenKind (close + 1)
  | none => return .unclosed construct

/-- A comment reaches to the first `*/` behind its opening. -/
def comment (cur : Cursor) (start : Nat) : Option Reach := do
  let (_, rest) ← cur.text.cut? (start + 2)
  match Text.find? "*/".toList rest with
  | some n => return .closed .comment (start + 2 + n + 2)
  | none => return .unclosed .comment

/-- An at-keyword reaches to the first byte that ends it. -/
def atWord (cur : Cursor) (start : Nat) : Option Reach := do
  let stops (i : Nat) := some (!decide (i < cur.text.utf8Size) || cur.holds .atEnd i)
  let stop ← firstStop stops cur.bound (start + 1)
  return .closed .atWord stop

/-- `cur.passSlashes steps next escaping` goes to the last one of a run of backslashes, and tells
whether it escapes what follows. -/
def passSlashes (cur : Cursor) : Nat → Nat → Bool → Option (Nat × Bool)
  | 0, _, _ => none
  | steps + 1, next, escaping =>
      if cur.sees (next + 1) '\\' then passSlashes cur steps (next + 1) (!escaping)
      else some (next, escaping)

/-- `cur.passEscaped next` goes to the last byte of what a backslash at `next` escapes. -/
def passEscaped (cur : Cursor) (next : Nat) : Option Nat :=
  match cur.text.byte? (next + 1) with
  | none => some next
  | some c => do
      if Scan.escapeStops.contains c then return next
      else
        let (_, rest) ← cur.text.cut? (next + 1)
        let next := next + (rest.head?.map Char.utf8Size).getD 1
        if cur.holds .hex next then
          let next ← firstStop (fun i ↦ some (!cur.holds .hex (i + 1))) cur.bound next
          return if cur.sees (next + 1) ' ' then next + 1 else next
        else return next

/-- An escape is a run of backslashes. If their number is odd, the last one escapes what
follows. -/
def escape (cur : Cursor) (start : Nat) : Option Reach := do
  let (next, escaping) ← cur.passSlashes cur.bound start true
  let next ← if escaping then cur.passEscaped next else some next
  return .closed .word (next + 1)

/-- `cur.stopsWord i` says that a word ends before the byte at an index: there is none, its class
ends a word, or a comment starts. -/
def stopsWord (cur : Cursor) (i : Nat) : Option Bool :=
  if i < cur.text.utf8Size then do
    let c ← cur.text.byte? i
    return cur.classifier.is .wordEnd c || (c == '/' && cur.sees (i + 1) '*')
  else some true

/-- A word reaches to the first byte that ends it, and there to the end of a character. -/
def plainWord (cur : Cursor) (start : Nat) : Option Reach := do
  let stop ← firstStop cur.stopsWord cur.bound (start + 1)
  let stop ← firstStop (fun i ↦ some (cur.text.isBoundary i)) cur.bound stop
  return .closed .word stop

/-- `cur.anyHolds k n i` says that one of the `n` bytes from an index on is in class `k`. -/
def anyHolds (cur : Cursor) (k : CharClass) : Nat → Nat → Option Bool
  | 0, _ => some false
  | n + 1, i => do
      let c ← cur.text.byte? i
      if cur.classifier.is k c then return true else anyHolds cur k n (i + 1)

/-- A group without refused bytes is one token; any other opening parenthesis stands alone. -/
def group (cur : Cursor) (start : Nat) : Option Reach := do
  let (_, rest) ← cur.text.cut? (start + 1)
  match Text.find? [')'] rest with
  | none => return .closed .leftParen (start + 1)
  | some n =>
      let close := start + 1 + n
      if ← cur.anyHolds .badBracket (close - (start + 1)) (start + 1) then
        return .closed .leftParen (start + 1)
      else return .closed .brackets (close + 1)

/-- An opening parenthesis starts the body of an unquoted url, which reaches to the closing one,
or a group. -/
def openParen (cur : Cursor) (start : Nat) : Option Reach :=
  if cur.word == some "url".toList &&
    !(cur.text.byte? (start + 1)).any Scan.urlStops.contains then
    cur.enclosed .bracket ')' start
  else cur.group start

/-- `cur.scan start` computes how far the token reaches that starts at a byte offset. -/
def scan (cur : Cursor) (start : Nat) : Option Reach := do
  let c ← cur.text.byte? start
  if cur.classifier.is .space c then cur.space start
  else
    match Scan.single? c with
    | some kind => return .closed kind (start + 1)
    | none =>
        if c = '(' then cur.openParen start
        else if c = '"' ∨ c = '\'' then cur.enclosed .string c start
        else if c = '@' then cur.atWord start
        else if c = '\\' then cur.escape start
        else if c = '/' ∧ cur.sees (start + 1) '*' = true then cur.comment start
        else cur.plainWord start

/-! ## Tokens -/

/-- `cur.toLexer rest` is the lexer at the place of the cursor, if `rest` is the text behind
it. -/
def toLexer (cur : Cursor) (rest : Text) : Lexer :=
  { classifier := cur.classifier, policy := cur.policy, rest, position := cur.position,
    word := cur.word }

/-- `cur.take kind stop healed` reads a token up to a byte offset. -/
def take (cur : Cursor) (kind : TokenKind) (stop : Nat) (healed : Bool) :
    Option (Token × Cursor) := do
  let text ← cur.text.slice? cur.position stop
  return (⟨kind, ⟨cur.position, stop⟩, text, healed⟩,
    { cur with position := stop, word := (cur.toLexer []).remember kind text })

/-- `cur.scanNext` reads the next token. It is `none` in the inner option at the end of the
text. -/
def scanNext (cur : Cursor) : Option (Except TokenizeError (Option (Token × Cursor))) :=
  if cur.position < cur.text.utf8Size then do
    match ← cur.scan cur.position with
    | .closed kind stop => return .ok (some (← cur.take kind stop false))
    | .unclosed construct =>
        match cur.policy with
        | .heal => return .ok (some (← cur.take construct.tokenKind cur.text.utf8Size true))
        | .fail => return .error ⟨construct, cur.position⟩
  else return .ok none

/-- A cursor at the start of a text. -/
def ofText (text : Text) (policy : OpenPolicy) (classifier : Classifier) : Cursor :=
  { classifier, policy, text }

/-- `run steps cur` reads to the end or to the first error, within a number of steps. -/
def run : Nat → Cursor → Option TokenRun
  | 0, _ => none
  | steps + 1, cur => do
      match ← cur.scanNext with
      | .error e => return ⟨[], some e⟩
      | .ok none => return ⟨[], none⟩
      | .ok (some (token, cur)) =>
          let run ← run steps cur
          return ⟨token :: run.tokens, run.failure⟩

/-! ## Looking at bytes -/

section Bytes

variable {cur : Cursor} {before behind : Text} {c : Char}

/-- The place behind a character of one byte. -/
theorem utf8Size_concat (before : Text) (hc : c.utf8Size = 1) :
    (before ++ [c]).utf8Size = before.utf8Size + 1 := by
  rw [Text.utf8Size_append, Text.utf8Size_cons, hc]
  rfl

theorem text_concat (h : cur.text = before ++ c :: behind) : cur.text = before ++ [c] ++ behind :=
  h.trans (List.append_cons ..)

/-- Only ASCII characters are in a class. -/
theorem lt_of_is {t : Classifier} {k : CharClass} {c : Char} (h : t.is k c = true) :
    c.toNat < 128 := by
  refine Nat.lt_of_not_le fun hle ↦ ?_
  rw [Classifier.is_eq_false_of_le hle] at h
  cases h

/-- A byte is in the classes of its character. -/
theorem holds_char (k : CharClass) (h : cur.text = before ++ c :: behind) {j : Nat}
    (hj : j < c.utf8Size) : cur.holds k (before.utf8Size + j) = cur.classifier.is k c := by
  obtain ⟨d, hd, hbyte⟩ := Text.exists_byte before c behind hj
  rw [holds, h, hd]
  exact hbyte.test_eq fun _ ↦ lt_of_is

/-- An ASCII character is seen at its place and nowhere else. -/
theorem sees_char {x : Char} (hx : x.toNat < 128) (h : cur.text = before ++ c :: behind) {j : Nat}
    (hj : j < c.utf8Size) : cur.sees (before.utf8Size + j) x = (c == x) := by
  obtain ⟨d, hd, hbyte⟩ := Text.exists_byte before c behind hj
  rw [sees, h, hd]
  refine hbyte.test_eq (p := fun e ↦ e == x) fun e he ↦ ?_
  rwa [beq_iff_eq.mp he]

theorem holds_head (k : CharClass) (h : cur.text = before ++ behind) :
    cur.holds k before.utf8Size = behind.head?.any (cur.classifier.is k) := by
  cases behind with
  | nil => rw [holds, h, List.append_nil, Text.byte?_utf8Size]; rfl
  | cons c behind => exact holds_char k h c.utf8Size_pos

theorem sees_head {x : Char} (hx : x.toNat < 128) (h : cur.text = before ++ behind) :
    cur.sees before.utf8Size x = (behind.head? == some x) := by
  cases behind with
  | nil => rw [sees, h, List.append_nil, Text.byte?_utf8Size]; rfl
  | cons c behind => exact sees_char hx h c.utf8Size_pos

theorem lt_size (h : cur.text = before ++ c :: behind) {j : Nat} (hj : j < c.utf8Size) :
    before.utf8Size + j < cur.text.utf8Size := by
  rw [h, Text.utf8Size_append, Text.utf8Size_cons]
  omega

theorem lt_bound (h : cur.text = before ++ behind) : behind.utf8Size < cur.bound := by
  rw [bound, h, Text.utf8Size_append]
  omega

/-! ## Runs of a class -/

/-- A loop that passes the bytes of the characters that `p` holds of stops behind them. -/
theorem firstStop_class (p : Char → Bool) (stops : Nat → Option Bool)
    (h : cur.text = before ++ behind)
    (hpass : ∀ {as : Text} {d : Char} {bs : Text} {j : Nat}, cur.text = as ++ d :: bs →
      j < d.utf8Size → p d = true → stops (as.utf8Size + j) = some false)
    (hstop : ∀ {as bs : Text}, cur.text = as ++ bs → bs.head?.any p = false →
      stops as.utf8Size = some true) :
    firstStop stops cur.bound before.utf8Size =
      some (before.utf8Size + Text.utf8Size (behind.takeWhile p)) := by
  have hsplit : behind.takeWhile p ++ behind.dropWhile p = behind :=
    List.takeWhile_append_dropWhile
  have htext : cur.text = before ++ behind.takeWhile p ++ behind.dropWhile p := by
    rw [List.append_assoc, hsplit, h]
  refine firstStop_text (fun as d bs j hpiece hj ↦ ?_) ?_ ?_
  · have hd : p d = true :=
      List.mem_takeWhile_imp (hpiece ▸ List.mem_append_right as List.mem_cons_self)
    have hplace : cur.text = before ++ as ++ d :: (bs ++ behind.dropWhile p) := by
      rw [htext, hpiece]
      simp
    rw [← Text.utf8Size_append]
    exact hpass hplace hj hd
  · rw [← Text.utf8Size_append]
    refine hstop htext ?_
    have hhead := List.head?_dropWhile_not p behind
    cases hdrop : (behind.dropWhile p).head? with
    | none => rfl
    | some d =>
        rw [hdrop] at hhead
        exact hhead
  · refine Nat.lt_of_le_of_lt ?_ (lt_bound h)
    have hsize := congrArg Text.utf8Size hsplit
    rw [Text.utf8Size_append] at hsize
    omega

/-- How far a token reaches that takes a first character and `n` more. -/
theorem reach_one_add (kind : TokenKind) (start n : Nat) (c : Char) (behind : Text) :
    (Extent.closed kind (1 + n)).reach start (c :: behind) =
      .closed kind (start + c.utf8Size + Text.utf8Size (behind.take n)) := by
  rw [Extent.reach, Nat.add_comm 1, List.take_succ_cons, Text.utf8Size_cons, Nat.add_assoc]

theorem take_takeWhile (p : Char → Bool) (text : Text) :
    text.take (text.takeWhile p).length = text.takeWhile p :=
  (List.prefix_iff_eq_take.mp (List.takeWhile_prefix p)).symm

theorem space_eq (h : cur.text = before ++ c :: behind) (hc : c.utf8Size = 1) :
    cur.space before.utf8Size =
      some ((Scan.space cur.classifier behind).reach before.utf8Size (c :: behind)) := by
  have hloop := firstStop_class (cur.classifier.is .space) (fun i ↦ some (!cur.holds .space i))
    (text_concat h) (fun htext hj hd ↦ by rw [holds_char .space htext hj, hd]; rfl)
    (fun htext hhead ↦ by rw [holds_head .space htext, hhead]; rfl)
  rw [utf8Size_concat before hc] at hloop
  rw [space, hloop, Scan.space, reach_one_add, take_takeWhile, hc]
  rfl

theorem atWord_eq (h : cur.text = before ++ c :: behind) (hc : c.utf8Size = 1) :
    cur.atWord before.utf8Size =
      some ((Scan.atWord cur.classifier behind).reach before.utf8Size (c :: behind)) := by
  have hloop := firstStop_class (fun c ↦ !cur.classifier.is .atEnd c)
    (fun i ↦ some (!decide (i < cur.text.utf8Size) || cur.holds .atEnd i)) (text_concat h)
    (fun htext hj hd ↦ ?_) (fun htext hhead ↦ ?_)
  · rw [utf8Size_concat before hc] at hloop
    rw [atWord, hloop, Scan.atWord, reach_one_add, take_takeWhile, hc]
    rfl
  · rw [Bool.not_eq_true'] at hd
    rw [holds_char .atEnd htext hj, hd, decide_eq_true (lt_size htext hj)]
    rfl
  · rename_i bs
    cases bs with
    | nil =>
        rw [htext, List.append_nil, decide_eq_false (Nat.lt_irrefl _)]
        rfl
    | cons d bs =>
        rw [List.head?_cons, Option.any_some, Bool.not_eq_false'] at hhead
        rw [holds_head .atEnd htext, List.head?_cons, Option.any_some, hhead, Bool.or_true]

end Bytes

end Cursor

end Stylesheet
