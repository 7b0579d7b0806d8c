import Stylesheet.Proofs.Spelling
import Stylesheet.Proofs.Strict
import Stylesheet.Proofs.Tokens

/-!
# The text of the nodes that assembly makes

A node is made from the text that waits and from the tokens of its statement. The equations of
this module say that the node is spelled as these are: every character of them is in one of the
fields of the node, and in one only.
-/

namespace Stylesheet

namespace Token

theorem spelling_splitTrailing (p : Token → Bool) (tokens : List Token) :
    spelling (splitTrailing p tokens).1 ++ spelling (splitTrailing p tokens).2 =
      spelling tokens := by
  rw [← spelling_append, splitTrailing_append]

theorem spelling_splitLeading (p : Token → Bool) (tokens : List Token) :
    spelling (splitLeading p tokens).1 ++ spelling (splitLeading p tokens).2 =
      spelling tokens := by
  rw [← spelling_append, splitLeading_append]

end Token

/-! ## Declarations -/

/-- `m.mark` is the text of the mark that was cut off a value. -/
def Marked.mark (m : Marked) : Text :=
  if m.important then m.spelling.getD usualMark else []

/-- Going back to the exclamation mark moves tokens from one side to the other. -/
theorem spelling_spellBack (spelled : Text) (ahead behind : List Token) :
    Token.spelling (spellBack spelled ahead behind).2.reverse ++
        (spellBack spelled ahead behind).1 =
      Token.spelling behind.reverse ++ spelled := by
  fun_induction spellBack spelled ahead behind with
  | case1 => rfl
  | case2 spelled guard next ahead t behind hcond ih => rw [ih]; simp
  | case3 => rfl

/-- The important mark is cut off without a loss. -/
theorem mark_takeImportant (tokens : List Token) :
    Token.spelling (takeImportant tokens).tokens ++ (takeImportant tokens).mark =
      Token.spelling tokens := by
  have hbody := Token.splitTrailing_append Token.isTrivia tokens
  unfold takeImportant
  simp only
  generalize Token.splitTrailing Token.isTrivia tokens = split at hbody
  obtain ⟨body, trivia⟩ := split
  simp only at hbody ⊢
  split
  · simp [Marked.mark]
  · next word hword =>
      split
      · -- The mark is one word, and white space before it belongs to it.
        obtain ⟨before, rfl⟩ := List.getLast?_eq_some_iff.mp hword
        have hspaces := Token.spelling_splitTrailing (·.is .space) before
        simp only [List.dropLast_concat, Marked.mark, if_true] at hspaces ⊢
        have hmark (spelled : Text) :
            (if spelled = usualMark then none else some spelled).getD usualMark = spelled := by
          split
          · next h => rw [h]; rfl
          · rfl
        rw [hmark, ← hbody, ← List.append_assoc, ← List.append_assoc, hspaces]
        simp
      · split
        · have hback := spelling_spellBack [] body.reverse tokens.reverse
          generalize spellBack [] body.reverse tokens.reverse = back at hback
          obtain ⟨spelled, behind⟩ := back
          simp only
          split
          · simpa [Marked.mark] using hback
          · simp [Marked.mark]
        · simp [Marked.mark]

theorem hackSign_append (name : Text) : (hackSign name).1 ++ (hackSign name).2 = name := by
  unfold hackSign
  split <;> rfl

namespace Assembly

/-- A declaration is spelled as the text that waits and the tokens of its parts. -/
theorem text_declarationNode (a : Assembly) (custom : Bool) (tokens : List Token)
    (parts : Parts) :
    let node := a.declarationNode custom tokens parts (takeImportant parts.value)
    node.before ++ node.head = a.spaces ++ Token.spelling parts.tokens := by
  have hmark := mark_takeImportant parts.value
  have hname := hackSign_append (Token.spelling parts.name)
  generalize takeImportant parts.value = marked at hmark ⊢
  rw [Parts.tokens, Token.spelling_append, ← hmark, Token.spelling_append,
    Token.spelling_append, Token.spelling_append, ← hname]
  -- Without a value the gap behind the colon counts as the value.
  show a.spaces ++ Token.spelling parts.stray ++ (hackSign (Token.spelling parts.name)).1 ++
    ((hackSign (Token.spelling parts.name)).2 ++ (Token.spelling parts.colon ++
      if marked.tokens.all Token.isTrivia = true then [] else Token.spelling parts.gap) ++
      RawValue.written (Value.ofTokens custom
        ((if marked.tokens.all Token.isTrivia = true then parts.gap else []) ++
          marked.tokens)).raw
        (Value.ofTokens custom _).text ++ marked.mark) = _
  rw [Value.written_ofTokens]
  split <;> simp [List.append_assoc]

/-- An at-rule is spelled as the text that waits, its name and its parameters. -/
theorem text_atRuleNode (a : Assembly) {word : Token} (params : List Token) (between : Text)
    (hword : ∃ name, word.text = '@' :: name) :
    let node := a.atRuleNode word params between
    node.before ++ node.head = a.spaces ++ word.text ++
      Token.spelling (Token.splitTrailing Token.isTrivia params).1 ++ between := by
  obtain ⟨name, hname⟩ := hword
  rw [← Token.spelling_splitLeading Token.isTrivia (Token.splitTrailing Token.isTrivia params).1]
  show a.spaces ++ ('@' :: word.text.drop 1 ++
    Token.spelling (Token.splitLeading Token.isTrivia
      (Token.splitTrailing Token.isTrivia params).1).1 ++
    RawValue.written (Value.ofTokens false (atRuleCore params)).raw
      (Value.ofTokens false (atRuleCore params)).text ++ between) = _
  rw [Value.written_ofTokens, hname]
  simp [atRuleCore, List.append_assoc]

theorem text_atRuleWhole (a : Assembly) {word : Token} (params : List Token)
    (hword : ∃ name, word.text = '@' :: name) :
    let node := a.atRuleWhole word params
    node.before ++ node.head = a.spaces ++ word.text ++ Token.spelling params := by
  have h := a.text_atRuleNode params
    (Token.spelling (Token.splitTrailing Token.isTrivia params).2) hword
  rw [List.append_assoc _ (Token.spelling _), Token.spelling_splitTrailing] at h
  exact h

/-! ## Rules -/

/-- `a.ruleNode head brace` is the rule that `a.rule head brace` opens. -/
def ruleNode (a : Assembly) (head : List Token) (brace : Token) : Node :=
  let selector := Value.ofTokens false (Token.splitTrailing Token.isTrivia head).1
  let node := a.newNode (.rule selector.text) (head.head?.getD brace).span.start
  { node with raws := { node.raws with
      between := some (Token.spelling (Token.splitTrailing Token.isTrivia head).2)
      selector := selector.raw } }

theorem rule_eq (a : Assembly) (head : List Token) (brace : Token) :
    a.rule head brace = a.openFrame (a.ruleNode head brace) := rfl

/-- A rule is spelled as the text that waits and its head. -/
theorem text_ruleNode (a : Assembly) (head : List Token) (brace : Token) :
    let node := a.ruleNode head brace
    node.before ++ node.head = a.spaces ++ Token.spelling head := by
  rw [← Token.spelling_splitTrailing Token.isTrivia head]
  show a.spaces ++ (RawValue.written
    (Value.ofTokens false (Token.splitTrailing Token.isTrivia head).1).raw
    (Value.ofTokens false (Token.splitTrailing Token.isTrivia head).1).text ++ _) = _
  rw [Value.written_ofTokens]
  rfl

end Assembly

/-! ## Comments -/

namespace Text

/-- The blank text at the end of a text that is not blank does not reach to its start. -/
theorem blankEnd_trimStart {text : Text} (h : trim text ≠ []) :
    blankEnd (trimStart text) = blankEnd text := by
  unfold blankEnd
  congr 1
  conv => rhs; rw [← blankStart_append_trimStart text, List.reverse_append]
  unfold blankStart
  rw [List.takeWhile_append]
  split
  · next hall =>
      have hempty : trimStart (trimStart text).reverse = [] := by
        have happend :=
          congrArg List.length (blankStart_append_trimStart (trimStart text).reverse)
        rw [List.length_append] at happend
        apply List.length_eq_zero_iff.mp
        unfold blankStart at happend
        omega
      exact absurd (by rw [trim, trimEnd, hempty, List.reverse_nil]) h
  · rfl

/-- A text that is not blank is its trimmed text with its blank edges. -/
theorem blankStart_trim_blankEnd {text : Text} (h : trim text ≠ []) :
    blankStart text ++ trim text ++ blankEnd text = text := by
  rw [← blankEnd_trimStart h, trim, List.append_assoc, trimEnd_append_blankEnd,
    blankStart_append_trimStart]

end Text

namespace Assembly

/-- The parts of a comment that is closed are what stands between its delimiters. -/
theorem text_commentKind (inner : Text) :
    ∃ left text right,
      commentKind ("/*".toList ++ inner ++ "*/".toList) false = (.comment text, left, right) ∧
        left ++ text ++ right = inner := by
  have hinner : (("/*".toList ++ inner ++ "*/".toList).drop 2).take
      ((("/*".toList ++ inner ++ "*/".toList).drop 2).length - 2) = inner := by
    simp
  unfold commentKind
  simp only [Bool.false_eq_true, if_false]
  rw [hinner]
  split
  · exact ⟨_, _, _, rfl, by simp⟩
  · next h =>
      refine ⟨_, _, _, rfl, Text.blankStart_trim_blankEnd ?_⟩
      intro hempty
      rw [hempty] at h
      exact h rfl

/-- `a.commentNode t` is the comment that `a.comment t` adds. -/
def commentNode (a : Assembly) (t : Token) : Node :=
  let (kind, left, right) := commentKind t.text t.healed
  let node := a.stopNode t.span.stop (a.newNode kind t.span.start)
  { node with raws := { node.raws with left := some left, right := some right } }

theorem comment_eq (a : Assembly) (t : Token) :
    a.comment t = a.addLeaf (a.commentNode t) a.semicolon := rfl

theorem commentKind_fst (text : Text) (healed : Bool) :
    ∃ comment, (commentKind text healed).1 = .comment comment := by
  simp only [commentKind]
  generalize (if healed = true then text.drop 2 else _) = inner
  split <;> exact ⟨_, rfl⟩

theorem type_commentNode (a : Assembly) (t : Token) : (a.commentNode t).type = .comment := by
  obtain ⟨comment, hkind⟩ := commentKind_fst t.text t.healed
  show (commentKind t.text t.healed).1.type = .comment
  rw [hkind]
  rfl

theorem hasBlock_commentNode (a : Assembly) (t : Token) : (a.commentNode t).hasBlock = false := by
  obtain ⟨comment, hkind⟩ := commentKind_fst t.text t.healed
  show (Node.ofKind (commentKind t.text t.healed).1).hasBlock = false
  rw [hkind]
  rfl

/-- A comment is spelled as the text that waits and its token, with the end of a comment that is
healed. -/
theorem text_commentNode_of_isSound (a : Assembly) {t : Token} (hkind : t.kind = .comment)
    (hsound : t.IsSound) :
    (a.commentNode t).before ++ (a.commentNode t).head = a.spaces ++ t.commentText := by
  obtain ⟨inner, htext⟩ := hsound.comment hkind
  obtain ⟨left, text, right, hparts, happend⟩ := text_commentKind inner
  have hnode : commentKind t.text t.healed = (.comment text, left, right) := by
    rw [← hparts]
    cases hhealed : t.healed with
    | false =>
        rw [Token.commentText, hhealed] at htext
        simp only [Bool.false_eq_true, if_false, List.append_nil] at htext
        rw [htext]
    | true =>
        rw [Token.commentText, hhealed, if_pos rfl] at htext
        rw [List.append_cancel_right htext]
        simp [commentKind]
  unfold commentNode
  rw [htext, hnode]
  show a.spaces ++ ("/*".toList ++ left ++ text ++ right ++ "*/".toList) = _
  rw [← happend]
  simp [List.append_assoc]

/-- A comment is spelled as the text that waits and its token. -/
theorem text_commentNode (a : Assembly) {t : Token} (hkind : t.kind = .comment)
    (hformed : t.IsFormed) (hhealed : t.healed = false) :
    (a.commentNode t).before ++ (a.commentNode t).head = a.spaces ++ t.text := by
  rw [a.text_commentNode_of_isSound hkind (hformed.isSound hhealed), Token.commentText, hhealed,
    if_neg Bool.false_ne_true, List.append_nil]

end Assembly

end Stylesheet
