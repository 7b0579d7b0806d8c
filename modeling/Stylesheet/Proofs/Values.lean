import Stylesheet.Proofs.Declared

/-!
# Declarations without a value

Strict assembly refuses a declaration whose tidied value is empty. Tidying leaves comments out,
and the white space behind them too if there is white space before them, but it keeps the white
space before the first comment that it leaves out, unless the value ends there. So a declaration
can be taken whose value is white space only. `isHollow` says of the tokens of a value that
nothing else is left of them, and `values_of_parse` that a declaration which was taken has a value
to show exactly if its tokens are not hollow.
-/

namespace Stylesheet

variable {isWhite : Char → Bool}

/-- `isHollowFrom isWhite before tokens` says of tokens behind one of the kind `before` that each
is white, or a comment at an edge of the run or next to white space. -/
def isHollowFrom (isWhite : Char → Bool) (before : Option TokenKind) : List Token → Bool
  | [] => true
  | t :: rest =>
      (t.text.all isWhite || t.is .comment &&
        (isLoose before || isLoose (rest.head?.map (·.kind)))) &&
        isHollowFrom isWhite (some t.kind) rest

/-- `isHollow isWhite tokens` says that a run consists of white tokens, and of comments at an edge
of the run or next to white space. -/
def isHollow (isWhite : Char → Bool) (tokens : List Token) : Bool :=
  isHollowFrom isWhite none tokens

/-- What tidying leaves of a run is white exactly if the run is hollow. -/
theorem all_tidyFrom (hcomma : isWhite ',' = false) {tokens : List Token}
    (hspace : ∀ t ∈ tokens, t.kind = .space → t.text.all isWhite = true)
    (before : Option TokenKind) {last : Option Char} (hlast : last ≠ some ',') (dropped : Bool) :
    (Token.spelling (tidyFrom false before last dropped tokens)).all isWhite =
      isHollowFrom isWhite before tokens := by
  induction tokens generalizing before last dropped with
  | nil => rfl
  | cons t rest ih =>
      obtain ⟨ht, hrest⟩ := List.forall_mem_cons.mp hspace
      have hedge : (last == some ',') = false := beq_eq_false_iff_ne.mpr hlast
      simp only [tidyFrom, isHollowFrom, hedge, Bool.or_false]
      split
      · next hdrop =>
          have hwhite := ht (beq_iff_eq.mp (Bool.and_eq_true_iff.mp hdrop).1)
          rw [ih hrest _ hlast, hwhite, Bool.true_or, Bool.true_and]
      · split
        · next hremark => rw [ih hrest _ hlast, hremark, Bool.or_true, Bool.true_and]
        · next hremark =>
            rw [Token.spelling_cons, List.all_append, Bool.eq_false_iff.mpr hremark,
              Bool.or_false]
            cases hwhite : t.text.all isWhite with
            | false => rfl
            | true =>
                -- A white token that is kept does not end with a comma.
                have hkept : (t.text.getLast? <|> last) ≠ some ',' := by
                  cases hend : t.text.getLast? with
                  | none => exact hlast
                  | some c =>
                      rintro ⟨⟩
                      have hc := List.all_eq_true.mp hwhite ',' (List.mem_of_getLast? hend)
                      rw [hcomma] at hc
                      cases hc
                rw [ih hrest _ hkept]

/-- The characters that a lexer for plain stylesheets reads as white space are blank. -/
theorem isBlank_of_is_space {c : Char} (h : Classifier.stock.is .space c = true) :
    c.isBlank = true := by
  obtain ⟨d, hd, heq⟩ := List.any_eq_true.mp (Bool.and_eq_true_iff.mp h).2
  have hall : ∀ d ∈ CharClass.stockMembers .space, d.isBlank = true := List.all_eq_true.mp rfl
  have hblank := hall d hd
  unfold Char.isBlank at hblank ⊢
  rwa [← beq_iff_eq.mp heq]

/-- In a document that strict reading takes, every declaration that does not start with two dashes
has a value that is not empty, and the value has a character that is not white unless the tokens
that it was tidied from are hollow. Characters are white here if the lexer reads them as white
space, and others may be if they are blank. -/
theorem values_of_parse {source : Source} {doc : Document} (h : parse source .strict = .ok doc)
    (hspace : ∀ c, Classifier.stock.is .space c = true → isWhite c = true)
    (hblank : ∀ c, isWhite c = true → c.isBlank = true) :
    (∀ id, doc.type id = .declaration → id ∈ doc.declarations) ∧
      List.Forall₂ (fun id parts ↦ (doc.node id).startsWith source "--".toList = false →
          ∃ value, (doc.node id).kind.value? = some value ∧ value ≠ [] ∧
            ((∃ c ∈ value, isWhite c = false) ↔ isHollow isWhite parts.valueTokens = false))
        doc.declarations
        ((Statement.ofRun source.size (Token.run source.text .fail)).filterMap
          Statement.parts?) := by
  refine ⟨fun id ↦ mem_declarations_of_parse h, (declarations_of_parse h).imp ?_⟩
  rintro id parts ⟨custom, hn⟩ hdashes
  obtain rfl : custom = false := by
    cases custom with
    | false => rfl
    | true => exact absurd (hn.dashes rfl) (Bool.eq_false_iff.mp hdashes)
  have hcomma : isWhite ',' = false := Bool.eq_false_iff.mpr fun hwhite ↦ by
    exact absurd (hblank ',' hwhite) (by decide)
  have hwhite : ∀ t ∈ parts.valueTokens, t.kind = .space → t.text.all isWhite = true :=
    fun t ht hkind ↦ List.all_eq_true.mpr fun c hc ↦
      hspace c ((hn.scanned t ht).forall_isSpace hkind c hc)
  have htidy : (Value.ofTokens false parts.valueTokens).text.all isWhite =
      isHollow isWhite parts.valueTokens :=
    all_tidyFrom hcomma hwhite none (Option.some_ne_none ',').symm false
  refine ⟨_, hn.value, hn.present rfl, ?_⟩
  rw [← htidy, List.all_eq_false]
  simp only [Bool.not_eq_true]

/-- The value of a declaration that is not hollow has a character that is not blank. -/
theorem values_of_parse_word :
    ∃ doc, parse ⟨"a\x7bb: /**/c;\x7d".toList, none⟩ .strict = .ok doc ∧
      ∃ value, (doc.node 2).kind.value? = some value ∧ ∃ c ∈ value, c.isBlank = false := by
  have h (source : Source) {doc : Document} {parts : Parts}
      (hparse : parse source .strict = .ok doc) (hdeclarations : doc.declarations = [2])
      (hstatements : (Statement.ofRun source.size (Token.run source.text .fail)).filterMap
        Statement.parts? = [parts])
      (hdashes : (doc.node 2).startsWith source "--".toList = false)
      (hhollow : isHollow Char.isBlank parts.valueTokens = false) :
      ∃ value, (doc.node 2).kind.value? = some value ∧ ∃ c ∈ value, c.isBlank = false := by
    have hvalues := (values_of_parse hparse (fun _ ↦ isBlank_of_is_space) fun _ hc ↦ hc).2
    rw [hdeclarations, hstatements, List.forall₂_cons] at hvalues
    obtain ⟨value, hvalue, -, hiff⟩ := hvalues.1 hdashes
    exact ⟨value, hvalue, hiff.mpr hhollow⟩
  exact ⟨_, rfl, h ⟨"a\x7bb: /**/c;\x7d".toList, none⟩ rfl rfl rfl rfl rfl⟩

/-- White space before a comment is taken for a value if a semicolon ends the declaration. -/
theorem not_values_of_parse_comment :
    ∃ doc, parse ⟨"a\x7bb: /**/;\x7d".toList, none⟩ .strict = .ok doc ∧
      doc.type 2 = .declaration ∧
      (doc.node 2).startsWith ⟨"a\x7bb: /**/;\x7d".toList, none⟩ "--".toList = false ∧
      ∃ value, (doc.node 2).kind.value? = some value ∧ ∀ c ∈ value, c.isBlank = true :=
  ⟨_, rfl, rfl, rfl, _, rfl, List.all_eq_true.mp rfl⟩

end Stylesheet
