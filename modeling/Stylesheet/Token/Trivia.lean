import Stylesheet.Token.Basic

/-!
# Cutting runs of tokens

White space and comments at the edges of a run of tokens belong to the layout and not to the
meaning. `splitLeading` and `splitTrailing` cut a run where its edge of such tokens ends, and the
`_append` lemmas say that the two parts are the run.
-/

namespace Stylesheet

namespace Token

/-- `splitLeading p tokens` cuts a run behind the tokens at its start that `p` holds of. -/
def splitLeading (p : Token → Bool) (tokens : List Token) : List Token × List Token :=
  (tokens.takeWhile p, tokens.dropWhile p)

/-- `splitTrailing p tokens` cuts a run before the tokens at its end that `p` holds of. -/
def splitTrailing (p : Token → Bool) (tokens : List Token) : List Token × List Token :=
  ((tokens.reverse.dropWhile p).reverse, (tokens.reverse.takeWhile p).reverse)

theorem splitLeading_append (p : Token → Bool) (tokens : List Token) :
    (splitLeading p tokens).1 ++ (splitLeading p tokens).2 = tokens :=
  List.takeWhile_append_dropWhile

theorem splitTrailing_append (p : Token → Bool) (tokens : List Token) :
    (splitTrailing p tokens).1 ++ (splitTrailing p tokens).2 = tokens := by
  rw [splitTrailing, ← List.reverse_append, List.takeWhile_append_dropWhile,
    List.reverse_reverse]

/-- `stopOr tokens default` is where the last token of a run ends; a run without tokens ends at
`default`. -/
def stopOr (tokens : List Token) (default : Nat) : Nat :=
  (tokens.getLast?.map (·.span.stop)).getD default

end Token

end Stylesheet
