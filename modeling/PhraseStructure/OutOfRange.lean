/-!
# Accesses out of range

Rules are numbered from zero in a grammar, and a chart has a cell for each span of its tokens.
Asking for a rule or a cell that is not there is an error of its own kind.
-/

namespace PhraseStructure

/-- An access to what is not there. -/
inductive OutOfRange where
  /-- The rule at `index` of `count` rules. -/
  | rule (index count : Nat)
  /-- The cell of the tokens `start` to `stop`, both included, in a chart of `size` tokens. -/
  | span (start stop size : Nat)
deriving DecidableEq, Repr

def OutOfRange.message : OutOfRange → String
  | rule index count =>
    "index out of bounds: the len is " ++ toString count ++ " but the index is " ++ toString index
  | span start stop size =>
    "span " ++ toString start ++ "..=" ++ toString stop ++ " outside chart of " ++ toString size

end PhraseStructure
