import PhraseStructure.Chart.BestTree
import PhraseStructure.Generator
import PhraseStructure.Text.Blank
import PhraseStructure.Text.Pieces
import PhraseStructure.Tree.Text

/-!
# Round trips

A line in brackets, such as `(ROOT (S (NP dog) (VP barks)) .)`, is parsed again from its words
alone: they are the letters of its pieces that are no categories. The best tree, wrapped up with
the line's own mark, is compared with the line.
-/

namespace PhraseStructure

/-- The count of lines and of those that came back exactly. -/
structure RoundTrip where
  total : Nat := 0
  correct : Nat := 0
deriving DecidableEq, Repr

namespace RoundTrip

/-- Marks that end a sentence; they are never words. -/
def sentenceMarks : List String := [".", "!"]

/-- The words of a line: it is cut at its spaces, all but the letters `a` to `z` and `A` to `Z`
are dropped, and of what is left the terminals of the grammar stay. -/
def sentenceTokens (g : Grammar) (line : String) : List String :=
  let words := (Text.pieces ' ' line.toList).map fun piece =>
    String.ofList (piece.filter Char.isAlpha)
  words.filter fun word => word ≠ "" && g.isTerminal word && word ∉ sentenceMarks

/-- The mark of a line: the character before its last one, blanks at the end aside. -/
def sentenceMark (line : String) : Option Char :=
  (Text.trimEnd line.toList).reverse[1]?

/-- A sentence in brackets around a tree, with its mark if it has one. -/
def wrap (tree : Tree) (mark : Option Char) : String :=
  let ending := match mark with
    | none => ""
    | some c => " " ++ String.singleton c
  "(" ++ Generator.defaultStart ++ " " ++ tree.text ++ ending ++ ")"

/-- The line as it comes back from its words. -/
def reparse (g : Grammar) (line : String) : Except ParseError String :=
  match g.parse (sentenceTokens g line) with
  | .error e => .error e
  | .ok tree => .ok (wrap tree (sentenceMark line))

def isExact (g : Grammar) (line : String) : Bool :=
  match reparse g line with
  | .error _ => false
  | .ok again => again = line

def record (tally : RoundTrip) (g : Grammar) (line : String) : RoundTrip where
  total := tally.total + 1
  correct := tally.correct + if isExact g line then 1 else 0

/-- The share of exact lines, or `none` before the first line. -/
def accuracy (tally : RoundTrip) : Option Float :=
  if tally.total = 0 then none
  else some (Float.ofNat tally.correct / Float.ofNat tally.total)

end RoundTrip

end PhraseStructure
