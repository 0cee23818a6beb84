import PhraseStructure.Text.Lines
import PhraseStructure.Tree.Basic

/-!
# Trees in writing

A tree is written in brackets on one line, `(S (NP dog) (VP barks))`, or indented over several
lines, where only a node whose one child is a leaf stays on a line of its own.
-/

namespace PhraseStructure.Tree

mutual

/-- The tree in brackets on one line. -/
def text : Tree → String
  | leaf word => word
  | node label children => "(" ++ label ++ textAll children ++ ")"

/-- Several trees in brackets, a space before each. -/
def textAll : List Tree → String
  | [] => ""
  | t :: ts => " " ++ text t ++ textAll ts

end

/-- The lines of a text, each on a new line and two spaces further in. -/
def indent (text : String) : String :=
  String.join ((Text.stringLines text).map ("\n  " ++ ·))

mutual

/-- The tree over several lines, each child indented below its parent's label. -/
def pretty : Tree → String
  | leaf word => word
  | node label [leaf word] => "(" ++ label ++ " " ++ word ++ ")"
  | node label children => "(" ++ label ++ prettyAll children ++ ")"

/-- Several trees, each on new lines and indented. -/
def prettyAll : List Tree → String
  | [] => ""
  | t :: ts => indent (pretty t) ++ prettyAll ts

end

def render (indented : Bool) (t : Tree) : String :=
  if indented then t.pretty else t.text

end PhraseStructure.Tree
