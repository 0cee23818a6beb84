import PhraseStructure.Grammar.Basic
import PhraseStructure.Rule.Reading

/-!
# Grammar text

A grammar is written as a comment that lists its nonterminals and then one rule a line. Any text
of at least one rule is read.
-/

namespace PhraseStructure.Grammar

def text (g : Grammar) : String :=
  let heading := "//** nonterminals:" ++ String.join (g.nonterminals.map (" " ++ ·)) ++ "\n"
  heading ++ String.join (g.rules.toList.map fun rule => rule.text ++ ";\n")

/-- The grammar that a text declares. A text without rules declares none. -/
def ofText (text : String) : Except FormatError Grammar :=
  match Rule.readAll text.toList with
  | .error e => .error e
  | .ok [] => .error ⟨1, .noRules⟩
  | .ok rules => .ok (ofRules rules)

end PhraseStructure.Grammar
