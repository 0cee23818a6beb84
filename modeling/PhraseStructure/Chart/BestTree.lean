import PhraseStructure.Chart.Filling
import PhraseStructure.Tree.Basic

/-!
# Best trees

The best derivation of a symbol over all tokens is read off a chart along the origins of its
entries. The rules are looked up by number in a grammar, as a rule the one that filled the chart.
-/

namespace PhraseStructure

/-- Why there is no tree: a symbol that does not derive the tokens `start` to `stop`, or an
origin that points to nothing. -/
inductive ParseError where
  | noParse (symbol : String) (start stop : Nat)
  | outOfRange (access : OutOfRange)
deriving DecidableEq, Repr

def ParseError.message : ParseError → String
  | noParse symbol start stop =>
    "no parse: `" ++ symbol ++ "` doesn't cover tokens " ++ toString start ++ "..=" ++
      toString stop
  | outOfRange access => access.message

namespace Chart

/-- The derivation of a symbol over a span that its cell points to. -/
def treeOf (chart : Chart) (g : Grammar) (start stop : Nat) (symbol : String) :
    Except ParseError Tree :=
  match chart.cell start stop with
  | .error access => .error (.outOfRange access)
  | .ok cell =>
    match cell.get? symbol with
    | none => .error (.noParse symbol start stop)
    | some entry =>
      match entry.origin with
      | .word =>
        match cell.word with
        | none => .error (.noParse symbol start stop)
        | some word => .ok (.node symbol [.leaf word])
      | .split index position =>
        match g.rule index with
        | .error access => .error (.outOfRange access)
        | .ok rule =>
          match rule.rhs with
          | .unary _ => .error (.noParse symbol start stop)
          | .binary left right =>
            if h : start ≤ position ∧ position < stop then
              match treeOf chart g start position left with
              | .error e => .error e
              | .ok leftTree =>
                match treeOf chart g (position + 1) stop right with
                | .error e => .error e
                | .ok rightTree => .ok (.node symbol [leftTree, rightTree])
            else .error (.outOfRange (.span (position + 1) stop chart.size))
termination_by stop - start

def bestTree (chart : Chart) (g : Grammar) (root : String) : Except ParseError Tree :=
  if chart.isEmpty then .error (.noParse root 0 0)
  else chart.treeOf g 0 (chart.size - 1) root

end Chart

namespace Grammar

/-- The symbol at the root of a parsed sentence. -/
def parseRoot : String := "S"

/-- The most probable derivation of a token list from `parseRoot`. -/
def parse (g : Grammar) (tokens : List String) : Except ParseError Tree :=
  (Chart.fill g tokens).bestTree g parseRoot

end Grammar

end PhraseStructure
