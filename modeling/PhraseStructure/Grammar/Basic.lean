import PhraseStructure.Grammar.Index
import PhraseStructure.OutOfRange

/-!
# Grammars

A grammar is a list of weighted rules with its index. A symbol is a nonterminal if some rule
expands it; the probability of a rule is its share in the weight of its left-hand side.
-/

namespace PhraseStructure

/-- Whether a symbol is a word or a category. -/
inductive SymbolKind where
  | terminal
  | nonterminal
deriving DecidableEq, Repr

/-- A list of rules together with its look-up tables. -/
structure Grammar where
  rules : Array Rule
  index : RuleIndex := RuleIndex.ofRules rules.toList
  index_eq : index = RuleIndex.ofRules rules.toList := by rfl

namespace Grammar

def ofRules (rules : List Rule) : Grammar where
  rules := rules.toArray

theorem eq_of_rules_eq {g h : Grammar} (eq : g.rules = h.rules) : g = h := by
  cases g with
  | mk rules index index_eq =>
    cases h with
    | mk rules' index' index_eq' =>
      cases eq
      cases index_eq
      cases index_eq'
      rfl

theorem eq_ofRules (g : Grammar) : g = ofRules g.rules.toList :=
  eq_of_rules_eq (by simp [ofRules])

@[simp] theorem rules_ofRules (rules : List Rule) : (ofRules rules).rules.toList = rules := by
  simp [ofRules]

def rule (g : Grammar) (index : Nat) : Except OutOfRange Rule :=
  match g.rules[index]? with
  | some rule => .ok rule
  | none => .error (.rule index g.rules.size)

/-- A symbol is a nonterminal if some rule expands it. -/
def kind (g : Grammar) (symbol : String) : SymbolKind :=
  if g.index.byLhs.contains symbol then .nonterminal else .terminal

def isTerminal (g : Grammar) (symbol : String) : Bool :=
  g.kind symbol = .terminal

/-- The nonterminals in ascending order of their code points. -/
def nonterminals (g : Grammar) : List String :=
  g.index.nonterminals

/-- The rules that expand a symbol, in order of declaration. -/
def rulesFor (g : Grammar) (lhs : String) : List Rule :=
  (g.index.rulesFor lhs).map (·.rule)

/-- The rules that combine two adjacent symbols, the last declared one for each left-hand side. -/
def binaryRules (g : Grammar) (left right : String) : List Declared :=
  g.index.rulesWith (.binary left right)

/-- The rules that emit a word, the last declared one for each left-hand side. -/
def lexicalRules (g : Grammar) (word : String) : List Declared :=
  g.index.rulesWith (.unary word)

/-- The symbols that two adjacent symbols combine to. -/
def parentsOf (g : Grammar) (left right : String) : List String :=
  (g.binaryRules left right).map (·.rule.lhs)

def preterminalsOf (g : Grammar) (word : String) : List String :=
  (g.lexicalRules word).map (·.rule.lhs)

/-- The total weight of the rules that expand a symbol. -/
def lhsWeight (g : Grammar) (lhs : String) : Float :=
  g.index.weight lhs

/-- The share of a rule in the weight of its left-hand side, or zero where there is no weight. -/
def probability (g : Grammar) (rule : Rule) : Float :=
  let total := g.lhsWeight rule.lhs
  if 0.0 < total then rule.weight / total else 0.0

end Grammar

end PhraseStructure
