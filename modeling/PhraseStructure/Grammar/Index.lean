import Std.Data.HashMap
import PhraseStructure.Rule.Basic

/-!
# Rule index

The rules of a list by left-hand side, by right-hand side, and the total weight of each left-hand
side. Of several rules with the same two sides only the last is found by its right-hand side, at
the place of the first; all of them are found by left-hand side and count towards its weight.
-/

namespace PhraseStructure

/-- A rule and its position in the list that declares it. -/
structure Declared where
  index : Nat
  rule : Rule
deriving Repr

namespace Declared

def ofRules (rules : List Rule) : List Declared :=
  rules.mapIdx fun index rule => ⟨index, rule⟩

/-- Adds a rule to a list of rules with pairwise distinct left-hand sides: it takes the place of
the one with its left-hand side, or goes to the end. -/
def replaceOrAppend (d : Declared) : List Declared → List Declared
  | [] => [d]
  | e :: rest =>
    if e.rule.lhs = d.rule.lhs then d :: rest else e :: replaceOrAppend d rest

theorem map_lhs_replaceOrAppend (d : Declared) (ds : List Declared) :
    (replaceOrAppend d ds).map (·.rule.lhs) =
      ds.map (·.rule.lhs) ++
        if d.rule.lhs ∈ ds.map (·.rule.lhs) then [] else [d.rule.lhs] := by
  induction ds with
  | nil => rfl
  | cons e rest ih =>
    by_cases h : e.rule.lhs = d.rule.lhs
    · simp [replaceOrAppend, h]
    · have h' : ¬ d.rule.lhs = e.rule.lhs := fun eq => h eq.symm
      simp [replaceOrAppend, h, h', ih]

end Declared

/-- The look-up tables of a rule list. -/
structure RuleIndex where
  byLhs : Std.HashMap String (Array Declared) := {}
  byRhs : Std.HashMap Rhs (List Declared) := {}
  weights : Std.HashMap String Float := {}

namespace RuleIndex

def rulesFor (index : RuleIndex) (lhs : String) : List Declared :=
  (index.byLhs.getD lhs #[]).toList

/-- The rules with a right-hand side: the last declared one for each left-hand side, in order of
the first declarations. -/
def rulesWith (index : RuleIndex) (rhs : Rhs) : List Declared :=
  index.byRhs.getD rhs []

/-- The sum of the weights of all rules with a left-hand side, in order of declaration. -/
def weight (index : RuleIndex) (lhs : String) : Float :=
  index.weights.getD lhs 0.0

/-- The left-hand sides, each once, in ascending order of their code points. -/
def nonterminals (index : RuleIndex) : List String :=
  index.byLhs.keys.mergeSort fun a b => decide (a ≤ b)

def add (index : RuleIndex) (d : Declared) : RuleIndex where
  byLhs := index.byLhs.alter d.rule.lhs fun found => some ((found.getD #[]).push d)
  byRhs := index.byRhs.alter d.rule.rhs fun found => some (d.replaceOrAppend (found.getD []))
  weights := index.weights.insert d.rule.lhs (index.weight d.rule.lhs + d.rule.weight)

def ofRules (rules : List Rule) : RuleIndex :=
  (Declared.ofRules rules).foldl add {}

theorem rulesFor_add (index : RuleIndex) (d : Declared) (lhs : String) :
    (index.add d).rulesFor lhs =
      index.rulesFor lhs ++ if d.rule.lhs = lhs then [d] else [] := by
  by_cases h : d.rule.lhs = lhs
  · subst h
    simp [rulesFor, add, Std.HashMap.getD_eq_getD_getElem?]
  · simp [rulesFor, add, Std.HashMap.getD_eq_getD_getElem?, Std.HashMap.getElem?_alter, h]

theorem rulesWith_add (index : RuleIndex) (d : Declared) (rhs : Rhs) :
    (index.add d).rulesWith rhs =
      if d.rule.rhs = rhs then d.replaceOrAppend (index.rulesWith rhs)
      else index.rulesWith rhs := by
  by_cases h : d.rule.rhs = rhs
  · subst h
    simp [rulesWith, add, Std.HashMap.getD_eq_getD_getElem?]
  · simp [rulesWith, add, Std.HashMap.getD_eq_getD_getElem?, Std.HashMap.getElem?_alter, h]

theorem weight_add (index : RuleIndex) (d : Declared) (lhs : String) :
    (index.add d).weight lhs =
      if d.rule.lhs = lhs then index.weight lhs + d.rule.weight else index.weight lhs := by
  by_cases h : d.rule.lhs = lhs
  · subst h
    simp [weight, add]
  · simp [weight, add, Std.HashMap.getD_insert, h]

@[simp] theorem ofRules_nil : ofRules [] = {} := rfl

theorem ofRules_append_singleton (rules : List Rule) (rule : Rule) :
    ofRules (rules ++ [rule]) = (ofRules rules).add ⟨rules.length, rule⟩ := by
  simp [ofRules, Declared.ofRules, List.mapIdx_append]

end RuleIndex

end PhraseStructure
