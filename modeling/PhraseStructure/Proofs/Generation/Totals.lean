import PhraseStructure.Proofs.Generation.Intervals

/-!
# One total for choices and probabilities

Choosing among the rules of a left-hand side adds up their weights in a list of their own. The
probabilities divide by a total from a table, which grows rule by rule while those of other
left-hand sides come in between. Sums of floats depend on the order of the summands, but both start
from zero and take the weights in order of declaration, so they are the same number, whatever the
weights are.
-/

namespace PhraseStructure.Grammar

/-- The last running sum for the rules of a left-hand side is the total weight of this left-hand
side. So a choice among them looks up a part of the total that probabilities divide by, and a
probability is a share in the sum that choices are drawn from. -/
theorem getLast?_runningSums_rulesFor (rules : List Rule) {lhs : String}
    (h : ∃ rule ∈ rules, rule.lhs = lhs) :
    (Rule.runningSums 0.0 ((ofRules rules).rulesFor lhs)).getLast? =
      some ((ofRules rules).lhsWeight lhs) ∧
    (∀ value, Rule.drawnPosition ((ofRules rules).rulesFor lhs) value =
      ((Rule.runningSums 0.0 ((ofRules rules).rulesFor lhs)).findIdx? fun sum =>
        decide (Draws.unit value * (ofRules rules).lhsWeight lhs ≤ sum)).getD 0) ∧
    ∀ rule ∈ (ofRules rules).rulesFor lhs, (ofRules rules).probability rule =
      if 0.0 < Rule.totalWeight ((ofRules rules).rulesFor lhs) then
        rule.weight / Rule.totalWeight ((ofRules rules).rulesFor lhs)
      else 0.0 := by
  have hlast : (Rule.runningSums 0.0 ((ofRules rules).rulesFor lhs)).getLast? =
      some ((ofRules rules).lhsWeight lhs) := by
    have hne : (ofRules rules).rulesFor lhs ≠ [] := by
      apply rulesFor_ne_nil
      rwa [isTerminal_eq_false_iff, rules_ofRules]
    rw [List.getLast?_eq_getElem?, Rule.length_runningSums, Rule.getElem?_runningSums_last hne,
      lhsWeight_eq_totalWeight]
  refine ⟨hlast, ?_, ?_⟩
  · intro value
    rw [lhsWeight_eq_totalWeight]
    rfl
  · intro rule hrule
    rw [rulesFor_eq, List.mem_filter, decide_eq_true_eq] at hrule
    rw [probability_eq, hrule.2]

/-- Weights whose sum depends on their order, with another left-hand side in between. -/
def orderedWeights : List Rule :=
  [⟨"A", .unary "x", 0.1⟩, ⟨"B", .unary "x", 8⟩, ⟨"A", .binary "A" "B", 0.2⟩,
    ⟨"B", .unary "x", -0.0⟩, ⟨"A", .unary "x", 0.3⟩]

/-- The total is the sum in order of declaration and not the one in the opposite order. -/
theorem getLast?_runningSums_rulesFor_orderedWeights :
    (∃ rule ∈ orderedWeights, rule.lhs = "A") ∧
    (ofRules orderedWeights).lhsWeight "A" = 0.1 + 0.2 + 0.3 ∧
    (ofRules orderedWeights).lhsWeight "A" ≠ 0.3 + 0.2 + 0.1 := by
  have hrule : ∃ rule ∈ orderedWeights, rule.lhs = "A" := ⟨_, List.mem_cons_self, rfl⟩
  have hlast := (getLast?_runningSums_rulesFor orderedWeights hrule).1
  have hsums : Rule.runningSums 0.0 ((ofRules orderedWeights).rulesFor "A") =
      [0.1, 0.1 + 0.2, 0.1 + 0.2 + 0.3] := by
    rw [rulesFor_eq, rules_ofRules]
    decide +kernel
  rw [hsums, List.getLast?_cons_cons, List.getLast?_cons_cons, List.getLast?_singleton,
    Option.some_inj] at hlast
  rw [← hlast]
  exact ⟨hrule, rfl, by decide +kernel⟩

end PhraseStructure.Grammar
