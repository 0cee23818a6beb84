import Mathlib.Data.List.Induction
import Mathlib.Data.String.Basic
import PhraseStructure.Proofs.Grammar.Nonterminals
import PhraseStructure.Proofs.Grammar.Weights

/-!
# The index against a scan of the rules

The tables are filled in one pass, and a rule that repeats both sides of an earlier one takes the
place of that one. So the order of what is found for a right-hand side is that of the first
declarations (`RuleIndex.pairwise_rulesWith`) and its content that of the last ones
(`isLastAt_of_mem_rulesWith`). `Grammar.indices_ofRules` puts this beside the other look-ups: each
of them is what reading the rule list from its front to its end would give.
-/

namespace PhraseStructure

/-! ## First declarations -/

/-- The position of the first rule with these two sides, or the length of the list if there is
none. -/
def Rule.firstIndex (rules : List Rule) (lhs : String) (rhs : Rhs) : Nat :=
  rules.findIdx fun rule => rule.lhs = lhs ∧ rule.rhs = rhs

namespace Rule

theorem firstIndex_lt_length_iff {rules : List Rule} {lhs : String} {rhs : Rhs} :
    firstIndex rules lhs rhs < rules.length ↔ ∃ rule ∈ rules, rule.lhs = lhs ∧ rule.rhs = rhs := by
  rw [firstIndex, List.findIdx_lt_length]
  simp

theorem firstIndex_append {rules : List Rule} {lhs : String} {rhs : Rhs}
    (h : ∃ rule ∈ rules, rule.lhs = lhs ∧ rule.rhs = rhs) (added : List Rule) :
    firstIndex (rules ++ added) lhs rhs = firstIndex rules lhs rhs := by
  have hlt := firstIndex_lt_length_iff.2 h
  rw [firstIndex, List.findIdx_append]
  exact if_pos hlt

theorem length_le_firstIndex_append {rules : List Rule} {lhs : String} {rhs : Rhs}
    (h : ¬ ∃ rule ∈ rules, rule.lhs = lhs ∧ rule.rhs = rhs) (added : List Rule) :
    rules.length ≤ firstIndex (rules ++ added) lhs rhs := by
  have hle : ¬ firstIndex rules lhs rhs < rules.length := fun hlt =>
    h (firstIndex_lt_length_iff.1 hlt)
  rw [firstIndex, List.findIdx_append]
  exact (Nat.le_add_left _ _).trans_eq (if_neg hle).symm

end Rule

namespace RuleIndex

theorem mem_map_lhs_rulesWith {rules : List Rule} {lhs : String} {rhs : Rhs} :
    lhs ∈ ((ofRules rules).rulesWith rhs).map (·.rule.lhs) ↔
      ∃ rule ∈ rules, rule.lhs = lhs ∧ rule.rhs = rhs := by
  have hfound := @Grammar.exists_mem_rulesWith (Grammar.ofRules rules) lhs rhs
  rw [Grammar.HasRule, Grammar.rules_ofRules] at hfound
  rw [← hfound, List.mem_map]
  rfl

/-- What is found for a right-hand side is in the order of the first declarations, although each
rule of it is a last one: taking the place of a rule keeps its rank. -/
theorem pairwise_rulesWith (rules : List Rule) (rhs : Rhs) :
    (((ofRules rules).rulesWith rhs).map (·.rule.lhs)).Pairwise fun a b =>
      Rule.firstIndex rules a rhs < Rule.firstIndex rules b rhs := by
  induction rules using List.reverseRecOn with
  | nil => rw [ofRules_nil]; simp [rulesWith]
  | append_singleton rules rule ih =>
    have hold : (((ofRules rules).rulesWith rhs).map (·.rule.lhs)).Pairwise fun a b =>
        Rule.firstIndex (rules ++ [rule]) a rhs < Rule.firstIndex (rules ++ [rule]) b rhs := by
      refine List.Pairwise.imp_of_mem ?_ ih
      intro a b ha hb hlt
      rwa [Rule.firstIndex_append (mem_map_lhs_rulesWith.1 ha),
        Rule.firstIndex_append (mem_map_lhs_rulesWith.1 hb)]
    rw [ofRules_append_singleton, rulesWith_add]
    split
    · rw [Declared.map_lhs_replaceOrAppend]
      split
      · rwa [List.append_nil]
      · next hnew =>
        refine List.pairwise_append.2 ⟨hold, List.pairwise_singleton _ _, ?_⟩
        intro a ha b hb
        obtain rfl := List.mem_singleton.1 hb
        have hbound := Rule.length_le_firstIndex_append (mt mem_map_lhs_rulesWith.2 hnew) [rule]
        have hfound := mem_map_lhs_rulesWith.1 ha
        rw [Rule.firstIndex_append hfound]
        exact Nat.lt_of_lt_of_le (Rule.firstIndex_lt_length_iff.2 hfound) hbound
    · exact hold

/-- The left-hand sides are listed in ascending order, each once. -/
theorem pairwise_nonterminals (index : RuleIndex) : index.nonterminals.Pairwise (· < ·) := by
  have hsorted : index.nonterminals.Pairwise fun a b => decide (a ≤ b) = true := by
    apply List.pairwise_mergeSort
    · intro a b c hab hbc
      exact decide_eq_true (le_trans (of_decide_eq_true hab) (of_decide_eq_true hbc))
    · intro a b
      simpa using le_total a b
  have hdistinct : index.nonterminals.Nodup :=
    (List.mergeSort_perm _ _).nodup_iff.2 Std.HashMap.nodup_keys
  refine List.Pairwise.imp₂ ?_ hsorted hdistinct
  intro a b hle hne
  exact lt_of_le_of_ne (of_decide_eq_true hle) hne

end RuleIndex

/-! ## Look-ups -/

namespace Grammar

/-- What a scan for the rules with a right-hand side finds: one rule for each left-hand side that
has such a rule, the last one, and the rules in the order of the first declarations. -/
structure IsScan (g : Grammar) (rhs : Rhs) (found : List Declared) : Prop where
  rhs_eq : ∀ d ∈ found, d.rule.rhs = rhs
  isLastAt : ∀ d ∈ found, g.IsLastAt d.index d.rule
  hasRule_iff : ∀ lhs, g.HasRule lhs rhs ↔ ∃ d ∈ found, d.rule.lhs = lhs
  nodup : (found.map (·.rule.lhs)).Nodup
  ordered : found.Pairwise fun d e =>
    Rule.firstIndex g.rules.toList d.rule.lhs rhs < Rule.firstIndex g.rules.toList e.rule.lhs rhs

theorem isScan_rulesWith (g : Grammar) (rhs : Rhs) : g.IsScan rhs (g.index.rulesWith rhs) where
  rhs_eq _ hd := (spec_of_mem_rulesWith hd).2.1
  isLastAt _ hd := isLastAt_of_mem_rulesWith hd
  hasRule_iff _ := exists_mem_rulesWith.symm
  nodup := by
    rw [g.index_eq]
    exact RuleIndex.nodup_lhs_rulesWith _ _
  ordered := by
    have hordered := RuleIndex.pairwise_rulesWith g.rules.toList rhs
    rw [← g.index_eq, List.pairwise_map] at hordered
    exact hordered

theorem kind_eq_nonterminal_iff {g : Grammar} {symbol : String} :
    g.kind symbol = .nonterminal ↔ g.isTerminal symbol = false := by
  rw [isTerminal]
  cases g.kind symbol <;> simp

/-- Every look-up in the index agrees with a scan of the rule list. -/
theorem indices_ofRules (rules : List Rule) :
    let g := ofRules rules
    (∀ lhs, g.rulesFor lhs = rules.filter (·.lhs = lhs)) ∧
    (∀ left right, g.IsScan (.binary left right) (g.binaryRules left right)) ∧
    (∀ word, g.IsScan (.unary word) (g.lexicalRules word)) ∧
    (∀ left right, g.parentsOf left right = (g.binaryRules left right).map (·.rule.lhs) ∧
      (g.parentsOf left right).Nodup) ∧
    (∀ word, g.preterminalsOf word = (g.lexicalRules word).map (·.rule.lhs) ∧
      (g.preterminalsOf word).Nodup) ∧
    (∀ lhs, g.lhsWeight lhs = ((rules.filter (·.lhs = lhs)).map (·.weight)).foldl (· + ·) 0.0 ∧
      (g.rulesFor lhs = [] → g.lhsWeight lhs = 0.0)) ∧
    (∀ symbol, g.kind symbol = .nonterminal ↔ g.rulesFor symbol ≠ []) ∧
    g.nonterminals.Pairwise (· < ·) ∧
    ∀ symbol, symbol ∈ g.nonterminals ↔ ∃ rule ∈ rules, rule.lhs = symbol := by
  intro g
  have hrules : g.rules.toList = rules := rules_ofRules rules
  have hfor : ∀ lhs, g.rulesFor lhs = rules.filter (·.lhs = lhs) := by
    intro lhs
    rw [rulesFor_eq, hrules]
  have hweight : ∀ lhs, g.lhsWeight lhs =
      ((rules.filter (·.lhs = lhs)).map (·.weight)).foldl (· + ·) 0.0 := by
    intro lhs
    rw [List.foldl_map, lhsWeight, g.index_eq, hrules, RuleIndex.weight_ofRules]
  have hexpanded : ∀ symbol, g.isTerminal symbol = false ↔ ∃ rule ∈ rules, rule.lhs = symbol := by
    intro symbol
    rw [isTerminal_eq_false_iff, hrules]
  refine ⟨hfor, fun left right => g.isScan_rulesWith _, fun word => g.isScan_rulesWith _,
    fun left right => ⟨rfl, (g.isScan_rulesWith (.binary left right)).nodup⟩,
    fun word => ⟨rfl, (g.isScan_rulesWith (.unary word)).nodup⟩, ?_, ?_,
    RuleIndex.pairwise_nonterminals _, fun symbol => mem_nonterminals.trans (hexpanded symbol)⟩
  · intro lhs
    refine ⟨hweight lhs, ?_⟩
    intro hnone
    rw [hweight, ← hfor, hnone]
    rfl
  · intro symbol
    rw [kind_eq_nonterminal_iff, hexpanded, hfor, ne_eq, List.filter_eq_nil_iff]
    simp

end Grammar

end PhraseStructure
