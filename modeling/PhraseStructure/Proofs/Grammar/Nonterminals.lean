import Mathlib.Data.List.Induction
import PhraseStructure.Proofs.Grammar.Lookup

/-!
# Nonterminals

Looking up the rules of a left-hand side finds all of them, in order of declaration. So a symbol is
a nonterminal exactly if some rule expands it, and then there is a rule to choose.
-/

namespace PhraseStructure

namespace RuleIndex

theorem rulesFor_ofRules (rules : List Rule) (lhs : String) :
    (ofRules rules).rulesFor lhs = (Declared.ofRules rules).filter (·.rule.lhs = lhs) := by
  induction rules using List.reverseRecOn with
  | nil => rw [ofRules_nil]; simp [rulesFor, Declared.ofRules]
  | append_singleton rules rule ih =>
    rw [ofRules_append_singleton, rulesFor_add, ih, Declared.ofRules_append_singleton,
      List.filter_append]
    by_cases h : rule.lhs = lhs <;> simp [h]

theorem mem_byLhs_ofRules {rules : List Rule} {lhs : String} :
    lhs ∈ (ofRules rules).byLhs ↔ ∃ rule ∈ rules, rule.lhs = lhs := by
  induction rules using List.reverseRecOn with
  | nil => rw [ofRules_nil]; simp
  | append_singleton rules rule ih =>
    rw [ofRules_append_singleton, add, Std.HashMap.mem_alter]
    by_cases h : rule.lhs = lhs <;> simp [h, ih]

end RuleIndex

namespace Grammar

/-- The rules of a left-hand side are found in order of declaration, none of them left out. -/
theorem rulesFor_eq (g : Grammar) (lhs : String) :
    g.rulesFor lhs = g.rules.toList.filter (·.lhs = lhs) := by
  conv_rhs => rw [← Declared.map_rule_ofRules g.rules.toList]
  rw [rulesFor, g.index_eq, RuleIndex.rulesFor_ofRules, List.filter_map]
  rfl

theorem isTerminal_eq_false_iff {g : Grammar} {symbol : String} :
    g.isTerminal symbol = false ↔ ∃ rule ∈ g.rules.toList, rule.lhs = symbol := by
  rw [← RuleIndex.mem_byLhs_ofRules, ← g.index_eq, ← Std.HashMap.contains_iff_mem, isTerminal, kind]
  cases g.index.byLhs.contains symbol <;> simp

theorem isTerminal_iff {g : Grammar} {symbol : String} :
    g.isTerminal symbol = true ↔ ∀ rule ∈ g.rules.toList, rule.lhs ≠ symbol := by
  rw [← Bool.not_eq_false, isTerminal_eq_false_iff]
  simp

theorem HasRule.isTerminal_eq_false {g : Grammar} {lhs : String} {rhs : Rhs}
    (h : g.HasRule lhs rhs) : g.isTerminal lhs = false := by
  obtain ⟨rule, hmem, hlhs, -⟩ := h
  exact isTerminal_eq_false_iff.2 ⟨rule, hmem, hlhs⟩

theorem rulesFor_ne_nil {g : Grammar} {symbol : String} (h : g.isTerminal symbol = false) :
    g.rulesFor symbol ≠ [] := by
  obtain ⟨rule, hmem, hlhs⟩ := isTerminal_eq_false_iff.1 h
  rw [rulesFor_eq]
  exact List.ne_nil_of_mem (List.mem_filter.2 ⟨hmem, by simpa using hlhs⟩)

theorem hasRule_of_mem_rulesFor {g : Grammar} {lhs : String} {rule : Rule}
    (h : rule ∈ g.rulesFor lhs) : g.HasRule lhs rule.rhs := by
  rw [rulesFor_eq, List.mem_filter] at h
  exact ⟨rule, h.1, by simpa using h.2, rfl⟩

theorem mem_nonterminals {g : Grammar} {symbol : String} :
    symbol ∈ g.nonterminals ↔ g.isTerminal symbol = false := by
  rw [nonterminals, RuleIndex.nonterminals, List.mem_mergeSort, Std.HashMap.mem_keys, g.index_eq,
    RuleIndex.mem_byLhs_ofRules, isTerminal_eq_false_iff]

end Grammar

end PhraseStructure
