import PhraseStructure.Grammar.Text
import PhraseStructure.Proofs.Binary64.Share
import PhraseStructure.Proofs.Grammar.Lookup

/-!
# Weighted grammars

In a grammar with finite weights that are not negative the total weight of a left-hand side is at
least that of each of its rules, also after rounding, so every probability is a share. Grammar
text admits no other weights.
-/

namespace PhraseStructure

open Binary64 (IsShare IsWeight)

/-! ## Totals -/

/-- The total of a left-hand side is the sum of its weights in order of declaration. -/
theorem RuleIndex.weight_ofRules (rules : List Rule) (lhs : String) :
    (ofRules rules).weight lhs =
      (rules.filter (·.lhs = lhs)).foldl (fun total rule => total + rule.weight) 0.0 := by
  induction rules using List.reverseRecOn with
  | nil => rw [ofRules_nil]; simp [weight]
  | append_singleton rules rule ih =>
    rw [ofRules_append_singleton, weight_add, ih, List.filter_append, List.foldl_append]
    by_cases h : rule.lhs = lhs <;> simp [h]

/-- The total of a left-hand side is not negative and no rule of it weighs more. -/
theorem RuleIndex.weight_le_weight {rules : List Rule} (h : ∀ rule ∈ rules, IsWeight rule.weight)
    (lhs : String) :
    0.0 ≤ (ofRules rules).weight lhs ∧
      ∀ rule ∈ rules, rule.lhs = lhs → rule.weight ≤ (ofRules rules).weight lhs := by
  induction rules using List.reverseRecOn with
  | nil =>
    rw [weight_ofRules]
    exact ⟨Binary64.isShare_zero.1, by simp⟩
  | append_singleton rules last ih =>
    obtain ⟨htotal, hrules⟩ := ih fun rule hr => h rule (List.mem_append_left _ hr)
    have hlast := (h last (by simp)).zero_le
    obtain ⟨hsum, hold, hnew⟩ := Binary64.le_add htotal hlast
    rw [ofRules_append_singleton, weight_add]
    by_cases hlhs : last.lhs = lhs
    · rw [if_pos hlhs]
      refine ⟨hsum, ?_⟩
      intro rule hr heq
      rcases List.mem_append.1 hr with hr | hr
      · exact Binary64.le_trans (hrules rule hr heq) hold
      · rw [List.mem_singleton.1 hr]
        exact hnew
    · rw [if_neg hlhs]
      refine ⟨htotal, ?_⟩
      intro rule hr heq
      rcases List.mem_append.1 hr with hr | hr
      · exact hrules rule hr heq
      · rw [List.mem_singleton.1 hr] at heq
        exact absurd heq hlhs

namespace Grammar

/-- Every weight is finite and not negative. -/
def IsWeighted (g : Grammar) : Prop :=
  ∀ rule ∈ g.rules.toList, IsWeight rule.weight

theorem IsWeighted.weight_le_lhsWeight {g : Grammar} (h : g.IsWeighted) {rule : Rule}
    (hr : rule ∈ g.rules.toList) : rule.weight ≤ g.lhsWeight rule.lhs := by
  rw [lhsWeight, g.index_eq]
  exact (RuleIndex.weight_le_weight h rule.lhs).2 rule hr rfl

theorem IsWeighted.isShare_probability {g : Grammar} (h : g.IsWeighted) {rule : Rule}
    (hr : rule ∈ g.rules.toList) : IsShare (g.probability rule) := by
  show IsShare (if 0.0 < g.lhsWeight rule.lhs then rule.weight / g.lhsWeight rule.lhs else 0.0)
  split
  · exact (h rule hr).isShare_div (h.weight_le_lhsWeight hr) ‹_›
  · exact Binary64.isShare_zero

theorem IsWeighted.isShare_lastProbability {g : Grammar} (h : g.IsWeighted) (lhs : String)
    (rhs : Rhs) : IsShare (g.lastProbability lhs rhs) := by
  unfold lastProbability
  split
  · exact Binary64.isShare_zero
  · next rule hlast =>
    exact h.isShare_probability (mem_of_lastRule? hlast).1

end Grammar

/-! ## Weights in grammar text -/

namespace Rule

theorem isWeight_of_readWeight {text rest : List Char} {weight : Float}
    (h : readWeight text = .ok (weight, rest)) : IsWeight weight := by
  unfold readWeight at h
  split at h
  · dsimp only at h
    split at h
    · cases h
    · split at h
      · next hweight =>
        cases h
        exact hweight
      · cases h
  · cases h

theorem isWeight_of_readEnd {lhs : String} {text rest : List Char} {weight : Float}
    (h : readEnd lhs text = .ok (weight, rest)) : IsWeight weight := by
  unfold readEnd at h
  split at h
  · cases h
    exact Binary64.isWeight_one
  · split at h
    · cases h
    · next hweight =>
      split at h <;> cases h
      exact isWeight_of_readWeight hweight
  · cases h

theorem isWeight_of_read {text rest : List Char} {rule : Rule}
    (h : read text = .ok (rule, rest)) : IsWeight rule.weight := by
  unfold read at h
  split at h
  · cases h
  · split at h
    · split at h
      · cases h
      · split at h
        · cases h
        · next hend =>
          split at h <;> cases h
          exact isWeight_of_readEnd hend
    · cases h

theorem isWeight_of_readRest {source text : List Char} {rules : List Rule}
    (h : readRest source text = .ok rules) : ∀ rule ∈ rules, IsWeight rule.weight := by
  fun_induction readRest source text generalizing rules with
  | case1 =>
    cases h
    simp
  | case2 => cases h
  | case3 => cases h
  | case4 text c more _ rule rest hread _ rules' hrest ih =>
    cases h
    exact List.forall_mem_cons.2 ⟨isWeight_of_read hread, ih hrest⟩

end Rule

theorem Grammar.isWeighted_of_ofText {text : String} {g : Grammar} (h : ofText text = .ok g) :
    g.IsWeighted := by
  unfold ofText at h
  split at h
  · cases h
  · cases h
  · next rules _ hread =>
    cases h
    rw [IsWeighted, rules_ofRules]
    exact Rule.isWeight_of_readRest hread

end PhraseStructure
