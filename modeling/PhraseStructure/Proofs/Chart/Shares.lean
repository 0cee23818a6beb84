import PhraseStructure.Proofs.Chart.Optimality
import PhraseStructure.Proofs.Grammar.Written

/-!
# Probabilities as shares

In a weighted grammar the probability of a rule is a share of its left-hand side's total, even if
that is zero or has grown to infinity. An entry over a split is the product of such a share and its
two entries below, so it is a share that is no larger than either of them (`le_of_split`).
-/

namespace PhraseStructure.Chart

open Binary64 (IsShare)

variable {g : Grammar} {tokens : List String} {start stop : Nat}

theorem isShare_prob_of_mem_fill (hg : g.IsWeighted) (hle : start ≤ stop)
    (hlt : stop < tokens.length) {e : Entry}
    (h : e ∈ ((fill g tokens).cellAt start stop).entries) : IsShare e.prob :=
  isShare_prob_of_get?_fill hg hle hlt (get?_fill_of_mem hle hlt h)

/-- An entry over a split is no more probable than either of the entries that its origin names. -/
theorem le_of_split (hg : g.IsWeighted) (hle : start ≤ stop) (hlt : stop < tokens.length)
    {e : Entry} (h : e ∈ ((fill g tokens).cellAt start stop).entries) {index position : Nat}
    (horigin : e.origin = .split index position) :
    ∃ rule left right, g.rule index = .ok rule ∧ rule.lhs = e.symbol ∧
      rule.rhs = .binary left.symbol right.symbol ∧
      ((fill g tokens).cellAt start position).get? left.symbol = some left ∧
      ((fill g tokens).cellAt (position + 1) stop).get? right.symbol = some right ∧
      e.prob ≤ left.prob ∧ e.prob ≤ right.prob := by
  cases justifies_of_get? hle hlt (get?_fill_of_mem hle hlt h) with
  | word => cases horigin
  | @split _ _ _ rule left right hstart hstop hrule hrhs hleft hright =>
    cases horigin
    have hshare := isShare_prob_of_get?_fill hg hstart (hstop.trans hlt) hleft
    have hshare' := isShare_prob_of_get?_fill hg hstop hlt hright
    obtain ⟨-, hbelow, hbelow'⟩ := hshare.mul_le hshare'
    -- The probability of the rule is a share too, so the product of the two bounds the entry.
    obtain ⟨-, -, hpair⟩ :=
      (hg.isShare_lastProbability rule.lhs rule.rhs).mul_le (hshare.mul hshare')
    exact ⟨_, _, _, hrule, rfl, hrhs, hleft, hright, Binary64.le_trans hpair hbelow,
      Binary64.le_trans hpair hbelow'⟩

/-- In a grammar that is read from text the probabilities of the rules, and those of all entries of
every filled chart, are finite numbers from zero to one, and no entry over a split is more probable
than either of the two entries below. -/
theorem isShare_prob_fill {text : String} {g : Grammar} (hg : Grammar.ofText text = .ok g) :
    (∀ rule ∈ g.rules.toList,
      IsShare (g.probability rule) ∧ (g.probability rule).isFinite = true) ∧
    ∀ tokens start stop cell, (fill g tokens).cell start stop = .ok cell → ∀ e ∈ cell.entries,
      (IsShare e.prob ∧ e.prob.isFinite = true) ∧
      ∀ index position, e.origin = .split index position → ∃ rule left right,
        g.rule index = .ok rule ∧ rule.lhs = e.symbol ∧
        rule.rhs = .binary left.symbol right.symbol ∧
        ((fill g tokens).cellAt start position).get? left.symbol = some left ∧
        ((fill g tokens).cellAt (position + 1) stop).get? right.symbol = some right ∧
        e.prob ≤ left.prob ∧ e.prob ≤ right.prob := by
  have hweighted := Grammar.isWeighted_of_ofText hg
  constructor
  · intro rule hrule
    have hshare := hweighted.isShare_probability hrule
    exact ⟨hshare, hshare.isFinite⟩
  · intro tokens start stop cell hcell e he
    obtain ⟨⟨hle, hlt⟩, rfl⟩ := cell_fill_eq_ok_iff.1 hcell
    have hshare := isShare_prob_of_mem_fill hweighted hle hlt he
    exact ⟨⟨hshare, hshare.isFinite⟩, fun _ _ => le_of_split hweighted hle hlt he⟩

/-! ## Totals without a share -/

/-- The weights of one left-hand side add up to infinity, and those of the other one to zero. -/
def extremeWeights : Grammar :=
  .ofRules [⟨"S", .binary "Z" "Z", 1e308⟩, ⟨"S", .unary "z", 1e308⟩, ⟨"Z", .unary "z", 0⟩]

theorem lhsWeight_extremeWeights :
    (extremeWeights.lhsWeight "S").isInf = true ∧ extremeWeights.lhsWeight "Z" = 0 := by
  simp only [Grammar.lhsWeight, Grammar.index_eq, RuleIndex.weight_ofRules]
  decide +kernel

theorem ofText_extremeWeights :
    Grammar.ofText extremeWeights.text = .ok extremeWeights := by
  have hweights : Binary64.IsWeight 1e308 ∧ Binary64.IsWeight 0 := by
    unfold Binary64.IsWeight
    decide +kernel
  have hletters : IsSymbol ['S'] ∧ IsSymbol ['Z'] ∧ IsSymbol ['z'] := by
    decide
  exact Grammar.ofText_text_ofRules (List.cons_ne_nil _ _) (by simp [Rhs.symbols, hletters])
    (by simp [hweights])

theorem hasRule_extremeWeights {lhs : String} {rhs : Rhs} :
    extremeWeights.HasRule lhs rhs ↔ (lhs = "S" ∧ rhs = .binary "Z" "Z") ∨
      (lhs = "S" ∧ rhs = .unary "z") ∨ (lhs = "Z" ∧ rhs = .unary "z") := by
  simp only [Grammar.HasRule, extremeWeights, Grammar.rules_ofRules, List.mem_cons,
    List.not_mem_nil, or_false, exists_eq_or_imp, exists_eq_left, eq_comm]

/-- The chart of two words has an entry for both, although neither total gives its rules a share. -/
theorem isShare_prob_fill_extremeWeights :
    Grammar.ofText extremeWeights.text = .ok extremeWeights ∧
    ((extremeWeights.lhsWeight "S").isInf = true ∧ extremeWeights.lhsWeight "Z" = 0) ∧
    IsShare (extremeWeights.probability ⟨"S", .binary "Z" "Z", 1e308⟩) ∧
    IsShare (extremeWeights.probability ⟨"Z", .unary "z", 0⟩) ∧
    ∃ cell e left right, (fill extremeWeights ["z", "z"]).cell 0 1 = .ok cell ∧
      cell.get? "S" = some e ∧ IsShare e.prob ∧
      ((fill extremeWeights ["z", "z"]).cellAt 0 0).get? "Z" = some left ∧
      ((fill extremeWeights ["z", "z"]).cellAt 1 1).get? "Z" = some right ∧
      e.prob ≤ left.prob ∧ e.prob ≤ right.prob := by
  have htext := ofText_extremeWeights
  obtain ⟨hrules, hcells⟩ := isShare_prob_fill htext
  have hword := hasRule_extremeWeights.2 (.inr (.inr ⟨rfl, rfl⟩))
  have hpair := hasRule_extremeWeights.2 (.inl ⟨rfl, rfl⟩)
  obtain ⟨l, hl, -⟩ := @exists_get?_fill_word extremeWeights ["z", "z"] 0 (by decide) "Z" hword
  obtain ⟨r, hr, -⟩ := @exists_get?_fill_word extremeWeights ["z", "z"] 1 (by decide) "Z" hword
  obtain ⟨e, he, -⟩ := exists_get?_fill_split le_rfl Nat.zero_lt_one (by decide) hpair hl hr
  have hcell := @cell_fill extremeWeights ["z", "z"] 0 1 (by decide) (by decide)
  obtain ⟨⟨hshare, -⟩, hsplit⟩ := hcells _ 0 1 _ hcell e (Cell.mem_of_get? he)
  refine ⟨htext, lhsWeight_extremeWeights, (hrules _ ?_).1, (hrules _ ?_).1, ?_⟩
  · simp [extremeWeights]
  · simp [extremeWeights]
  · obtain ⟨hzero, -⟩ | ⟨index, position, horigin, hstart, hstop⟩ :=
      origin_of_get?_fill (by decide) (by decide) he
    · cases hzero
    obtain rfl : position = 0 := Nat.lt_one_iff.1 hstop
    obtain ⟨rule, left, right, hrule, -, hrhs, hleft, hright, hle, hle'⟩ := hsplit _ _ horigin
    obtain ⟨hsymbol, hsymbol'⟩ : left.symbol = "Z" ∧ right.symbol = "Z" := by
      have hsides := hasRule_extremeWeights.1 (Grammar.hasRule_of_rule hrule)
      simp only [hrhs, Rhs.binary.injEq, reduceCtorEq, and_false, or_false] at hsides
      exact hsides.2
    rw [hsymbol] at hleft
    rw [hsymbol'] at hright
    exact ⟨_, e, left, right, hcell, he, hshare, hleft, hright, hle, hle'⟩

end PhraseStructure.Chart
