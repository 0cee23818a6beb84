import PhraseStructure.Proofs.Grammar.Weights

/-!
# Unrelated rules

Rules may be added behind others without a change to what is found for these, as long as the new
left-hand sides are not used by the old rules. The old rules keep their numbers and probabilities,
and a look-up by right-hand side finds the old rules in the old order among the new ones.
-/

namespace PhraseStructure

variable {rules more : List Rule} {hidden : List String}

/-! ## Look-up tables -/

/-- A rule with a hidden left-hand side leaves the others where they are. -/
theorem Declared.filter_replaceOrAppend {d : Declared} (h : d.rule.lhs ∈ hidden)
    (ds : List Declared) :
    (d.replaceOrAppend ds).filter (·.rule.lhs ∉ hidden) = ds.filter (·.rule.lhs ∉ hidden) := by
  induction ds with
  | nil => simp [replaceOrAppend, h]
  | cons e rest ih =>
    by_cases heq : e.rule.lhs = d.rule.lhs
    · simp [replaceOrAppend, heq, h]
    · rw [replaceOrAppend, if_neg heq, List.filter_cons, List.filter_cons, ih]

theorem RuleIndex.mem_rules_of_mem_rulesWith {rhs : Rhs} {d : Declared}
    (h : d ∈ (ofRules rules).rulesWith rhs) : d.rule ∈ rules := by
  have hmem := List.mem_of_find?_eq_some (mem_rulesWith_ofRules.1 h)
  exact List.mem_of_getElem? (Declared.mem_ofRules.1 (List.mem_reverse.1 hmem))

/-- Among the rules with some right-hand side those of old left-hand sides are the old ones. -/
theorem RuleIndex.filter_rulesWith_append (hrules : ∀ rule ∈ rules, rule.lhs ∉ hidden)
    (hmore : ∀ rule ∈ more, rule.lhs ∈ hidden) (rhs : Rhs) :
    ((ofRules (rules ++ more)).rulesWith rhs).filter (·.rule.lhs ∉ hidden) =
      (ofRules rules).rulesWith rhs := by
  induction more using List.reverseRecOn with
  | nil =>
    rw [List.append_nil, List.filter_eq_self]
    intro d hd
    exact decide_eq_true (hrules _ (mem_rules_of_mem_rulesWith hd))
  | append_singleton more last ih =>
    have ih := ih fun rule hrule => hmore rule (List.mem_append_left _ hrule)
    rw [← List.append_assoc, ofRules_append_singleton, rulesWith_add]
    split
    · rw [Declared.filter_replaceOrAppend (hmore last (by simp)), ih]
    · exact ih

theorem RuleIndex.weight_append {lhs : String} (h : ∀ rule ∈ more, rule.lhs ≠ lhs) :
    (ofRules (rules ++ more)).weight lhs = (ofRules rules).weight lhs := by
  have hnone : more.filter (·.lhs = lhs) = [] := by
    rw [List.filter_eq_nil_iff]
    intro rule hrule
    simpa using h rule hrule
  rw [weight_ofRules, weight_ofRules, List.filter_append, hnone, List.append_nil]

/-! ## Parts of a grammar -/

namespace Grammar

/-- The rules of `g` are those of `h` whose left-hand sides are not hidden, in the same places and
with the same probabilities, and what they combine is not hidden either. -/
structure IsPart (hidden : List String) (g h : Grammar) : Prop where
  rulesWith : ∀ rhs, (h.index.rulesWith rhs).filter (·.rule.lhs ∉ hidden) = g.index.rulesWith rhs
  probability : ∀ rule : Rule, rule.lhs ∉ hidden → h.probability rule = g.probability rule
  rule : ∀ index rule, g.rule index = .ok rule → h.rule index = .ok rule
  notMem : ∀ lhs left right, g.HasRule lhs (.binary left right) → left ∉ hidden ∧ right ∉ hidden

theorem isPart_append
    (h : ∀ new ∈ more, ∀ rule ∈ rules, rule.lhs ≠ new.lhs ∧ new.lhs ∉ rule.rhs.symbols) :
    IsPart (more.map (·.lhs)) (ofRules rules) (ofRules (rules ++ more)) where
  rulesWith := by
    intro rhs
    rw [index_eq, index_eq, rules_ofRules, rules_ofRules]
    apply RuleIndex.filter_rulesWith_append
    · intro rule hrule hmem
      obtain ⟨new, hnew, heq⟩ := List.mem_map.1 hmem
      exact (h new hnew rule hrule).1 heq.symm
    · intro rule hrule
      exact List.mem_map_of_mem hrule
  probability := by
    intro rule hrule
    have htotal : (ofRules (rules ++ more)).lhsWeight rule.lhs =
        (ofRules rules).lhsWeight rule.lhs := by
      rw [lhsWeight, lhsWeight, index_eq, index_eq, rules_ofRules, rules_ofRules]
      apply RuleIndex.weight_append
      intro new hnew heq
      exact hrule (heq ▸ List.mem_map_of_mem hnew)
    rw [Grammar.probability, Grammar.probability, htotal]
  rule := by
    intro index rule hrule
    rw [rule_eq_ok_iff, Declared.mem_ofRules, rules_ofRules] at hrule ⊢
    obtain ⟨hindex, -⟩ := List.getElem?_eq_some_iff.1 hrule
    rwa [List.getElem?_append_left hindex]
  notMem := by
    rintro lhs left right ⟨rule, hrule, -, hrhs⟩
    rw [rules_ofRules] at hrule
    have hunused : ∀ symbol ∈ more.map (·.lhs), symbol ∉ [left, right] := by
      intro symbol hsymbol
      obtain ⟨new, hnew, rfl⟩ := List.mem_map.1 hsymbol
      have := (h new hnew rule hrule).2
      rwa [hrhs] at this
    exact ⟨fun hleft => hunused left hleft (by simp), fun hright => hunused right hright (by simp)⟩

end Grammar

end PhraseStructure
