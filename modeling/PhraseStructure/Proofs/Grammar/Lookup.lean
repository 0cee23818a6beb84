import Mathlib.Data.List.Induction
import Mathlib.Data.List.Nodup
import PhraseStructure.Derivation

/-!
# Looking up rules by their right-hand side

The index keeps one rule for each pair of sides, the last declared one. What it finds for a
right-hand side is thus the last rule with these two sides, under its own number, and it finds one
for every left-hand side that has such a rule.
-/

namespace PhraseStructure

namespace Declared

theorem mem_ofRules {rules : List Rule} {d : Declared} :
    d ∈ ofRules rules ↔ rules[d.index]? = some d.rule := by
  rw [ofRules, List.mem_mapIdx]
  constructor
  · rintro ⟨i, hi, rfl⟩
    exact List.getElem?_eq_getElem hi
  · intro h
    obtain ⟨hi, heq⟩ := List.getElem?_eq_some_iff.1 h
    exact ⟨d.index, hi, by rw [heq]⟩

@[simp] theorem map_rule_ofRules (rules : List Rule) : (ofRules rules).map (·.rule) = rules := by
  apply List.ext_getElem
  · simp [ofRules]
  · intro i h _
    simp [ofRules]

theorem ofRules_append_singleton (rules : List Rule) (rule : Rule) :
    ofRules (rules ++ [rule]) = ofRules rules ++ [⟨rules.length, rule⟩] := by
  simp [ofRules, List.mapIdx_append]

theorem pairwise_ofRules (rules : List Rule) :
    (ofRules rules).Pairwise fun d e => d.index < e.index := by
  induction rules using List.reverseRecOn with
  | nil => simp [ofRules]
  | append_singleton rules rule ih =>
    rw [ofRules_append_singleton, List.pairwise_append]
    refine ⟨ih, List.pairwise_singleton _ _, ?_⟩
    intro d hd e he
    rw [List.mem_singleton.1 he]
    exact (List.getElem?_eq_some_iff.1 (mem_ofRules.1 hd)).1

theorem nodup_replaceOrAppend {ds : List Declared} (d : Declared)
    (h : (ds.map (·.rule.lhs)).Nodup) : ((d.replaceOrAppend ds).map (·.rule.lhs)).Nodup := by
  rw [map_lhs_replaceOrAppend]
  split
  · rwa [List.append_nil]
  · rw [← List.concat_eq_append]
    exact h.concat ‹_›

/-- Adding a rule drops the one that had its left-hand side and no other. -/
theorem mem_replaceOrAppend {d e : Declared} {ds : List Declared}
    (h : (ds.map (·.rule.lhs)).Nodup) :
    e ∈ d.replaceOrAppend ds ↔ e = d ∨ e ∈ ds ∧ e.rule.lhs ≠ d.rule.lhs := by
  induction ds with
  | nil => simp [replaceOrAppend]
  | cons c rest ih =>
    obtain ⟨hnotin, hrest⟩ := List.nodup_cons.1 h
    by_cases hlhs : c.rule.lhs = d.rule.lhs
    · -- the rest is kept whole, since none of it shares this left-hand side
      have hne : ∀ e ∈ rest, e.rule.lhs ≠ d.rule.lhs := by
        intro e he heq
        exact hnotin (List.mem_map.2 ⟨e, he, heq.trans hlhs.symm⟩)
      rw [replaceOrAppend, if_pos hlhs, List.mem_cons, List.mem_cons]
      constructor
      · rintro (rfl | he)
        · exact .inl rfl
        · exact .inr ⟨.inr he, hne e he⟩
      · rintro (rfl | ⟨rfl | he, hother⟩)
        · exact .inl rfl
        · exact absurd hlhs hother
        · exact .inr he
    · rw [replaceOrAppend, if_neg hlhs, List.mem_cons, ih hrest, List.mem_cons]
      constructor
      · rintro (rfl | rfl | ⟨he, hother⟩)
        · exact .inr ⟨.inl rfl, hlhs⟩
        · exact .inl rfl
        · exact .inr ⟨.inr he, hother⟩
      · rintro (rfl | ⟨rfl | he, hother⟩)
        · exact .inr (.inl rfl)
        · exact .inl rfl
        · exact .inr (.inr ⟨he, hother⟩)

end Declared

namespace RuleIndex

theorem rulesWith_ofRules (rules : List Rule) (rhs : Rhs) :
    (ofRules rules).rulesWith rhs =
      ((Declared.ofRules rules).filter (·.rule.rhs = rhs)).foldl
        (fun ds d => d.replaceOrAppend ds) [] := by
  induction rules using List.reverseRecOn with
  | nil => rw [ofRules_nil]; simp [rulesWith, Declared.ofRules]
  | append_singleton rules rule ih =>
    rw [ofRules_append_singleton, rulesWith_add, ih, Declared.ofRules_append_singleton,
      List.filter_append, List.foldl_append]
    by_cases h : rule.rhs = rhs <;> simp [h]

theorem nodup_lhs_rulesWith (rules : List Rule) (rhs : Rhs) :
    (((ofRules rules).rulesWith rhs).map (·.rule.lhs)).Nodup := by
  induction rules using List.reverseRecOn with
  | nil => rw [ofRules_nil]; simp [rulesWith]
  | append_singleton rules rule ih =>
    rw [ofRules_append_singleton, rulesWith_add]
    split
    · exact Declared.nodup_replaceOrAppend _ ih
    · exact ih

/-- What is found for a right-hand side is the last declared rule with these two sides. -/
theorem mem_rulesWith_ofRules {rules : List Rule} {rhs : Rhs} {d : Declared} :
    d ∈ (ofRules rules).rulesWith rhs ↔
      (Declared.ofRules rules).reverse.find?
        (fun e => e.rule.lhs = d.rule.lhs ∧ e.rule.rhs = rhs) = some d := by
  induction rules using List.reverseRecOn with
  | nil => rw [ofRules_nil]; simp [rulesWith, Declared.ofRules]
  | append_singleton rules rule ih =>
    rw [ofRules_append_singleton, rulesWith_add, Declared.ofRules_append_singleton,
      List.reverse_append, List.reverse_singleton, List.singleton_append, List.find?_cons]
    by_cases hrhs : rule.rhs = rhs
    · rw [if_pos hrhs, Declared.mem_replaceOrAppend (nodup_lhs_rulesWith rules rhs), ih]
      by_cases hlhs : rule.lhs = d.rule.lhs
      · simp [hrhs, hlhs, eq_comm]
      · have hne : d ≠ ⟨rules.length, rule⟩ := by
          intro h
          exact hlhs (by rw [h])
        simp [hrhs, hlhs, hne, Ne.symm hlhs]
    · simp [hrhs, ih]

end RuleIndex

namespace Grammar

theorem mem_rulesWith {g : Grammar} {rhs : Rhs} {d : Declared} :
    d ∈ g.index.rulesWith rhs ↔
      (Declared.ofRules g.rules.toList).reverse.find?
        (fun e => e.rule.lhs = d.rule.lhs ∧ e.rule.rhs = rhs) = some d := by
  rw [g.index_eq]
  exact RuleIndex.mem_rulesWith_ofRules

/-- The last declared rule with two given sides, found among the numbered rules. -/
theorem lastRule?_eq (g : Grammar) (lhs : String) (rhs : Rhs) :
    g.lastRule? lhs rhs =
      ((Declared.ofRules g.rules.toList).reverse.find?
        (fun e => e.rule.lhs = lhs ∧ e.rule.rhs = rhs)).map (·.rule) := by
  rw [lastRule?]
  conv_lhs => rw [← Declared.map_rule_ofRules g.rules.toList]
  rw [← List.map_reverse, List.find?_map]
  rfl

theorem mem_of_lastRule? {g : Grammar} {lhs : String} {rhs : Rhs} {rule : Rule}
    (h : g.lastRule? lhs rhs = some rule) :
    rule ∈ g.rules.toList ∧ rule.lhs = lhs ∧ rule.rhs = rhs := by
  have hsides := List.find?_some h
  exact ⟨List.mem_reverse.1 (List.mem_of_find?_eq_some h), by simpa using hsides⟩

theorem hasRule_of_lastRule? {g : Grammar} {lhs : String} {rhs : Rhs} {rule : Rule}
    (h : g.lastRule? lhs rhs = some rule) : g.HasRule lhs rhs :=
  ⟨rule, mem_of_lastRule? h⟩

theorem lastProbability_of_lastRule? {g : Grammar} {lhs : String} {rhs : Rhs} {rule : Rule}
    (h : g.lastRule? lhs rhs = some rule) : g.lastProbability lhs rhs = g.probability rule := by
  rw [lastProbability, h]

/-- A rule that is found stands under its number, has the right-hand side that was asked for and
is the last one with its two sides. -/
theorem spec_of_mem_rulesWith {g : Grammar} {rhs : Rhs} {d : Declared}
    (h : d ∈ g.index.rulesWith rhs) :
    g.rule d.index = .ok d.rule ∧ d.rule.rhs = rhs ∧ g.lastRule? d.rule.lhs rhs = some d.rule := by
  have hfind := mem_rulesWith.1 h
  have hmem := Declared.mem_ofRules.1 (List.mem_reverse.1 (List.mem_of_find?_eq_some hfind))
  have hsides := List.find?_some hfind
  refine ⟨?_, ?_, ?_⟩
  · rw [rule, ← Array.getElem?_toList, hmem]
  · simpa using hsides
  · rw [lastRule?_eq, hfind, Option.map_some]

/-- The rule stands at this position, and none with its two sides stands behind it. -/
def IsLastAt (g : Grammar) (index : Nat) (rule : Rule) : Prop :=
  g.rule index = .ok rule ∧ ∀ other rule', g.rule other = .ok rule' → rule'.lhs = rule.lhs →
    rule'.rhs = rule.rhs → other ≤ index

theorem rule_eq_ok_iff {g : Grammar} {index : Nat} {rule : Rule} :
    g.rule index = .ok rule ↔ (⟨index, rule⟩ : Declared) ∈ Declared.ofRules g.rules.toList := by
  rw [Declared.mem_ofRules, Grammar.rule, Array.getElem?_toList]
  cases g.rules[index]? <;> simp

theorem isLastAt_of_mem_rulesWith {g : Grammar} {rhs : Rhs} {d : Declared}
    (h : d ∈ g.index.rulesWith rhs) : g.IsLastAt d.index d.rule := by
  obtain ⟨hrule, hrhs, -⟩ := spec_of_mem_rulesWith h
  refine ⟨hrule, ?_⟩
  intro other rule' hother hlhs hrhs'
  obtain ⟨-, behind, before, hsplit, hbehind⟩ := List.find?_eq_some_iff_append.1 (mem_rulesWith.1 h)
  have horder := List.pairwise_reverse.2 (Declared.pairwise_ofRules g.rules.toList)
  have hmem := List.mem_reverse.2 (rule_eq_ok_iff.1 hother)
  rw [hsplit] at horder hmem
  rcases List.mem_append.1 hmem with hmem | hmem
  · -- no rule with these sides is found behind the one that was looked up
    exact absurd (hbehind _ hmem) (by simp [hlhs, hrhs', hrhs])
  rcases List.mem_cons.1 hmem with heq | hmem
  · exact Nat.le_of_eq (congrArg Declared.index heq)
  · have hpairs := (List.pairwise_append.1 horder).2.1
    exact Nat.le_of_lt (List.rel_of_pairwise_cons hpairs hmem)

theorem exists_mem_rulesWith {g : Grammar} {lhs : String} {rhs : Rhs} :
    (∃ d ∈ g.index.rulesWith rhs, d.rule.lhs = lhs) ↔ g.HasRule lhs rhs := by
  rw [← isSome_lastRule?, lastRule?_eq, Option.isSome_map]
  constructor
  · rintro ⟨d, hd, rfl⟩
    rw [mem_rulesWith.1 hd, Option.isSome_some]
  · intro h
    obtain ⟨d, hd⟩ := Option.isSome_iff_exists.1 h
    have hlhs : d.rule.lhs = lhs := by
      have := List.find?_some hd
      simp only [decide_eq_true_eq] at this
      exact this.1
    exact ⟨d, mem_rulesWith.2 (by rw [hlhs]; exact hd), hlhs⟩

theorem hasRule_of_mem_rulesWith {g : Grammar} {rhs : Rhs} {d : Declared}
    (h : d ∈ g.index.rulesWith rhs) : g.HasRule d.rule.lhs rhs :=
  exists_mem_rulesWith.1 ⟨d, h, rfl⟩

/-- The probability of a rule that is found is that of the last rule with its two sides. -/
theorem lastProbability_of_mem_rulesWith {g : Grammar} {rhs : Rhs} {d : Declared}
    (h : d ∈ g.index.rulesWith rhs) :
    g.lastProbability d.rule.lhs rhs = g.probability d.rule :=
  lastProbability_of_lastRule? (spec_of_mem_rulesWith h).2.2

end Grammar

end PhraseStructure
