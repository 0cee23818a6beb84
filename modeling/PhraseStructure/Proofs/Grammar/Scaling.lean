import PhraseStructure.Generator
import PhraseStructure.Proofs.Binary64.Scaling
import PhraseStructure.Proofs.Grammar.Nonterminals
import PhraseStructure.Proofs.Grammar.Weights

/-!
# Scaled weights

Rules that keep both their sides stay where they are in every table, whatever happens to their
weights. If the weights of one left-hand side are all multiplied by a power of two, and exactly so,
then so are their running sums and their total, and every probability stays the same number.
-/

namespace PhraseStructure

open Binary64 (IsPowerOfTwo IsWeight Scaled ScalesExactly powerOfTwo)

/-! ## Rules that keep their sides -/

/-- A change to rules that keeps both sides. -/
structure Rule.KeepsSides (f : Rule → Rule) : Prop where
  lhs_eq : ∀ rule, (f rule).lhs = rule.lhs
  rhs_eq : ∀ rule, (f rule).rhs = rule.rhs

/-- The changed rule at the same position. -/
def Declared.mapRule (f : Rule → Rule) (d : Declared) : Declared :=
  ⟨d.index, f d.rule⟩

section KeepsSides

variable {f : Rule → Rule} (hf : Rule.KeepsSides f)

include hf

theorem Declared.replaceOrAppend_map (d : Declared) (ds : List Declared) :
    (d.mapRule f).replaceOrAppend (ds.map (mapRule f)) =
      (d.replaceOrAppend ds).map (mapRule f) := by
  induction ds with
  | nil => rfl
  | cons e rest ih =>
    have hlhs : (e.mapRule f).rule.lhs = (d.mapRule f).rule.lhs ↔ e.rule.lhs = d.rule.lhs := by
      rw [mapRule, mapRule, hf.lhs_eq, hf.lhs_eq]
    rw [List.map_cons, replaceOrAppend, replaceOrAppend, ih]
    by_cases h : e.rule.lhs = d.rule.lhs
    · rw [if_pos h, if_pos (hlhs.2 h), List.map_cons]
    · rw [if_neg h, if_neg (mt hlhs.1 h), List.map_cons]

/-- What is found for a right-hand side is found at the same positions. -/
theorem RuleIndex.rulesWith_map (rules : List Rule) (rhs : Rhs) :
    (ofRules (rules.map f)).rulesWith rhs =
      ((ofRules rules).rulesWith rhs).map (Declared.mapRule f) := by
  induction rules using List.reverseRecOn with
  | nil => rw [List.map_nil, ofRules_nil]; simp [rulesWith]
  | append_singleton rules rule ih =>
    have hrhs : (f rule).rhs = rhs ↔ rule.rhs = rhs := by rw [hf.rhs_eq]
    rw [List.map_append, List.map_singleton, ofRules_append_singleton, ofRules_append_singleton,
      rulesWith_add, rulesWith_add, ih, List.length_map]
    by_cases h : rule.rhs = rhs
    · rw [if_pos h, if_pos (hrhs.2 h)]
      exact Declared.replaceOrAppend_map hf ⟨rules.length, rule⟩ _
    · rw [if_neg h, if_neg (mt hrhs.1 h)]

namespace Grammar

theorem rulesFor_map (rules : List Rule) (lhs : String) :
    (ofRules (rules.map f)).rulesFor lhs = ((ofRules rules).rulesFor lhs).map f := by
  rw [rulesFor_eq, rulesFor_eq, rules_ofRules, rules_ofRules, List.filter_map]
  congr 2
  funext rule
  show decide ((f rule).lhs = lhs) = _
  rw [hf.lhs_eq]

theorem isTerminal_map (rules : List Rule) (symbol : String) :
    (ofRules (rules.map f)).isTerminal symbol = (ofRules rules).isTerminal symbol := by
  rw [Bool.eq_iff_iff, isTerminal_iff, isTerminal_iff, rules_ofRules, rules_ofRules,
    List.forall_mem_map]
  simp only [hf.lhs_eq]

omit hf in
theorem rule_map (rules : List Rule) (index : Nat) :
    (ofRules (rules.map f)).rule index = ((ofRules rules).rule index).map f := by
  have hget : (ofRules (rules.map f)).rules[index]? = ((ofRules rules).rules[index]?).map f := by
    simp [ofRules]
  have hsize : (ofRules (rules.map f)).rules.size = (ofRules rules).rules.size := by
    simp [ofRules]
  rw [rule, rule, hget, hsize]
  cases (ofRules rules).rules[index]? <;> rfl

end Grammar

end KeepsSides

/-! ## Running sums and totals -/

namespace Rule

theorem foldl_weight_eq (rules : List Rule) (sum : Float) :
    rules.foldl (fun total rule => total + rule.weight) sum =
      (runningSums sum rules).getLast?.getD sum := by
  induction rules generalizing sum with
  | nil => rfl
  | cons rule rules ih =>
    rw [List.foldl_cons, ih, runningSums, List.getLast?_cons, Option.getD_some]

/-- Scaling by `s` is exact on the weights of the rules, on the running sums and on whatever is
drawn from the total. -/
structure ScaleExactly (s : Float) (rules : List Rule) : Prop where
  weights : ∀ rule ∈ rules, ScalesExactly s rule.weight
  sums : ∀ sum ∈ runningSums 0.0 rules, ScalesExactly s sum
  draws : ∀ value, ScalesExactly s (Draws.unit value * totalWeight rules)

def timesWeight (s : Float) (rule : Rule) : Rule :=
  { rule with weight := rule.weight * s }

theorem forall₂_runningSums {k : ℤ} {s : Float} (hs : Binary64.Denotes s (powerOfTwo k))
    {rules : List Rule} {sum sum' : Float} (hsum : Scaled k sum sum')
    (hweights : ∀ rule ∈ rules, IsWeight rule.weight)
    (hexact : ∀ rule ∈ rules, ScalesExactly s rule.weight)
    (hsums : ∀ total ∈ runningSums sum rules, ScalesExactly s total) :
    List.Forall₂ (Scaled k) (runningSums sum rules)
      (runningSums sum' (rules.map (timesWeight s))) := by
  induction rules generalizing sum sum' with
  | nil => exact .nil
  | cons rule rules ih =>
    rw [runningSums, List.forall_mem_cons] at hsums
    rw [List.forall_mem_cons] at hweights hexact
    have hnext : Scaled k (sum + rule.weight) (sum' + rule.weight * s) :=
      hsum.add (hexact.1.scaled hs hweights.1.zero_le) hs hsums.1
    exact .cons hnext (ih hnext hweights.2 hexact.2 hsums.2)

theorem forall₂_getLast? {α β : Type} {R : α → β → Prop} {l : List α} {l' : List β} {d : α}
    {d' : β} (h : List.Forall₂ R l l') (hd : R d d') :
    R (l.getLast?.getD d) (l'.getLast?.getD d') := by
  induction h generalizing d d' with
  | nil => exact hd
  | cons hab _ ih =>
    rw [List.getLast?_cons, List.getLast?_cons]
    exact ih hab

section ScaleExactly

variable {k : ℤ} {s : Float} {rules : List Rule}

theorem ScaleExactly.forall₂_runningSums (h : ScaleExactly s rules)
    (hs : Binary64.Denotes s (powerOfTwo k)) (hweights : ∀ rule ∈ rules, IsWeight rule.weight) :
    List.Forall₂ (Scaled k) (runningSums 0.0 rules)
      (runningSums 0.0 (rules.map (timesWeight s))) :=
  Rule.forall₂_runningSums hs .zero hweights h.weights h.sums

theorem ScaleExactly.scaled_totalWeight (h : ScaleExactly s rules)
    (hs : Binary64.Denotes s (powerOfTwo k)) (hweights : ∀ rule ∈ rules, IsWeight rule.weight) :
    Scaled k (totalWeight rules) (totalWeight (rules.map (timesWeight s))) :=
  forall₂_getLast? (h.forall₂_runningSums hs hweights) .zero

end ScaleExactly

/-! ## The weights of one left-hand side -/

/-- The rule with its weight multiplied by `s` if it expands `lhs`. -/
def scaled (lhs : String) (s : Float) (rule : Rule) : Rule :=
  if rule.lhs = lhs then rule.timesWeight s else rule

theorem keepsSides_scaled (lhs : String) (s : Float) : KeepsSides (scaled lhs s) where
  lhs_eq rule := by
    rw [scaled]
    split <;> rfl
  rhs_eq rule := by
    rw [scaled]
    split <;> rfl

end Rule

namespace Grammar

variable {s : Float} {lhs : String} {rules : List Rule}

theorem lhsWeight_eq_totalWeight (g : Grammar) (lhs : String) :
    g.lhsWeight lhs = Rule.totalWeight (g.rulesFor lhs) := by
  rw [lhsWeight, rulesFor_eq, g.index_eq, RuleIndex.weight_ofRules, Rule.foldl_weight_eq]
  rfl

theorem probability_eq (g : Grammar) (rule : Rule) :
    g.probability rule =
      if 0.0 < Rule.totalWeight (g.rulesFor rule.lhs) then
        rule.weight / Rule.totalWeight (g.rulesFor rule.lhs)
      else 0.0 := by
  rw [← lhsWeight_eq_totalWeight]
  rfl

theorem rulesFor_scaled (rules : List Rule) (lhs : String) (s : Float) :
    (ofRules (rules.map (Rule.scaled lhs s))).rulesFor lhs =
      ((ofRules rules).rulesFor lhs).map (Rule.timesWeight s) := by
  rw [rulesFor_map (Rule.keepsSides_scaled lhs s), rulesFor_eq, rules_ofRules]
  apply List.map_congr_left
  intro rule hrule
  rw [List.mem_filter, decide_eq_true_eq] at hrule
  exact if_pos hrule.2

theorem rulesFor_scaled_of_ne (rules : List Rule) {lhs other : String} (s : Float)
    (h : other ≠ lhs) :
    (ofRules (rules.map (Rule.scaled lhs s))).rulesFor other =
      (ofRules rules).rulesFor other := by
  rw [rulesFor_map (Rule.keepsSides_scaled lhs s), rulesFor_eq, rules_ofRules]
  conv_rhs => rw [← List.map_id (List.filter _ rules)]
  apply List.map_congr_left
  intro rule hrule
  rw [List.mem_filter, decide_eq_true_eq] at hrule
  exact if_neg (hrule.2 ▸ h)

/-- Scaling the weights of a left-hand side changes no probability. -/
theorem probability_scaled (hs : IsPowerOfTwo s) (hweights : ∀ rule ∈ rules, IsWeight rule.weight)
    (hexact : Rule.ScaleExactly s (rules.filter (·.lhs = lhs))) {rule : Rule}
    (hrule : rule ∈ rules) :
    (ofRules (rules.map (Rule.scaled lhs s))).probability (rule.scaled lhs s) =
      (ofRules rules).probability rule := by
  obtain ⟨k, hs⟩ := hs
  rw [probability_eq, probability_eq, (Rule.keepsSides_scaled lhs s).lhs_eq]
  by_cases hlhs : rule.lhs = lhs
  · have htotal : Scaled k (Rule.totalWeight ((ofRules rules).rulesFor lhs))
        (Rule.totalWeight (((ofRules rules).rulesFor lhs).map (Rule.timesWeight s))) := by
      rw [rulesFor_eq, rules_ofRules]
      exact hexact.scaled_totalWeight hs fun rule hr => hweights rule (List.mem_filter.1 hr).1
    have hweight : (rule.scaled lhs s).weight = rule.weight * s := by
      rw [Rule.scaled, if_pos hlhs]
      rfl
    rw [hlhs, rulesFor_scaled, hweight]
    by_cases hpos : 0.0 < Rule.totalWeight ((ofRules rules).rulesFor lhs)
    · rw [if_pos hpos, if_pos (htotal.zero_lt_iff.2 hpos)]
      exact htotal.div_eq_div hpos hs (hweights rule hrule).zero_le
        (hexact.weights rule (List.mem_filter.2 ⟨hrule, by simpa using hlhs⟩))
    · rw [if_neg hpos, if_neg (mt htotal.zero_lt_iff.1 hpos)]
  · rw [rulesFor_scaled_of_ne rules s hlhs, Rule.scaled, if_neg hlhs]

end Grammar

end PhraseStructure
