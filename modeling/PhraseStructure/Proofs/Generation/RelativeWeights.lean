import PhraseStructure.Proofs.Chart.Congruence
import PhraseStructure.Proofs.Decimal.Nearest
import PhraseStructure.Proofs.Generation.Derivations
import PhraseStructure.Proofs.Grammar.Scaling

/-!
# Weights count only relative to their left-hand side

A draw is a part of a total and is compared with running sums of the same weights, so a factor on
all of these weights cancels in every choice, as it does in every probability. So a grammar with
the weights of one left-hand side multiplied by a power of two parses and generates as before
(`Grammar.scaled_weights_agree`), as long as the multiplications and the parts of the total are
exact.
-/

namespace PhraseStructure

open Binary64 (Denotes IsPowerOfTwo IsWeight Scaled ScalesExactly powerOfTwo)

/-! ## Parts of a total -/

theorem Draws.denotes_unitStep : Denotes unitStep ((2 : ℝ) ^ (-53 : ℤ) : ℝ) :=
  Binary64.denotes_two_zpow rfl rfl

theorem Draws.unitSteps_lt (value : UInt64) : value.toNat / 2 ^ 11 < 2 ^ 53 := by
  have := value.toNat_lt
  omega

theorem Draws.toNat_shiftRight (value : UInt64) : (value >>> 11).toNat = value.toNat / 2 ^ 11 :=
  Nat.shiftRight_eq_div_pow value.toNat 11

theorem Draws.denotes_unit (value : UInt64) :
    Denotes (unit value) ((value.toNat / 2 ^ 11 : ℕ) * (2 : ℝ) ^ (-53 : ℤ) : ℝ) := by
  have hlt := unitSteps_lt value
  have hshift : value >>> 11 = (value.toNat / 2 ^ 11).toUInt64 := by
    rw [← toNat_shiftRight]
    exact (value >>> 11).ofNat_toNat.symm
  have hprod := (Binary64.denotes_toFloat_toUInt64 hlt).mul denotes_unitStep (Nat.cast_nonneg _)
    (Binary64.two_zpow_pos _).le
  rw [Binary64.nearestValue_natCast_mul_zpow hlt (by norm_num) (by norm_num), ← hshift] at hprod
  exact hprod

/-- No part of a total is rounded to zero but that of the unit zero, unless the total is far too
small. -/
theorem Draws.unit_mul_pos {value : UInt64} {total : Float} {t : ℝ} (ht : Denotes total t)
    (hlarge : (2 : ℝ) ^ (-1021 : ℤ) ≤ t) (hunit : value.toNat / 2 ^ 11 ≠ 0) :
    0.0 < unit value * total := by
  have htpos := (Binary64.two_zpow_pos _).trans_le hlarge
  have hsteps : (1 : ℝ) ≤ (value.toNat / 2 ^ 11 : ℕ) := by
    exact_mod_cast Nat.one_le_iff_ne_zero.2 hunit
  refine (denotes_unit value).mul_pos ht (by positivity) htpos.le ?_
  calc (2 : ℝ) ^ (-1074 : ℤ) = 2 ^ (-53 : ℤ) * 2 ^ (-1021 : ℤ) := by
        rw [← zpow_add₀ two_ne_zero]
        norm_num
    _ ≤ (value.toNat / 2 ^ 11 : ℕ) * 2 ^ (-53 : ℤ) * t :=
        mul_le_mul (le_mul_of_one_le_left (Binary64.two_zpow_pos _).le hsteps) hlarge
          (Binary64.two_zpow_pos _).le (by positivity)

namespace Rule

variable {k : ℤ} {s : Float} {rules : List Rule}

/-- If all parts of a total scale exactly, the total is far above the least normal number: its
second least part is a normal number. -/
theorem ScaleExactly.le_of_denotes (h : ScaleExactly s rules) {t : ℝ}
    (ht : Denotes (totalWeight rules) t) (htnormal : (2 : ℝ) ^ (-1022 : ℤ) ≤ t) :
    (2 : ℝ) ^ (-971 : ℤ) ≤ t := by
  have htpos : 0 < t := (Binary64.two_zpow_pos _).trans_le htnormal
  have hstep : Denotes (Draws.unit 4096) ((2 : ℝ) ^ (-52 : ℤ) : ℝ) := by
    have hdenotes := Draws.denotes_unit 4096
    rwa [show (4096 : UInt64).toNat / 2 ^ 11 = 2 from rfl, Nat.cast_ofNat,
      ← zpow_one_add₀ two_ne_zero] at hdenotes
  have hleast : (2 : ℝ) ^ (-1074 : ℤ) ≤ 2 ^ (-52 : ℤ) * t := by
    rw [show (-1074 : ℤ) = -52 + -1022 by norm_num, zpow_add₀ two_ne_zero]
    exact mul_le_mul_of_nonneg_left htnormal (Binary64.two_zpow_pos _).le
  have hpart := hstep.mul ht (Binary64.two_zpow_pos _).le htpos.le
  have hpartPos := hstep.mul_pos ht (Binary64.two_zpow_pos _).le htpos.le hleast
  rcases h.draws 4096 with hzero | ⟨hpartNormal, -⟩
  · exact absurd hpartPos (Binary64.not_lt_of_le hzero)
  · obtain ⟨a, ha, hle⟩ := Binary64.isNormal_iff.1 hpartNormal
    have hround := (Binary64.nearestValue_eq_coe_iff.1 (hpart.2.symm.trans ha.2)).1
    have hdouble := Binary64.rounded_le_two_mul hleast
    have hstart : (2 : ℝ) ^ (-1022 : ℤ) = 2 * 2 ^ (-52 : ℤ) * 2 ^ (-971 : ℤ) := by
      rw [← zpow_one_add₀ two_ne_zero, ← zpow_add₀ two_ne_zero]
      norm_num
    rw [hround, ← mul_assoc] at hdouble
    rw [hstart] at hle
    exact le_of_mul_le_mul_left (hle.trans hdouble)
      (mul_pos two_pos (Binary64.two_zpow_pos _))

theorem ScaleExactly.draw_pos (h : ScaleExactly s rules)
    (htotal : Scaled k (totalWeight rules) (totalWeight (rules.map (timesWeight s))))
    (value : UInt64) (hunit : 0.0 < Draws.unit value) (hpos : 0.0 < totalWeight rules) :
    0.0 < Draws.unit value * totalWeight rules := by
  obtain ⟨t, ht, -, hnormal⟩ := htotal
  have htpos : 0 < t := EReal.coe_pos.1 (ht.zero_lt_iff.1 hpos)
  have hlarge := h.le_of_denotes ht (hnormal.resolve_left htpos.ne').1
  have hsteps : (2 : ℝ) ^ (-1021 : ℤ) ≤ 2 ^ (-971 : ℤ) :=
    zpow_le_zpow_right₀ one_le_two (by norm_num)
  refine Draws.unit_mul_pos ht (hsteps.trans hlarge) ?_
  intro hzero
  have hvalue := Draws.denotes_unit value
  rw [hzero, Nat.cast_zero, zero_mul] at hvalue
  exact lt_irrefl 0 (hvalue.zero_lt_iff.1 hunit)

/-- Lists that a test finds alike, place by place, have their first hits at the same place. -/
theorem findIdx?_eq_of_forall₂ {α β : Type} {p : α → Bool} {q : β → Bool} {l : List α}
    {l' : List β} (h : List.Forall₂ (fun a b => q b = p a) l l') :
    l'.findIdx? q = l.findIdx? p := by
  induction h with
  | nil => rfl
  | cons hhead _ ih => rw [List.findIdx?_cons, List.findIdx?_cons, hhead, ih]

theorem ScaleExactly.drawnPosition_eq (h : ScaleExactly s rules)
    (hs : Denotes s (powerOfTwo k)) (hweights : ∀ rule ∈ rules, IsWeight rule.weight)
    (value : UInt64) :
    drawnPosition (rules.map (timesWeight s)) value = drawnPosition rules value := by
  have htotal := h.scaled_totalWeight hs hweights
  have hunit := Draws.denotes_unit value
  have htests : List.Forall₂ (fun sum sum' =>
      decide (Draws.unit value * totalWeight (rules.map (timesWeight s)) ≤ sum') =
        decide (Draws.unit value * totalWeight rules ≤ sum))
      (runningSums 0.0 rules) (runningSums 0.0 (rules.map (timesWeight s))) := by
    refine (h.forall₂_runningSums hs hweights).imp ?_
    intro sum sum' hsum
    rw [decide_eq_decide]
    exact htotal.mul_le_iff hunit (by positivity) hsum hs (h.draws value) (h.draw_pos htotal value)
  unfold drawnPosition
  dsimp only
  rw [findIdx?_eq_of_forall₂ htests]

/-! ## The same choices -/

/-- Changed rules are chosen alike if every value draws the same position. -/
theorem choose_map (f : Rule → Rule) (rules : List Rule)
    (hposition : ∀ value, drawnPosition (rules.map f) value = drawnPosition rules value)
    (draws : Draws) :
    choose (rules.map f) draws =
      ((choose rules draws).1.map (Declared.mapRule f), (choose rules draws).2) := by
  unfold choose
  rw [List.isEmpty_map]
  split
  · rfl
  · dsimp only
    rw [hposition, List.getElem?_map, Option.map_map, Option.map_map]
    rfl

end Rule

namespace Generator

variable {f : Rule → Rule} {rules : List Rule}

/-- Symbols grow into the same trees, with the same draws, if the changed rules keep their sides
and every value draws the same position. -/
theorem grow_map (hf : Rule.KeepsSides f)
    (hposition : ∀ symbol value,
      Rule.drawnPosition (((Grammar.ofRules rules).rulesFor symbol).map f) value =
        Rule.drawnPosition ((Grammar.ofRules rules).rulesFor symbol) value)
    (height : Nat) (symbol : String) (draws : Draws) :
    grow (.ofRules (rules.map f)) height symbol draws =
      grow (.ofRules rules) height symbol draws := by
  induction height generalizing symbol draws with
  | zero => rw [grow, grow, Grammar.isTerminal_map hf]
  | succ height ih =>
    have hbelow : grow (.ofRules (rules.map f)) height = grow (.ofRules rules) height := by
      funext symbol draws
      exact ih symbol draws
    rw [grow, grow, Grammar.isTerminal_map hf, Grammar.rulesFor_map hf,
      Rule.choose_map f _ (hposition symbol), hbelow]
    rcases Rule.choose ((Grammar.ofRules rules).rulesFor symbol) draws with ⟨_ | chosen, after⟩
    · rfl
    · have hrhs : (chosen.mapRule f).rule.rhs = chosen.rule.rhs := hf.rhs_eq _
      dsimp only [Option.map_some]
      rw [hrhs]

theorem collect_congr {gen gen' : Generator} (hstart : gen'.start = gen.start)
    (hexpand : ∀ draws, gen'.expand gen.start 0 draws = gen.expand gen.start 0 draws)
    (attempts count : Nat) (draws : Draws) :
    gen'.collect attempts count draws = gen.collect attempts count draws := by
  induction attempts generalizing count draws with
  | zero => cases count <;> rfl
  | succ attempts ih =>
    cases count with
    | zero => rfl
    | succ count =>
      rw [collect, collect, hstart, hexpand]
      rcases gen.expand gen.start 0 draws with ⟨_ | tree, after⟩
      · exact ih (count + 1) after
      · dsimp only
        rw [ih]

end Generator

namespace Grammar

variable {s : Float} {rules : List Rule} {lhs : String}

theorem map_rulesWith_map {f : Rule → Rule} (hf : Rule.KeepsSides f) {rhs : Rhs}
    {entry entry' : Declared → Entry}
    (h : ∀ d ∈ (ofRules rules).index.rulesWith rhs, entry' (d.mapRule f) = entry d) :
    ((ofRules (rules.map f)).index.rulesWith rhs).map entry' =
      ((ofRules rules).index.rulesWith rhs).map entry := by
  have hfound : (ofRules (rules.map f)).index.rulesWith rhs =
      ((ofRules rules).index.rulesWith rhs).map (Declared.mapRule f) :=
    RuleIndex.rulesWith_map hf rules rhs
  rw [hfound, List.map_map]
  exact List.map_congr_left h

/-- The rules are found in the same order, with the same probabilities. -/
theorem sameOffers_scaled (hs : IsPowerOfTwo s) (hweights : ∀ rule ∈ rules, IsWeight rule.weight)
    (hexact : Rule.ScaleExactly s (rules.filter (·.lhs = lhs))) :
    Chart.SameOffers (ofRules rules) (ofRules (rules.map (Rule.scaled lhs s))) := by
  have hkeeps := Rule.keepsSides_scaled lhs s
  have hlhs : ∀ d : Declared, (d.mapRule (Rule.scaled lhs s)).rule.lhs = d.rule.lhs := fun d =>
    hkeeps.lhs_eq d.rule
  have hprobability : ∀ rhs, ∀ d ∈ (ofRules rules).index.rulesWith rhs,
      (ofRules (rules.map (Rule.scaled lhs s))).probability (d.mapRule (Rule.scaled lhs s)).rule =
        (ofRules rules).probability d.rule := by
    intro rhs d hd
    have hmem := (mem_of_lastRule? (spec_of_mem_rulesWith hd).2.2).1
    rw [rules_ofRules] at hmem
    exact probability_scaled hs hweights hexact hmem
  constructor
  · funext word
    apply map_rulesWith_map hkeeps
    intro d hd
    rw [hlhs, hprobability _ d hd]
  · funext position left right
    apply map_rulesWith_map hkeeps
    intro d hd
    rw [hlhs, hprobability _ d hd]
    rfl

theorem drawnPosition_scaled (hs : IsPowerOfTwo s)
    (hweights : ∀ rule ∈ rules, IsWeight rule.weight)
    (hexact : Rule.ScaleExactly s (rules.filter (·.lhs = lhs))) (symbol : String)
    (value : UInt64) :
    Rule.drawnPosition (((ofRules rules).rulesFor symbol).map (Rule.scaled lhs s)) value =
      Rule.drawnPosition ((ofRules rules).rulesFor symbol) value := by
  obtain ⟨k, hs⟩ := hs
  rw [← rulesFor_map (Rule.keepsSides_scaled lhs s)]
  by_cases hsymbol : symbol = lhs
  · rw [hsymbol, rulesFor_scaled, rulesFor_eq, rules_ofRules]
    exact hexact.drawnPosition_eq hs (fun rule hr => hweights rule (List.mem_filter.1 hr).1) value
  · rw [rulesFor_scaled_of_ne rules s hsymbol]

/-- Weights matter only relative to their left-hand side. If those of one left-hand side are all
multiplied by a power of two, and this is exact on the weights, on their running sums and on what
is drawn from their total, then no probability changes, every token list has the same chart and
the same best trees, and every source of random numbers gives the same trees at the cost of the
same draws. -/
theorem scaled_weights_agree {rules : List Rule} (hweights : ∀ rule ∈ rules, IsWeight rule.weight)
    (lhs : String) {s : Float} (hs : IsPowerOfTwo s)
    (hexact : Rule.ScaleExactly s (rules.filter (·.lhs = lhs))) :
    let g := ofRules rules
    let h := ofRules (rules.map (Rule.scaled lhs s))
    (∀ rule ∈ rules, h.probability (rule.scaled lhs s) = g.probability rule) ∧
    (∀ tokens, Chart.fill h tokens = Chart.fill g tokens ∧
      ∀ root, (Chart.fill h tokens).bestTree h root = (Chart.fill g tokens).bestTree g root) ∧
    ∀ start maxDepth maxAttempts,
      let gen : Generator := ⟨g, start, maxDepth, maxAttempts⟩
      let gen' : Generator := ⟨h, start, maxDepth, maxAttempts⟩
      (∀ symbol depth draws, gen'.expand symbol depth draws = gen.expand symbol depth draws) ∧
        ∀ fuel count draws, gen'.trees fuel count draws = gen.trees fuel count draws ∧
          gen'.generate fuel count draws = gen.generate fuel count draws := by
  intro g h
  have hkeeps := Rule.keepsSides_scaled lhs s
  have hoffers : Chart.SameOffers g h := sameOffers_scaled hs hweights hexact
  have hrhs : ∀ index, (h.rule index).map (·.rhs) = (g.rule index).map (·.rhs) := by
    intro index
    show ((ofRules (rules.map (Rule.scaled lhs s))).rule index).map (·.rhs) = _
    rw [rule_map]
    cases (ofRules rules).rule index with
    | error access => rfl
    | ok rule => exact congrArg Except.ok (hkeeps.rhs_eq rule)
  refine ⟨fun rule hrule => probability_scaled hs hweights hexact hrule, ?_, ?_⟩
  · intro tokens
    refine ⟨hoffers.fill_eq tokens, ?_⟩
    intro root
    rw [hoffers.fill_eq, Chart.bestTree_congr hrhs]
  · intro start maxDepth maxAttempts gen gen'
    have hexpand : ∀ symbol depth draws,
        gen'.expand symbol depth draws = gen.expand symbol depth draws := fun symbol depth draws =>
      Generator.grow_map hkeeps (drawnPosition_scaled hs hweights hexact) _ symbol draws
    refine ⟨hexpand, ?_⟩
    intro fuel count draws
    have htrees : gen'.trees fuel count draws = gen.trees fuel count draws := by
      rw [Generator.trees, Generator.trees,
        @Generator.collect_congr gen gen' rfl fun draws => hexpand start 0 draws]
    exact ⟨htrees, by rw [Generator.generate, Generator.generate, htrees]⟩

end Grammar

/-! ## Whole weights -/

namespace Rule

variable {count : Rule → ℕ}

/-- The sum of the weights in front of a position, where they are whole. -/
def leadingSum (count : Rule → ℕ) (rules : List Rule) (i : ℕ) : ℕ :=
  ((rules.map count).take i).sum

theorem leadingSum_le (count : Rule → ℕ) (rules : List Rule) (i : ℕ) :
    leadingSum count rules i ≤ (rules.map count).sum := by
  rw [leadingSum]
  exact (List.take_sublist i _).sum_le_sum fun _ _ => Nat.zero_le _

theorem denotes_runningSums {rules : List Rule} {sum : Float} {n : ℕ}
    (hcount : ∀ rule ∈ rules, Denotes rule.weight (count rule : ℝ)) (hsum : Denotes sum (n : ℝ))
    (hle : n + (rules.map count).sum ≤ 2 ^ 53) {i : ℕ} :
    ∀ total ∈ (runningSums sum rules)[i]?,
      Denotes total ((n + leadingSum count rules (i + 1) : ℕ) : ℝ) := by
  induction rules generalizing sum n i with
  | nil => exact fun _ h => nomatch h
  | cons rule rules ih =>
    rw [List.forall_mem_cons] at hcount
    rw [List.map_cons, List.sum_cons, ← Nat.add_assoc] at hle
    have hnext : Denotes (sum + rule.weight) ((n + count rule : ℕ) : ℝ) := by
      have hadd := hsum.add hcount.1 (EReal.coe_nonneg.2 n.cast_nonneg)
        (EReal.coe_nonneg.2 (count rule).cast_nonneg)
      rwa [← EReal.coe_add, ← Nat.cast_add, Binary64.nearestValue_natCast (by omega)] at hadd
    intro total htotal
    cases i with
    | zero =>
      cases htotal
      simpa [leadingSum] using hnext
    | succ i =>
      have hlater := ih hcount.2 hnext hle total htotal
      rwa [Nat.add_assoc] at hlater

theorem exists_natCast_of_mem_runningSums {rules : List Rule} {sum : Float} {n : ℕ}
    (hcount : ∀ rule ∈ rules, Denotes rule.weight (count rule : ℝ)) (hsum : Denotes sum (n : ℝ))
    (hlt : n + (rules.map count).sum < 2 ^ 53) :
    ∀ total ∈ runningSums sum rules, ∃ m : ℕ, m < 2 ^ 53 ∧ Denotes total (m : ℝ) := by
  intro total htotal
  obtain ⟨i, hi⟩ := List.mem_iff_getElem?.1 htotal
  refine ⟨_, ?_, denotes_runningSums hcount hsum hlt.le total hi⟩
  exact (Nat.add_le_add_left (leadingSum_le count rules (i + 1)) n).trans_lt hlt

theorem exists_natCast_totalWeight {rules : List Rule}
    (hsums : ∀ total ∈ runningSums 0.0 rules, ∃ m : ℕ, m < 2 ^ 53 ∧ Denotes total (m : ℝ)) :
    ∃ m : ℕ, m < 2 ^ 53 ∧ Denotes (totalWeight rules) (m : ℝ) := by
  rw [totalWeight]
  cases hlast : (runningSums 0.0 rules).getLast? with
  | none => exact ⟨0, by norm_num, by rw [Nat.cast_zero]; exact Binary64.denotes_zero⟩
  | some total => exact hsums total (List.mem_of_getLast? hlast)

theorem scalesExactly_unit_mul {k : ℤ} {s total : Float} {m : ℕ} (hs : Denotes s (powerOfTwo k))
    (hlow : -969 ≤ k) (hhigh : k ≤ 970) (hm : m < 2 ^ 53) (htotal : Denotes total (m : ℝ))
    (value : UInt64) : ScalesExactly s (Draws.unit value * total) := by
  have hunit := Draws.denotes_unit value
  have hj : value.toNat / 2 ^ 11 < 2 ^ 53 := Draws.unitSteps_lt value
  generalize value.toNat / 2 ^ 11 = j at hunit hj
  have hpart := hunit.mul htotal (by positivity) m.cast_nonneg
  rcases (j * m).eq_zero_or_pos with hzero | hpos
  · have hnone : (j : ℝ) * 2 ^ (-53 : ℤ) * m = 0 := by
      rw [mul_right_comm, ← Nat.cast_mul, hzero, Nat.cast_zero, zero_mul]
    rw [hnone, EReal.coe_zero, Binary64.nearestValue_zero] at hpart
    exact Binary64.scalesExactly_of_le hs hlow hhigh hpart (.inl rfl)
  · have hle : (2 : ℝ) ^ (-53 : ℤ) ≤ j * 2 ^ (-53 : ℤ) * m := by
      rw [mul_right_comm, ← Nat.cast_mul]
      exact le_mul_of_one_le_left (Binary64.two_zpow_pos _).le (by exact_mod_cast hpos)
    have hge : (j : ℝ) * 2 ^ (-53 : ℤ) * m ≤ 2 ^ (53 : ℤ) := by
      calc (j : ℝ) * 2 ^ (-53 : ℤ) * m ≤ 1 * 2 ^ (53 : ℤ) := by
            refine mul_le_mul ?_ (by exact_mod_cast hm.le) m.cast_nonneg zero_le_one
            rw [← le_div_iff₀ (Binary64.two_zpow_pos _), one_div, ← zpow_neg, neg_neg]
            exact_mod_cast hj.le
        _ = 2 ^ (53 : ℤ) := one_mul _
    have hround := Binary64.rounded_mono (Binary64.two_zpow_pos _).le hle
    have hround' := Binary64.rounded_mono ((Binary64.two_zpow_pos _).le.trans hle) hge
    rw [Binary64.rounded_two_zpow (by norm_num)] at hround hround'
    have hlarge : (2 : ℝ) ^ (53 : ℤ) < 2 ^ 1024 := by
      rw [← zpow_natCast, zpow_lt_zpow_iff_right₀ one_lt_two]
      norm_num
    rw [Binary64.nearestValue_eq_coe_iff.2 ⟨rfl, hround'.trans_lt hlarge⟩] at hpart
    exact Binary64.scalesExactly_of_le hs hlow hhigh hpart (.inr ⟨hround, hround'⟩)

/-- Whole weights with a sum of at most 53 binary digits scale exactly. -/
theorem scaleExactly_of_whole {k : ℤ} {s : Float} (hs : Denotes s (powerOfTwo k)) (hlow : -969 ≤ k)
    (hhigh : k ≤ 970) {rules : List Rule}
    (hcount : ∀ rule ∈ rules, Denotes rule.weight (count rule : ℝ))
    (hlt : (rules.map count).sum < 2 ^ 53) : ScaleExactly s rules := by
  have hwhole : ∀ {x : Float} {m : ℕ}, m < 2 ^ 53 → Denotes x (m : ℝ) → ScalesExactly s x := by
    intro x m hm hx
    refine Binary64.scalesExactly_of_le hs hlow hhigh hx ?_
    rcases m.eq_zero_or_pos with rfl | hpos
    · exact .inl Nat.cast_zero
    · refine .inr ⟨?_, by exact_mod_cast hm.le⟩
      calc (2 : ℝ) ^ (-53 : ℤ) ≤ 1 := zpow_le_one_of_nonpos₀ one_le_two (by norm_num)
        _ ≤ m := by exact_mod_cast hpos
  have hzero : Denotes 0.0 ((0 : ℕ) : ℝ) := by
    rw [Nat.cast_zero]
    exact Binary64.denotes_zero
  have hsums := exists_natCast_of_mem_runningSums hcount hzero (by rwa [Nat.zero_add])
  refine ⟨?_, ?_, ?_⟩
  · intro rule hrule
    have hle : count rule ≤ (rules.map count).sum := List.le_sum_of_mem (List.mem_map_of_mem hrule)
    exact hwhole (hle.trans_lt hlt) (hcount rule hrule)
  · intro total htotal
    obtain ⟨m, hm, hdenotes⟩ := hsums total htotal
    exact hwhole hm hdenotes
  · intro value
    obtain ⟨m, hm, htotal⟩ := exists_natCast_totalWeight hsums
    exact scalesExactly_unit_mul hs hlow hhigh hm htotal value

end Rule

namespace Grammar

/-- Two rules for one symbol, one of them three times as likely as the other, and a rule for another
symbol. -/
def oneToThree : List Rule :=
  [⟨"S", .binary "S" "S", 1.0⟩, ⟨"S", .unary "x", 3.0⟩, ⟨"T", .unary "x", 2.0⟩]

/-- Four to twelve is one to three. -/
theorem scaled_weights_agree_oneToThree :
    (∀ rule ∈ oneToThree, IsWeight rule.weight) ∧ IsPowerOfTwo 4.0 ∧
    Rule.ScaleExactly 4.0 (oneToThree.filter (·.lhs = "S")) ∧
    (oneToThree.map (Rule.scaled "S" 4.0)).map (·.weight) = [4.0, 12.0, 2.0] ∧
    Chart.fill (ofRules (oneToThree.map (Rule.scaled "S" 4.0))) ["x", "x", "x"] =
      Chart.fill (ofRules oneToThree) ["x", "x", "x"] ∧
    (Generator.mk (ofRules (oneToThree.map (Rule.scaled "S" 4.0))) "S" 5 none).trees 10 2
        (.ofList [0, 4096, 0xFFFFFFFFFFFFFFFF]) =
      (Generator.mk (ofRules oneToThree) "S" 5 none).trees 10 2
        (.ofList [0, 4096, 0xFFFFFFFFFFFFFFFF]) := by
  have hweights : ∀ rule ∈ oneToThree, IsWeight rule.weight := by
    unfold IsWeight
    decide +kernel
  have hfour : Denotes 4.0 (powerOfTwo 2) := by
    have hdenotes := @Binary64.denotes_toFloat_toUInt64 4 (by norm_num)
    have hvalue : powerOfTwo 2 = ((4 : ℕ) : ℝ) := by
      show (2 : ℝ) ^ (2 : ℤ) = _
      norm_num
    rwa [show Nat.toUInt64 4 = 4 from rfl, show (4 : UInt64).toFloat = 4.0 by decide +kernel,
      ← hvalue] at hdenotes
  have hexact : Rule.ScaleExactly 4.0 (oneToThree.filter (·.lhs = "S")) := by
    have hwhole : ∀ rule ∈ oneToThree.filter (·.lhs = "S"),
        rule.weight.toUInt64.toNat < 2 ^ 53 ∧
          rule.weight.toUInt64.toNat.toUInt64.toFloat = rule.weight := by
      decide +kernel
    refine @Rule.scaleExactly_of_whole (·.weight.toUInt64.toNat) _ _ hfour (by norm_num)
      (by norm_num) _ ?_ (by decide +kernel)
    intro rule hrule
    obtain ⟨hlt, heq⟩ := hwhole rule hrule
    have hdenotes := Binary64.denotes_toFloat_toUInt64 hlt
    rwa [heq] at hdenotes
  obtain ⟨-, hparse, hgenerate⟩ := scaled_weights_agree hweights "S" ⟨2, hfour⟩ hexact
  exact ⟨hweights, ⟨2, hfour⟩, hexact, by decide +kernel, (hparse ["x", "x", "x"]).1,
    ((hgenerate "S" 5 none).2 10 2 _).1⟩

end Grammar

end PhraseStructure
