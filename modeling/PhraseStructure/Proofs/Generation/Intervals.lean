import PhraseStructure.Proofs.Generation.RelativeWeights

/-!
# Choices look up intervals

The running sums cut the total into intervals, one for each rule, and a value stands for a part of
the total. As long as this part is a number it is not above the total, so it lies in one of the
intervals (`Rule.drawnPosition_eq_iff`): the search for it ends before the list does. A larger part
lies in the same interval or in a later one, so if no running sum is infinite the chosen position
grows with the value (`Rule.choose_first_reaching`).
-/

namespace PhraseStructure

open Binary64 (Denotes nearestValue)

theorem Draws.unitSteps_le {value value' : UInt64} (h : value >>> 11 ≤ value' >>> 11) :
    value.toNat / 2 ^ 11 ≤ value'.toNat / 2 ^ 11 := by
  rwa [UInt64.le_iff_toNat_le, toNat_shiftRight, toNat_shiftRight] at h

namespace Rule

variable {rules : List Rule} {value value' : UInt64} {i : ℕ}

/-! ## Running sums -/

theorem zero_le_of_mem_runningSums {sum : Float} (hsum : 0.0 ≤ sum)
    (hweights : ∀ rule ∈ rules, 0.0 ≤ rule.weight) :
    ∀ total ∈ runningSums sum rules, 0.0 ≤ total := by
  induction rules generalizing sum with
  | nil => exact fun _ h => absurd h List.not_mem_nil
  | cons rule rules ih =>
    rw [List.forall_mem_cons] at hweights
    have hnext := (Binary64.le_add hsum hweights.1).1
    rw [runningSums, List.forall_mem_cons]
    exact ⟨hnext, ih hnext hweights.2⟩

theorem zero_le_zero : (0.0 : Float) ≤ 0.0 :=
  Binary64.le_refl rfl

theorem getElem?_runningSums_last (hne : rules ≠ []) :
    (runningSums 0.0 rules)[rules.length - 1]? = some (totalWeight rules) := by
  have hlength := length_runningSums 0.0 rules
  have hsums : runningSums 0.0 rules ≠ [] := by
    rw [← List.length_pos_iff, hlength]
    exact List.length_pos_iff.2 hne
  rw [totalWeight, ← hlength, ← List.getLast?_eq_getElem?,
    List.getLast?_eq_getLast_of_ne_nil hsums]
  rfl

theorem totalWeight_mem (hne : rules ≠ []) : totalWeight rules ∈ runningSums 0.0 rules :=
  List.mem_of_getElem? (getElem?_runningSums_last hne)

theorem zero_le_totalWeight (hweights : ∀ rule ∈ rules, 0.0 ≤ rule.weight) :
    0.0 ≤ totalWeight rules := by
  by_cases hne : rules = []
  · rw [hne]
    exact zero_le_zero
  · exact zero_le_of_mem_runningSums zero_le_zero hweights _ (totalWeight_mem hne)

/-! ## Parts of the total -/

/-- The part of the total that a value stands for. -/
def drawnPart (rules : List Rule) (value : UInt64) : Float :=
  Draws.unit value * totalWeight rules

theorem denotes_drawnPart {t : ℝ} (ht : Denotes (totalWeight rules) t) (hnonneg : 0 ≤ t)
    (value : UInt64) : Denotes (drawnPart rules value)
      (nearestValue ((value.toNat / 2 ^ 11 : ℕ) * 2 ^ (-53 : ℤ) * t : ℝ)) :=
  (Draws.denotes_unit value).mul ht (by positivity) hnonneg

theorem drawnPart_le_totalWeight (hweights : ∀ rule ∈ rules, 0.0 ≤ rule.weight)
    (hnumber : (drawnPart rules value).isNaN = false) :
    drawnPart rules value ≤ totalWeight rules := by
  obtain ⟨v, ht, hnonneg⟩ := Binary64.zero_le_iff.1 (zero_le_totalWeight hweights)
  induction v with
  | bot => exact absurd hnonneg (not_le.2 EReal.bot_lt_zero)
  | top => exact ((Binary64.denotes_value hnumber).le_iff ht).2 le_top
  | coe t =>
    have htnonneg := EReal.coe_nonneg.1 hnonneg
    rw [(denotes_drawnPart ht htnonneg value).le_iff ht, ← ht.nearestValue_eq hnonneg]
    refine Binary64.nearestValue_mono (EReal.coe_nonneg.2 (by positivity)) ?_
    rw [EReal.coe_le_coe_iff]
    refine mul_le_of_le_one_left htnonneg ?_
    rw [← le_div_iff₀ (Binary64.two_zpow_pos _), one_div, ← zpow_neg, neg_neg]
    exact_mod_cast (Draws.unitSteps_lt value).le

theorem drawnPart_mono {t : ℝ} (ht : Denotes (totalWeight rules) t) (hnonneg : 0 ≤ t)
    (h : value >>> 11 ≤ value' >>> 11) : drawnPart rules value ≤ drawnPart rules value' := by
  have hsteps : ((value.toNat / 2 ^ 11 : ℕ) : ℝ) ≤ (value'.toNat / 2 ^ 11 : ℕ) := by
    exact_mod_cast Draws.unitSteps_le h
  rw [(denotes_drawnPart ht hnonneg value).le_iff (denotes_drawnPart ht hnonneg value')]
  refine Binary64.nearestValue_mono (EReal.coe_nonneg.2 (by positivity)) ?_
  rw [EReal.coe_le_coe_iff]
  gcongr

/-! ## The interval of a part -/

/-- The first running sum that reaches a number stands at the position. -/
def ReachesAt (rules : List Rule) (part : Float) (i : ℕ) : Prop :=
  (∃ sum ∈ (runningSums 0.0 rules)[i]?, part ≤ sum) ∧
    ∀ j < i, ∀ sum ∈ (runningSums 0.0 rules)[j]?, ¬ part ≤ sum

theorem findIdx?_eq_some_iff_reachesAt {part : Float} :
    (runningSums 0.0 rules).findIdx? (fun sum => decide (part ≤ sum)) = some i ↔
      ReachesAt rules part i := by
  rw [List.findIdx?_eq_some_iff_getElem, ReachesAt]
  constructor
  · rintro ⟨hlt, hreach, hbefore⟩
    refine ⟨⟨_, List.getElem?_eq_getElem hlt, of_decide_eq_true hreach⟩, ?_⟩
    intro j hj sum hsum
    obtain ⟨_, rfl⟩ := List.getElem?_eq_some_iff.1 hsum
    simpa using hbefore j hj
  · rintro ⟨⟨sum, hsum, hreach⟩, hbefore⟩
    obtain ⟨hlt, rfl⟩ := List.getElem?_eq_some_iff.1 hsum
    refine ⟨hlt, decide_eq_true hreach, ?_⟩
    intro j hj
    simpa using hbefore j hj _ (List.getElem?_eq_getElem (hj.trans hlt))

theorem drawnPosition_eq (rules : List Rule) (value : UInt64) :
    drawnPosition rules value = ((runningSums 0.0 rules).findIdx? fun sum =>
      decide (drawnPart rules value ≤ sum)).getD 0 := rfl

theorem findIdx?_drawnPart (hne : rules ≠ [])
    (hle : drawnPart rules value ≤ totalWeight rules) :
    (runningSums 0.0 rules).findIdx? (fun sum => decide (drawnPart rules value ≤ sum)) =
      some (drawnPosition rules value) := by
  rw [drawnPosition_eq]
  cases hfind : (runningSums 0.0 rules).findIdx? fun sum =>
      decide (drawnPart rules value ≤ sum) with
  | none =>
    have hnone := List.findIdx?_eq_none_iff.1 hfind _ (totalWeight_mem hne)
    exact absurd hle (by simpa using hnone)
  | some i => rfl

/-- A part that is not above the total draws the position whose interval it lies in. -/
theorem drawnPosition_eq_iff (hne : rules ≠ [])
    (hle : drawnPart rules value ≤ totalWeight rules) :
    drawnPosition rules value = i ↔ ReachesAt rules (drawnPart rules value) i := by
  rw [← findIdx?_eq_some_iff_reachesAt, findIdx?_drawnPart hne hle, Option.some_inj]

theorem ReachesAt.mono {part part' : Float} {i' : ℕ} (h : ReachesAt rules part i)
    (h' : ReachesAt rules part' i') (hle : part ≤ part') : i ≤ i' := by
  by_contra hlt
  obtain ⟨⟨sum, hsum, hreach⟩, -⟩ := h'
  exact h.2 i' (not_le.1 hlt) sum hsum (Binary64.le_trans hle hreach)

theorem index_of_mem_choose {draws : Draws} {chosen : Declared}
    (h : chosen ∈ (choose rules draws).1) : chosen.index = drawnPosition rules draws.next.1 := by
  unfold choose at h
  split at h
  · cases h
  · obtain ⟨rule, -, rfl⟩ := Option.map_eq_some_iff.1 h
    rfl

/-- The choice of a value whose part is not above the total. -/
theorem map_index_choose_eq_some_iff (hne : rules ≠ []) {draws : Draws}
    (hle : drawnPart rules draws.next.1 ≤ totalWeight rules) :
    (choose rules draws).1.map (·.index) = some i ↔
      ReachesAt rules (drawnPart rules draws.next.1) i := by
  have hlt := drawnPosition_lt hne draws.next.1
  rw [choose_of_getElem? (List.getElem?_eq_getElem hlt), Option.map_some, Option.some_inj]
  exact drawnPosition_eq_iff hne hle

/-- If no running sum of weights that are not negative is infinite, the search for a value's part
of the total ends at a position: its running sum reaches the part and those before it are below. The
rule there is chosen. Values with larger units draw the same position or a later one. -/
theorem choose_first_reaching (hne : rules ≠ []) (hweights : ∀ rule ∈ rules, 0.0 ≤ rule.weight)
    (hfinite : ∀ sum ∈ runningSums 0.0 rules, sum.isFinite = true) :
    (∀ draws : Draws, ∃ (i : ℕ) (hi : i < rules.length),
      choose rules draws = (some ⟨i, rules[i]⟩, draws.next.2) ∧
      (runningSums 0.0 rules).findIdx?
        (fun sum => decide (Draws.unit draws.next.1 * totalWeight rules ≤ sum)) = some i ∧
      (∃ sum ∈ (runningSums 0.0 rules)[i]?, Draws.unit draws.next.1 * totalWeight rules ≤ sum) ∧
      ∀ j < i, ∀ sum ∈ (runningSums 0.0 rules)[j]?,
        sum < Draws.unit draws.next.1 * totalWeight rules) ∧
    ∀ draws draws' : Draws, draws.next.1 >>> 11 ≤ draws'.next.1 >>> 11 →
      ∀ chosen ∈ (choose rules draws).1, ∀ chosen' ∈ (choose rules draws').1,
        chosen.index ≤ chosen'.index := by
  obtain ⟨t, ht⟩ := Binary64.exists_denotes_of_isFinite (hfinite _ (totalWeight_mem hne))
  have hnonneg : 0 ≤ t := EReal.coe_nonneg.1
    ((Binary64.denotes_zero.le_iff ht).1 (zero_le_totalWeight hweights))
  have hnumber : ∀ value, (drawnPart rules value).isNaN = false := fun value =>
    (denotes_drawnPart ht hnonneg value).1
  have hle : ∀ value, drawnPart rules value ≤ totalWeight rules := fun value =>
    drawnPart_le_totalWeight hweights (hnumber value)
  have hreaches : ∀ value, ReachesAt rules (drawnPart rules value) (drawnPosition rules value) :=
    fun value => (drawnPosition_eq_iff hne (hle value)).1 rfl
  constructor
  · intro draws
    have hlt := drawnPosition_lt hne draws.next.1
    obtain ⟨hreach, hbefore⟩ := hreaches draws.next.1
    refine ⟨drawnPosition rules draws.next.1, hlt,
      choose_of_getElem? (List.getElem?_eq_getElem hlt), findIdx?_drawnPart hne (hle _), hreach, ?_⟩
    intro j hj sum hsum
    have hsumNonneg := zero_le_of_mem_runningSums zero_le_zero hweights sum
      (List.mem_of_getElem? hsum)
    exact Binary64.lt_of_not_le (Binary64.isNaN_eq_false_of_le hsumNonneg).2 (hnumber _)
      (hbefore j hj sum hsum)
  · intro draws draws' hunits chosen hchosen chosen' hchosen'
    rw [index_of_mem_choose hchosen, index_of_mem_choose hchosen']
    exact (hreaches _).mono (hreaches _) (drawnPart_mono ht hnonneg hunits)

/-- Weights of zero with either sign, weights whose sum is rounded, and one that is lost in it. -/
def roundedWeights : List Rule :=
  [⟨"A", .unary "a", 0.0⟩, ⟨"A", .unary "b", -0.0⟩, ⟨"A", .unary "c", 0.1⟩, ⟨"A", .unary "d", 0.2⟩,
    ⟨"A", .unary "e", 5e-324⟩]

/-- The greatest value draws the last weight that counts, and the rule behind it is not reached. -/
theorem choose_first_reaching_roundedWeights :
    (roundedWeights ≠ [] ∧ (∀ rule ∈ roundedWeights, 0.0 ≤ rule.weight) ∧
      ∀ sum ∈ runningSums 0.0 roundedWeights, sum.isFinite = true) ∧
    (choose roundedWeights (.ofList [0xFFFFFFFFFFFFFFFF])).1.map (·.index) = some 3 ∧
    (∃ i, (runningSums 0.0 roundedWeights).findIdx? (fun sum => decide
      (Draws.unit 0xFFFFFFFFFFFFFFFF * totalWeight roundedWeights ≤ sum)) = some i) ∧
    ∀ chosen ∈ (choose roundedWeights (.ofList [0xFFFFFFFFFFFFFFFF])).1, ∀ draws : Draws,
      ∀ chosen' ∈ (choose roundedWeights draws).1, chosen'.index ≤ chosen.index := by
  have hne : roundedWeights ≠ [] := by simp [roundedWeights]
  have hweights : ∀ rule ∈ roundedWeights, 0.0 ≤ rule.weight := by decide +kernel
  have hfinite : ∀ sum ∈ runningSums 0.0 roundedWeights, sum.isFinite = true := by decide +kernel
  obtain ⟨hfound, hmono⟩ := choose_first_reaching hne hweights hfinite
  obtain ⟨i, -, -, hi, -⟩ := hfound (.ofList [0xFFFFFFFFFFFFFFFF])
  refine ⟨⟨hne, hweights, hfinite⟩, by decide +kernel, ⟨i, hi⟩, ?_⟩
  intro chosen hchosen draws chosen' hchosen'
  refine hmono draws _ ?_ chosen' hchosen' chosen hchosen
  rw [UInt64.le_iff_toNat_le, Draws.toNat_shiftRight]
  exact Nat.le_of_lt_succ (Draws.unitSteps_lt draws.next.1)

end Rule

end PhraseStructure
