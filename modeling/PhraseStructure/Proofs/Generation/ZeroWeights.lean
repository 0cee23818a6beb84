import PhraseStructure.Proofs.Generation.Intervals

/-!
# Rules of weight zero

A rule of weight zero does not move the running sum, so no positive part of the total reaches its
running sum first. But a part can be zero, where the unit is or where the product is rounded to
zero, and then the first running sum reaches it, whatever the first rule weighs; and where the total
is infinite the unit zero has no part at all, and the first rule stands in
(`Rule.weight_pos_choose_iff`). So a rule of weight zero is chosen now and then if it is the first
of its left-hand side.
-/

namespace PhraseStructure

open Binary64 (Denotes IsWeight)

namespace Rule

variable {rules : List Rule} {value : UInt64} {i : ℕ}

/-! ## Steps between running sums -/

theorem exists_of_getElem?_runningSums_succ {sum total : Float}
    (h : (runningSums sum rules)[i + 1]? = some total) :
    ∃ before rule, (runningSums sum rules)[i]? = some before ∧ rules[i + 1]? = some rule ∧
      total = before + rule.weight := by
  induction rules generalizing sum i with
  | nil => cases h
  | cons rule rules ih =>
    cases i with
    | zero =>
      cases rules with
      | nil => cases h
      | cons next rules =>
        cases h
        exact ⟨_, next, rfl, rfl, rfl⟩
    | succ i => exact ih h

theorem add_le_of_denotes_zero {x y : Float} (hx : 0.0 ≤ x) (hy : Denotes y 0) : x + y ≤ x := by
  obtain ⟨v, hx, hv⟩ := Binary64.zero_le_iff.1 hx
  have hsum := hx.add hy hv le_rfl
  rw [add_zero, hx.nearestValue_eq hv] at hsum
  exact (hsum.le_iff hx).2 le_rfl

theorem denotes_zero_of_not_pos {x : Float} (hx : 0.0 ≤ x) (h : ¬ 0.0 < x) : Denotes x 0 := by
  obtain ⟨v, hx, hv⟩ := Binary64.zero_le_iff.1 hx
  rw [hx.zero_lt_iff, not_lt] at h
  exact le_antisymm h hv ▸ hx

/-! ## What a part draws -/

/-- The rule whose running sum is the first to reach a positive number has a positive weight. -/
theorem ReachesAt.weight_pos {part : Float} (h : ReachesAt rules part i) (hpart : 0.0 < part)
    (hweights : ∀ rule ∈ rules, 0.0 ≤ rule.weight) {rule : Rule} (hrule : rules[i]? = some rule) :
    0.0 < rule.weight := by
  by_contra hzero
  have hweight := denotes_zero_of_not_pos (hweights rule (List.mem_of_getElem? hrule)) hzero
  obtain ⟨⟨sum, hsum, hreach⟩, hbefore⟩ := h
  cases i with
  | zero =>
    obtain ⟨rest, rfl⟩ := List.head?_eq_some_iff.1 (List.head?_eq_getElem? ▸ hrule)
    cases hsum
    have hle := Binary64.le_trans hreach (add_le_of_denotes_zero zero_le_zero hweight)
    exact Binary64.not_lt_of_le hle hpart
  | succ i =>
    obtain ⟨before, rule', hbeforeSum, hrule', rfl⟩ := exists_of_getElem?_runningSums_succ hsum
    obtain rfl := Option.some_inj.1 (hrule.symm.trans hrule')
    have hnonneg := zero_le_of_mem_runningSums zero_le_zero hweights before
      (List.mem_of_getElem? hbeforeSum)
    exact hbefore i (Nat.lt_succ_self i) before hbeforeSum
      (Binary64.le_trans hreach (add_le_of_denotes_zero hnonneg hweight))

/-- A part that is not positive draws the first position: it is zero, or it is no number and
nothing reaches it. -/
theorem drawnPosition_of_not_pos (hne : rules ≠ []) (hweights : ∀ rule ∈ rules, 0.0 ≤ rule.weight)
    (h : ¬ 0.0 < drawnPart rules value) : drawnPosition rules value = 0 := by
  cases hnumber : (drawnPart rules value).isNaN with
  | true =>
    have hnone : (runningSums 0.0 rules).findIdx? (fun sum =>
        decide (drawnPart rules value ≤ sum)) = none := by
      rw [List.findIdx?_eq_none_iff]
      intro sum _
      refine decide_eq_false ?_
      intro hreach
      rw [(Binary64.isNaN_eq_false_of_le hreach).1] at hnumber
      cases hnumber
    rw [drawnPosition_eq, hnone]
    rfl
  | false =>
    have hzero := Binary64.le_of_not_lt hnumber rfl h
    obtain ⟨rule, rest, rfl⟩ := List.exists_cons_of_ne_nil hne
    have hfirst := (Binary64.le_add zero_le_zero (hweights rule List.mem_cons_self)).1
    rw [drawnPosition_eq_iff hne (drawnPart_le_totalWeight hweights hnumber)]
    refine ⟨⟨_, rfl, Binary64.le_trans hzero hfirst⟩, ?_⟩
    intro j hj
    exact absurd hj (Nat.not_lt_zero j)

/-- The unit zero has no positive part: it is zero, or no number where the total is infinite. -/
theorem not_zero_lt_drawnPart (hweights : ∀ rule ∈ rules, 0.0 ≤ rule.weight)
    (hunit : value.toNat / 2 ^ 11 = 0) : ¬ 0.0 < drawnPart rules value := by
  have hzero := Draws.denotes_unit value
  rw [hunit, Nat.cast_zero, zero_mul, EReal.coe_zero] at hzero
  obtain ⟨v, ht, hnonneg⟩ := Binary64.zero_le_iff.1 (zero_le_totalWeight hweights)
  intro hpos
  induction v with
  | bot => exact absurd hnonneg (not_le.2 EReal.bot_lt_zero)
  | top =>
    have hnumber := (Binary64.isNaN_eq_false_of_lt hpos).2
    rw [drawnPart, Binary64.isNaN_mul_top hzero ht] at hnumber
    cases hnumber
  | coe t =>
    have hpart := denotes_drawnPart ht (EReal.coe_nonneg.1 hnonneg) value
    rw [hunit, Nat.cast_zero, zero_mul, zero_mul] at hpart
    exact Binary64.not_pos_nearestValue_zero (hpart.zero_lt_iff.1 hpos)

/-- All other units have one, also if the total is infinite, unless it is far too small. -/
theorem zero_lt_drawnPart (hweights : ∀ rule ∈ rules, 0.0 ≤ rule.weight)
    (hlarge : ((2 : ℝ) ^ (-1021 : ℤ) : ℝ) ≤ Binary64.value (totalWeight rules))
    (hunit : value.toNat / 2 ^ 11 ≠ 0) : 0.0 < drawnPart rules value := by
  obtain ⟨v, ht, hnonneg⟩ := Binary64.zero_le_iff.1 (zero_le_totalWeight hweights)
  rw [ht.2] at hlarge
  induction v with
  | bot => exact absurd hnonneg (not_le.2 EReal.bot_lt_zero)
  | top =>
    have hpos : (0 : ℝ) < (value.toNat / 2 ^ 11 : ℕ) * 2 ^ (-53 : ℤ) :=
      mul_pos (Nat.cast_pos.2 (Nat.pos_of_ne_zero hunit)) (Binary64.two_zpow_pos _)
    exact ((Draws.denotes_unit value).mul_top ht hpos).zero_lt_iff.2 EReal.zero_lt_top
  | coe t => exact Draws.unit_mul_pos ht (EReal.coe_le_coe_iff.1 hlarge) hunit

/-- Where weights are finite and not negative, a rule of weight zero is chosen only as the first
rule, and only if the part of the total that is drawn is not positive. Unless the total is far too
small, this happens for the unit zero alone. -/
theorem weight_pos_choose_iff (hne : rules ≠ []) (hweights : ∀ rule ∈ rules, IsWeight rule.weight)
    (draws : Draws) :
    ∃ chosen, choose rules draws = (some chosen, draws.next.2) ∧ chosen.rule ∈ rules ∧
      (0.0 < chosen.rule.weight ↔ (∃ first ∈ rules.head?, 0.0 < first.weight) ∨
        0.0 < Draws.unit draws.next.1 * totalWeight rules) ∧
      (((2 : ℝ) ^ (-1021 : ℤ) : ℝ) ≤ Binary64.value (totalWeight rules) →
        (0.0 < Draws.unit draws.next.1 * totalWeight rules ↔ 2048 ≤ draws.next.1)) := by
  have hnonneg : ∀ rule ∈ rules, 0.0 ≤ rule.weight := fun rule hrule =>
    (hweights rule hrule).zero_le
  obtain ⟨rule, hrule⟩ : ∃ rule, rules[drawnPosition rules draws.next.1]? = some rule :=
    ⟨_, List.getElem?_eq_getElem (drawnPosition_lt hne draws.next.1)⟩
  refine ⟨_, choose_of_getElem? hrule, List.mem_of_getElem? hrule, ?_, ?_⟩
  · show _ ↔ _ ∨ 0.0 < drawnPart rules draws.next.1
    by_cases hpart : 0.0 < drawnPart rules draws.next.1
    · have hle := drawnPart_le_totalWeight hnonneg (Binary64.isNaN_eq_false_of_lt hpart).2
      have hreaches := (drawnPosition_eq_iff hne hle).1 rfl
      exact iff_of_true (hreaches.weight_pos hpart hnonneg hrule) (.inr hpart)
    · rw [drawnPosition_of_not_pos hne hnonneg hpart, ← List.head?_eq_getElem?] at hrule
      rw [or_iff_left hpart, hrule]
      simp
  · intro hlarge
    show 0.0 < drawnPart rules draws.next.1 ↔ _
    have hvalue : 2048 ≤ draws.next.1 ↔ draws.next.1.toNat / 2 ^ 11 ≠ 0 := by
      rw [UInt64.le_iff_toNat_le]
      show 2048 ≤ draws.next.1.toNat ↔ _
      omega
    rw [hvalue]
    exact ⟨fun hpos hunit => not_zero_lt_drawnPart hnonneg hunit hpos,
      zero_lt_drawnPart hnonneg hlarge⟩

/-- A rule that should never be chosen in front of one that always should. -/
def zeroToForty : List Rule :=
  [⟨"A", .unary "a", 0.0⟩, ⟨"A", .unary "b", 40.0⟩]

theorem isWeight_zeroToForty : ∀ rule ∈ zeroToForty, IsWeight rule.weight := by
  unfold IsWeight
  decide +kernel

/-- Every unit but zero chooses the second rule. -/
theorem weight_pos_choose_iff_zeroToForty :
    (zeroToForty ≠ [] ∧ ∀ rule ∈ zeroToForty, IsWeight rule.weight) ∧
    ∀ draws : Draws, 2048 ≤ draws.next.1 →
      ∃ chosen ∈ (choose zeroToForty draws).1, 0.0 < chosen.rule.weight := by
  have hne : zeroToForty ≠ [] := by simp [zeroToForty]
  have htotal : (1.0 : Float) ≤ totalWeight zeroToForty := by decide +kernel
  have hlarge : ((2 : ℝ) ^ (-1021 : ℤ) : ℝ) ≤ Binary64.value (totalWeight zeroToForty) := by
    have hvalue := Binary64.denotes_value (Binary64.isNaN_eq_false_of_le htotal).2
    refine le_trans ?_ ((Binary64.denotes_one.le_iff hvalue).1 htotal)
    exact EReal.coe_le_coe_iff.2 (zpow_le_one_of_nonpos₀ one_le_two (by norm_num))
  refine ⟨⟨hne, isWeight_zeroToForty⟩, ?_⟩
  intro draws hdraws
  obtain ⟨chosen, hchosen, -, hpos, hunit⟩ := weight_pos_choose_iff hne isWeight_zeroToForty draws
  exact ⟨chosen, by rw [hchosen]; rfl, hpos.2 (.inr ((hunit hlarge).2 hdraws))⟩

/-- The unit zero chooses the first one, which weighs nothing. -/
theorem not_weight_pos_choose_zeroToForty :
    (∀ rule ∈ zeroToForty, IsWeight rule.weight) ∧ (∃ rule ∈ zeroToForty, 0.0 < rule.weight) ∧
      ∃ chosen ∈ (choose zeroToForty (.ofList [0])).1, ¬ 0.0 < chosen.rule.weight := by
  have hposition : drawnPosition zeroToForty (Draws.ofList [0]).next.1 = 0 := by decide +kernel
  have hfirst : zeroToForty[drawnPosition zeroToForty (Draws.ofList [0]).next.1]? =
      some ⟨"A", .unary "a", 0.0⟩ := by
    rw [hposition]
    rfl
  have hchosen := congrArg Prod.fst (choose_of_getElem? hfirst)
  exact ⟨isWeight_zeroToForty, ⟨_, List.mem_cons_of_mem _ List.mem_cons_self, by decide +kernel⟩,
    ⟨_, hchosen, Binary64.lt_irrefl 0.0⟩⟩

end Rule

end PhraseStructure
