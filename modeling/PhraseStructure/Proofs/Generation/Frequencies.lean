import PhraseStructure.Proofs.Generation.Intervals

/-!
# Frequencies of choices

If the weights are whole and their sum is a power of two with at most 53 binary digits behind it,
the running sums and the parts of the total are exact. Then a position is drawn by those units that
lie above the sum in front of it and not above its own one, so in proportion to its weight but for
the two ends: the least unit, zero, goes to the first position, and the unit that would be the total
itself is not among the units, so the first position that reaches the total has one less
(`Rule.card_choose_eq`).
-/

namespace PhraseStructure

open Binary64 (Denotes)

/-- A bound on the values behind all earlier places of a sequence that never falls. -/
theorem forall_succ_lt_iff {f : ℕ → ℕ} (hf : Monotone f) {i x : ℕ} :
    (∀ j < i, f (j + 1) < x) ↔ i = 0 ∨ f i < x := by
  cases i with
  | zero => simp
  | succ i =>
    constructor
    · intro h
      exact .inr (h i (Nat.lt_succ_self i))
    · rintro (h | h) j hj
      · cases h
      · exact (hf (Nat.succ_le_of_lt hj)).trans_lt h

namespace Rule

variable {rules : List Rule} {count : Rule → ℕ} {m i : ℕ}

/-! ## Sums in front of a position -/

theorem leadingSum_mono (count : Rule → ℕ) (rules : List Rule) :
    Monotone (leadingSum count rules) := by
  intro i j hij
  rw [leadingSum, leadingSum]
  exact (List.take_sublist_take_left hij).sum_le_sum fun _ _ => Nat.zero_le _

theorem leadingSum_succ (count : Rule → ℕ) (hi : i < rules.length) :
    leadingSum count rules (i + 1) = leadingSum count rules i + count rules[i] := by
  rw [leadingSum, leadingSum, List.sum_take_succ _ _ (by simpa using hi), List.getElem_map]

/-! ## Exact draws -/

/-- Whole weights whose sum is a power of two, and one of at most `2 ^ 53`. -/
structure IsDyadic (count : Rule → ℕ) (m : ℕ) (rules : List Rule) : Prop where
  weights : ∀ rule ∈ rules, Denotes rule.weight (count rule : ℝ)
  sum_eq : (rules.map count).sum = 2 ^ m
  le : m ≤ 53

namespace IsDyadic

variable (h : IsDyadic count m rules)

include h

theorem ne_nil : rules ≠ [] := by
  rintro rfl
  exact (Nat.two_pow_pos m).ne h.sum_eq

theorem zero_le : ∀ rule ∈ rules, 0.0 ≤ rule.weight := fun rule hrule =>
  Binary64.zero_le_iff.2 ⟨_, h.weights rule hrule, EReal.coe_nonneg.2 (Nat.cast_nonneg _)⟩

theorem leadingSum_le : leadingSum count rules i ≤ 2 ^ m :=
  h.sum_eq ▸ Rule.leadingSum_le count rules i

theorem denotes_runningSum :
    ∀ sum ∈ (runningSums 0.0 rules)[i]?, Denotes sum (leadingSum count rules (i + 1) : ℝ) := by
  have hzero : Denotes 0.0 ((0 : ℕ) : ℝ) := by
    rw [Nat.cast_zero]
    exact Binary64.denotes_zero
  have hle : 0 + (rules.map count).sum ≤ 2 ^ 53 := by
    rw [Nat.zero_add, h.sum_eq]
    exact Nat.pow_le_pow_right two_pos h.le
  simpa only [Nat.zero_add] using @denotes_runningSums count rules 0.0 0 h.weights hzero hle i

theorem denotes_totalWeight : Denotes (totalWeight rules) ((2 : ℝ) ^ m : ℝ) := by
  have hpos := List.length_pos_iff.2 h.ne_nil
  have htotal := h.denotes_runningSum _ (getElem?_runningSums_last h.ne_nil)
  rw [Nat.sub_add_cancel hpos, leadingSum, List.take_of_length_le (by simp), h.sum_eq] at htotal
  exact_mod_cast htotal

theorem denotes_drawnPart {value : UInt64} {k : ℕ} (hk : k < 2 ^ 53)
    (hunit : Denotes (Draws.unit value) (k * 2 ^ (-53 : ℤ) : ℝ)) :
    Denotes (drawnPart rules value) (k / (2 ^ (53 - m) : ℕ) : ℝ) := by
  have hpart := hunit.mul h.denotes_totalWeight (by positivity) (by positivity)
  have hvalue : (k : ℝ) * 2 ^ (-53 : ℤ) * 2 ^ m = k * 2 ^ ((m : ℤ) - 53) := by
    rw [mul_assoc, ← zpow_natCast, ← zpow_add₀ two_ne_zero, neg_add_eq_sub]
  have hquotient : (k : ℝ) / (2 ^ (53 - m) : ℕ) = k * 2 ^ ((m : ℤ) - 53) := by
    have hle := h.le
    rw [div_eq_mul_inv, Nat.cast_pow, Nat.cast_ofNat, ← zpow_natCast, ← zpow_neg,
      Nat.cast_sub hle, neg_sub]
    rfl
  rw [hvalue, Binary64.nearestValue_natCast_mul_zpow hk (by omega) (by have := h.le; omega),
    ← hquotient] at hpart
  exact hpart

/-- A unit draws a position if it lies above the sum in front of it and not above its own one, both
counted in units. -/
theorem reachesAt_iff {value : UInt64} {k : ℕ} (hk : k < 2 ^ 53)
    (hunit : Denotes (Draws.unit value) (k * 2 ^ (-53 : ℤ) : ℝ)) (hi : i < rules.length) :
    ReachesAt rules (drawnPart rules value) i ↔
      k ≤ leadingSum count rules (i + 1) * 2 ^ (53 - m) ∧
        (i = 0 ∨ leadingSum count rules i * 2 ^ (53 - m) < k) := by
  have hpart := h.denotes_drawnPart hk hunit
  have hle : ∀ j, ∀ sum ∈ (runningSums 0.0 rules)[j]?, drawnPart rules value ≤ sum ↔
      k ≤ leadingSum count rules (j + 1) * 2 ^ (53 - m) := by
    intro j sum hsum
    rw [hpart.le_iff (h.denotes_runningSum sum hsum), EReal.coe_le_coe_iff,
      div_le_iff₀ (Nat.cast_pos.2 (Nat.two_pow_pos _)), ← Nat.cast_mul, Nat.cast_le]
  have hsums : ∀ j < rules.length, ∃ sum, sum ∈ (runningSums 0.0 rules)[j]? := by
    intro j hj
    rw [← length_runningSums 0.0 rules] at hj
    exact ⟨_, List.getElem?_eq_getElem hj⟩
  have hmono : Monotone fun j => leadingSum count rules j * 2 ^ (53 - m) := fun _ _ hij =>
    Nat.mul_le_mul_right _ (leadingSum_mono count rules hij)
  rw [← @forall_succ_lt_iff (fun j => leadingSum count rules j * 2 ^ (53 - m)) hmono, ReachesAt]
  refine and_congr ?_ (forall₂_congr fun j hj => ?_)
  · obtain ⟨sum, hsum⟩ := hsums i hi
    constructor
    · rintro ⟨sum, hsum, hreach⟩
      exact (hle i sum hsum).1 hreach
    · intro hreach
      exact ⟨sum, hsum, (hle i sum hsum).2 hreach⟩
  · obtain ⟨sum, hsum⟩ := hsums j (hj.trans hi)
    constructor
    · intro hbefore
      exact not_le.1 (mt (hle j sum hsum).2 (hbefore sum hsum))
    · intro hlt sum hsum hreach
      exact absurd ((hle j sum hsum).1 hreach) (not_le.2 hlt)

/-- All units, counted as parts of the sum. -/
theorem units_eq : 2 ^ m * 2 ^ (53 - m) = 2 ^ 53 := by
  rw [← Nat.pow_add, Nat.add_sub_cancel' h.le]

theorem filter_choose_eq_Ico {source : ℕ → Draws}
    (hsource : ∀ k < 2 ^ 53, Denotes (Draws.unit (source k).next.1) (k * 2 ^ (-53 : ℤ) : ℝ))
    (hi : i < rules.length) :
    (Finset.range (2 ^ 53)).filter
        (fun k => (choose rules (source k)).1.map (·.index) = some i) =
      Finset.Ico (if i = 0 then 0 else leadingSum count rules i * 2 ^ (53 - m) + 1)
        (min (leadingSum count rules (i + 1) * 2 ^ (53 - m) + 1) (2 ^ 53)) := by
  ext k
  rw [Finset.mem_filter, Finset.mem_range, Finset.mem_Ico, lt_min_iff, Nat.lt_succ_iff]
  have hchoice : k < 2 ^ 53 → ((choose rules (source k)).1.map (·.index) = some i ↔
      k ≤ leadingSum count rules (i + 1) * 2 ^ (53 - m) ∧
        (i = 0 ∨ leadingSum count rules i * 2 ^ (53 - m) < k)) := by
    intro hk
    have hpart := h.denotes_drawnPart hk (hsource k hk)
    rw [map_index_choose_eq_some_iff h.ne_nil (drawnPart_le_totalWeight h.zero_le hpart.1),
      h.reachesAt_iff hk (hsource k hk) hi]
  have hlow : (if i = 0 then 0 else leadingSum count rules i * 2 ^ (53 - m) + 1) ≤ k ↔
      i = 0 ∨ leadingSum count rules i * 2 ^ (53 - m) < k := by
    split_ifs with hfirst
    · exact iff_of_true k.zero_le (.inl hfirst)
    · rw [Nat.succ_le_iff, or_iff_right hfirst]
  rw [hlow]
  constructor
  · rintro ⟨hk, hdrawn⟩
    obtain ⟨hhigh, hlow⟩ := (hchoice hk).1 hdrawn
    exact ⟨hlow, hhigh, hk⟩
  · rintro ⟨hlow, hhigh, hk⟩
    exact ⟨hk, (hchoice hk).2 ⟨hhigh, hlow⟩⟩

/-- Whether a position is the first one that reaches the total, counted in units. -/
theorem reaches_total_iff :
    (leadingSum count rules (i + 1) = 2 ^ m ∧ ∀ j < i, leadingSum count rules (j + 1) ≠ 2 ^ m) ↔
      leadingSum count rules (i + 1) * 2 ^ (53 - m) = 2 ^ 53 ∧
        (i = 0 ∨ leadingSum count rules i * 2 ^ (53 - m) < 2 ^ 53) := by
  have hpos : 0 < 2 ^ (53 - m) := Nat.two_pow_pos _
  have hne : ∀ j, leadingSum count rules (j + 1) ≠ 2 ^ m ↔ leadingSum count rules (j + 1) < 2 ^ m :=
    fun j => h.leadingSum_le.lt_iff_ne.symm
  simp only [hne]
  rw [← h.units_eq, forall_succ_lt_iff (leadingSum_mono count rules),
    Nat.mul_left_inj hpos.ne', Nat.mul_lt_mul_right hpos]

end IsDyadic

/-! ## Counting units -/

/-- Of all units, as many draw a position as its weight asks for. Only the first position has one
more, the unit zero, and the first position that reaches the total has one less, the unit that would
be the total. -/
theorem card_choose_eq (h : IsDyadic count m rules) {source : ℕ → Draws}
    (hsource : ∀ k < 2 ^ 53, Denotes (Draws.unit (source k).next.1) (k * 2 ^ (-53 : ℤ) : ℝ))
    (hi : i < rules.length) :
    (((Finset.range (2 ^ 53)).filter fun k =>
        (choose rules (source k)).1.map (·.index) = some i).card : ℤ) =
      count rules[i] * 2 ^ (53 - m) + (if i = 0 then 1 else 0) -
        if leadingSum count rules (i + 1) = 2 ^ m ∧
          ∀ j < i, leadingSum count rules (j + 1) ≠ 2 ^ m then 1 else 0 := by
  have hwidth : leadingSum count rules (i + 1) * 2 ^ (53 - m) =
      leadingSum count rules i * 2 ^ (53 - m) + count rules[i] * 2 ^ (53 - m) := by
    rw [leadingSum_succ count hi, Nat.add_mul]
  have hbound : leadingSum count rules (i + 1) * 2 ^ (53 - m) ≤ 2 ^ 53 := by
    rw [← h.units_eq]
    exact Nat.mul_le_mul_right _ h.leadingSum_le
  have hstart : i = 0 → leadingSum count rules i * 2 ^ (53 - m) = 0 := by
    rintro rfl
    rw [leadingSum, List.take_zero, List.sum_nil, Nat.zero_mul]
  have hcast : (count rules[i] : ℤ) * 2 ^ (53 - m) = (count rules[i] * 2 ^ (53 - m) : ℕ) := by
    push_cast
    rfl
  rw [h.filter_choose_eq_Ico hsource hi, Nat.card_Ico, if_congr h.reaches_total_iff rfl rfl, hcast]
  generalize leadingSum count rules (i + 1) * 2 ^ (53 - m) = high at *
  generalize leadingSum count rules i * 2 ^ (53 - m) = low at *
  generalize count rules[i] * 2 ^ (53 - m) = width at *
  split_ifs <;> omega

/-- Weights of three to five, with rules of weight zero around them. -/
def threeToFive : List Rule :=
  [⟨"A", .unary "a", 0.0⟩, ⟨"A", .unary "b", 3.0⟩, ⟨"A", .unary "c", 0.0⟩, ⟨"A", .unary "d", 5.0⟩,
    ⟨"A", .unary "e", 0.0⟩]

def unitSource (k : ℕ) : Draws := .ofList [(k * 2 ^ 11).toUInt64]

theorem denotes_unitSource {k : ℕ} (hk : k < 2 ^ 53) :
    Denotes (Draws.unit (unitSource k).next.1) (k * 2 ^ (-53 : ℤ) : ℝ) := by
  have hvalue : (unitSource k).next.1.toNat = k * 2 ^ 11 := by
    show k * 2 ^ 11 % 2 ^ 64 = k * 2 ^ 11
    omega
  have hunit := Draws.denotes_unit (unitSource k).next.1
  rwa [hvalue, Nat.mul_div_cancel _ (by norm_num)] at hunit

theorem isDyadic_threeToFive : IsDyadic (·.weight.toUInt64.toNat) 3 threeToFive where
  weights := by
    have hwhole : ∀ rule ∈ threeToFive, rule.weight.toUInt64.toNat < 2 ^ 53 ∧
        rule.weight.toUInt64.toNat.toUInt64.toFloat = rule.weight := by
      decide +kernel
    intro rule hrule
    obtain ⟨hlt, heq⟩ := hwhole rule hrule
    have hdenotes := Binary64.denotes_toFloat_toUInt64 hlt
    rwa [heq] at hdenotes
  sum_eq := by decide +kernel
  le := by norm_num

/-- The unit zero draws the first rule in spite of its weight, and the last rule with a weight has
one unit less than five of eight parts. -/
theorem card_choose_eq_threeToFive :
    (IsDyadic (·.weight.toUInt64.toNat) 3 threeToFive ∧
      ∀ k < 2 ^ 53, Denotes (Draws.unit (unitSource k).next.1) (k * 2 ^ (-53 : ℤ) : ℝ)) ∧
    (((Finset.range (2 ^ 53)).filter fun k =>
      (choose threeToFive (unitSource k)).1.map (·.index) = some 0).card : ℤ) = 1 ∧
    (((Finset.range (2 ^ 53)).filter fun k =>
      (choose threeToFive (unitSource k)).1.map (·.index) = some 3).card : ℤ) = 5 * 2 ^ 50 - 1 := by
  have h := isDyadic_threeToFive
  have hsource : ∀ k < 2 ^ 53, Denotes (Draws.unit (unitSource k).next.1)
      (k * 2 ^ (-53 : ℤ) : ℝ) := fun _ hk => denotes_unitSource hk
  refine ⟨⟨h, hsource⟩, ?_, ?_⟩
  · rw [@card_choose_eq _ _ _ 0 h unitSource hsource (by decide)]
    decide +kernel
  · rw [@card_choose_eq _ _ _ 3 h unitSource hsource (by decide)]
    decide +kernel

end Rule

end PhraseStructure
