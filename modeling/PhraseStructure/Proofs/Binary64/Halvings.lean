import PhraseStructure.Proofs.Binary64.Share

/-!
# Halvings

A product of positive shares can round to zero, but a positive product has positive factors, and a
positive quotient has a positive numerator. One, halved again and again, stays exact down to the
least positive number, so products of shares that are not below such halvings are not below their
product and stay positive as long as there are not too many halvings.
-/

namespace PhraseStructure.Binary64

/-! ## Positive products and quotients -/

theorem Denotes.zero_lt_iff {x : Float} {v : EReal} (hx : Denotes x v) : 0.0 < x ↔ 0 < v :=
  denotes_zero.lt_iff hx

theorem not_pos_nearestValue_zero : ¬ 0 < nearestValue (0 : ℝ) := by
  rw [EReal.coe_zero, nearestValue_zero]
  exact lt_irrefl 0

theorem IsShare.pos_of_mul {x y : Float} (hx : IsShare x) (hy : IsShare y) (h : 0.0 < x * y) :
    0.0 < x ∧ 0.0 < y := by
  obtain ⟨a, hx, ha, -⟩ := isShare_iff.1 hx
  obtain ⟨b, hy, hb, -⟩ := isShare_iff.1 hy
  have hprod := (hx.mul hy ha hb).zero_lt_iff.1 h
  have hne : a * b ≠ 0 := by
    intro hzero
    rw [hzero] at hprod
    exact not_pos_nearestValue_zero hprod
  have hposa : 0 < a := ha.lt_of_ne' (left_ne_zero_of_mul hne)
  have hposb : 0 < b := hb.lt_of_ne' (right_ne_zero_of_mul hne)
  exact ⟨hx.zero_lt_iff.2 (EReal.coe_pos.2 hposa), hy.zero_lt_iff.2 (EReal.coe_pos.2 hposb)⟩

/-- A weight that is a positive part of a positive total is positive. -/
theorem IsWeight.pos_of_div {x y : Float} (hx : IsWeight x) (hy : 0.0 < y) (h : 0.0 < x / y) :
    0.0 < x := by
  obtain ⟨a, hx, ha⟩ := hx.exists_denotes
  have hyv := denotes_value (isNaN_eq_false_of_lt hy).2
  have hpos := hyv.zero_lt_iff.1 hy
  generalize value y = w at hyv hpos
  induction w with
  | bot => exact absurd hpos not_lt_bot
  | top => exact absurd ((hx.div_top hyv ha).zero_lt_iff.1 h) (lt_irrefl 0)
  | coe b =>
    have hquot := (hx.div hyv ha (EReal.coe_pos.1 hpos)).zero_lt_iff.1 h
    have hne : a ≠ 0 := by
      rintro rfl
      rw [zero_div] at hquot
      exact not_pos_nearestValue_zero hquot
    exact hx.zero_lt_iff.2 (EReal.coe_pos.2 (ha.lt_of_ne' hne))

/-! ## Halvings of one -/

/-- One, halved a number of times. -/
def halvings : ℕ → Float
  | 0 => 1.0
  | k + 1 => halvings k * 0.5

theorem denotes_two_zpow {x : Float} {e : ℤ} (hnan : x.isNaN = false)
    (hvalue : value x = (((2 ^ 52 : ℕ) : ℝ) * 2 ^ (e - 52) : ℝ)) : Denotes x ((2 : ℝ) ^ e : ℝ) := by
  refine ⟨hnan, hvalue.trans (congrArg Real.toEReal ?_)⟩
  rw [Nat.cast_pow, Nat.cast_ofNat, ← zpow_natCast, ← zpow_add₀ two_ne_zero, Nat.cast_ofNat,
    add_sub_cancel]

theorem denotes_half : Denotes 0.5 ((2 : ℝ) ^ (-1 : ℤ) : ℝ) :=
  denotes_two_zpow rfl rfl

/-- Down to the least positive number a power of two needs no rounding. -/
theorem nearestValue_two_zpow {k : ℕ} (hk : k ≤ 1074) :
    nearestValue ((2 : ℝ) ^ (-k : ℤ) : ℝ) = ((2 : ℝ) ^ (-k : ℤ) : ℝ) := by
  have hlt : (2 : ℝ) ^ (-k : ℤ) < 2 ^ 1024 := by
    rw [← zpow_natCast, zpow_lt_zpow_iff_right₀ one_lt_two]
    omega
  exact nearestValue_eq_coe_iff.2 ⟨rounded_two_zpow (by omega), hlt⟩

theorem denotes_halvings {k : ℕ} (hk : k ≤ 1074) :
    Denotes (halvings k) ((2 : ℝ) ^ (-k : ℤ) : ℝ) := by
  induction k with
  | zero => simpa [halvings] using denotes_one
  | succ k ih =>
    have hmul := (ih (by omega)).mul denotes_half (two_zpow_pos _).le (two_zpow_pos _).le
    have hexponent : (-k : ℤ) + -1 = -(k + 1 : ℕ) := by
      push_cast
      ring
    rw [← zpow_add₀ two_ne_zero, hexponent, nearestValue_two_zpow hk] at hmul
    exact hmul

theorem halvings_pos {k : ℕ} (hk : k ≤ 1074) : 0.0 < halvings k :=
  (denotes_halvings hk).zero_lt_iff.2 (EReal.coe_pos.2 (two_zpow_pos _))

theorem halvings_add_le_mul {x y : Float} (hx : IsShare x) (hy : IsShare y) {i j : ℕ}
    (hxi : halvings i ≤ x) (hyj : halvings j ≤ y) (hij : i + j ≤ 1074) :
    halvings (i + j) ≤ x * y := by
  obtain ⟨a, hx, ha, -⟩ := isShare_iff.1 hx
  obtain ⟨b, hy, hb, -⟩ := isShare_iff.1 hy
  have hai := EReal.coe_le_coe_iff.1 (((denotes_halvings (by omega)).le_iff hx).1 hxi)
  have hbj := EReal.coe_le_coe_iff.1 (((denotes_halvings (by omega)).le_iff hy).1 hyj)
  have hpow : (2 : ℝ) ^ (-(i + j : ℕ) : ℤ) ≤ a * b := by
    rw [Nat.cast_add, neg_add, zpow_add₀ two_ne_zero]
    exact mul_le_mul hai hbj (two_zpow_pos _).le ha
  rw [(denotes_halvings hij).le_iff (hx.mul hy ha hb), ← nearestValue_two_zpow hij]
  exact nearestValue_mono (EReal.coe_nonneg.2 (two_zpow_pos _).le) (EReal.coe_le_coe_iff.2 hpow)

end PhraseStructure.Binary64
