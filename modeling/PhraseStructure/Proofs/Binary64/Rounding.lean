import PhraseStructure.Proofs.Binary64.Basic

/-!
# Rounding to binary64

Rounding is monotone and keeps the numbers that need no more than 53 digits. Within one binade it
is the rounding to the nearest natural number, in units of the binade's last digit.
-/

namespace PhraseStructure.Binary64

/-! ## The nearest natural number -/

theorem floor_le_nearest (x : ℝ) : ⌊x⌋₊ ≤ nearest x := by
  unfold nearest
  split_ifs <;> omega

theorem nearest_le_floor_succ (x : ℝ) : nearest x ≤ ⌊x⌋₊ + 1 := by
  unfold nearest
  split_ifs <;> omega

theorem nearest_natCast (n : ℕ) : nearest n = n := by
  unfold nearest
  rw [Nat.floor_natCast, sub_self, if_pos (by norm_num)]

theorem nearest_mono {x y : ℝ} (h : x ≤ y) : nearest x ≤ nearest y := by
  rcases (Nat.floor_mono h).lt_or_eq with hlt | heq
  · calc nearest x ≤ ⌊x⌋₊ + 1 := nearest_le_floor_succ x
      _ ≤ ⌊y⌋₊ := hlt
      _ ≤ nearest y := floor_le_nearest y
  · -- in one unit interval the three cases come in order
    unfold nearest
    rw [heq]
    split_ifs <;> first | omega | (exfalso; linarith)

theorem nearest_le_natCast {x : ℝ} {n : ℕ} (h : x ≤ n) : nearest x ≤ n := by
  simpa only [nearest_natCast] using nearest_mono h

theorem natCast_le_nearest {x : ℝ} {n : ℕ} (h : n ≤ x) : n ≤ nearest x := by
  simpa only [nearest_natCast] using nearest_mono h

/-! ## Rounding -/

theorem two_zpow_pos (e : ℤ) : (0 : ℝ) < 2 ^ e := by positivity

theorem two_zpow_log_le {x : ℝ} (hx : 0 < x) : (2 : ℝ) ^ Int.log 2 x ≤ x := by
  exact_mod_cast Int.zpow_log_le_self (b := 2) (by norm_num) hx

theorem lt_two_zpow_log_add_one (x : ℝ) : x < (2 : ℝ) ^ (Int.log 2 x + 1) := by
  exact_mod_cast Int.lt_zpow_succ_log_self (b := 2) (by norm_num) x

theorem log_eq_of_le_of_lt {x : ℝ} {e : ℤ} (hle : (2 : ℝ) ^ e ≤ x) (hlt : x < (2 : ℝ) ^ (e + 1)) :
    Int.log 2 x = e := by
  have hx : 0 < x := (two_zpow_pos e).trans_le hle
  have h1 := (two_zpow_log_le hx).trans_lt hlt
  have h2 := hle.trans_lt (lt_two_zpow_log_add_one x)
  rw [zpow_lt_zpow_iff_right₀ (by norm_num)] at h1 h2
  omega

theorem unitExponent_mono {x y : ℝ} (hx : 0 < x) (h : x ≤ y) : unitExponent x ≤ unitExponent y :=
  max_le_max (sub_le_sub_right (Int.log_mono_right hx h) 52) le_rfl

theorem div_unit_lt (x : ℝ) : x / 2 ^ unitExponent x < 2 ^ 53 := by
  rw [div_lt_iff₀ (two_zpow_pos _)]
  calc x < (2 : ℝ) ^ (Int.log 2 x + 1) := lt_two_zpow_log_add_one x
    _ ≤ (2 : ℝ) ^ (53 + unitExponent x) := by
      rw [zpow_le_zpow_iff_right₀ (by norm_num)]
      unfold unitExponent
      omega
    _ = 2 ^ 53 * 2 ^ unitExponent x := by
      rw [zpow_add₀ (by norm_num)]
      norm_cast

theorem le_div_unit {x : ℝ} (hx : 0 < x) (h : -1074 < unitExponent x) :
    2 ^ 52 ≤ x / 2 ^ unitExponent x := by
  rw [le_div_iff₀ (two_zpow_pos _)]
  calc (2 : ℝ) ^ 52 * 2 ^ unitExponent x = (2 : ℝ) ^ (52 + unitExponent x) := by
        rw [zpow_add₀ (by norm_num)]
        norm_cast
    _ ≤ (2 : ℝ) ^ Int.log 2 x := by
        rw [zpow_le_zpow_iff_right₀ (by norm_num)]
        unfold unitExponent at h ⊢
        omega
    _ ≤ x := two_zpow_log_le hx

theorem rounded_nonneg (x : ℝ) : 0 ≤ rounded x := by
  unfold rounded
  positivity

@[simp] theorem rounded_zero : rounded 0 = 0 := by
  unfold rounded
  rw [zero_div, ← Nat.cast_zero, nearest_natCast, Nat.cast_zero, zero_mul]

/-- Rounding is monotone: within a binade because the nearest number is, and from one binade to
the next because the power of two between them separates the results. -/
theorem rounded_mono {x y : ℝ} (hx : 0 ≤ x) (h : x ≤ y) : rounded x ≤ rounded y := by
  rcases hx.eq_or_lt with rfl | hx
  · rw [rounded_zero]
    exact rounded_nonneg y
  rcases (unitExponent_mono hx h).eq_or_lt with heq | hlt
  · unfold rounded
    rw [← heq]
    have hdiv : x / 2 ^ unitExponent x ≤ y / 2 ^ unitExponent x :=
      div_le_div_of_nonneg_right h (two_zpow_pos _).le
    exact mul_le_mul_of_nonneg_right (by exact_mod_cast nearest_mono hdiv) (two_zpow_pos _).le
  · have hfew : nearest (x / 2 ^ unitExponent x) ≤ 2 ^ 53 :=
      nearest_le_natCast (by exact_mod_cast (div_unit_lt x).le)
    have hmany : 2 ^ 52 ≤ nearest (y / 2 ^ unitExponent y) := by
      have hmin : -1074 ≤ unitExponent x := le_max_right _ _
      exact natCast_le_nearest
        (by exact_mod_cast le_div_unit (hx.trans_le h) (hmin.trans_lt hlt))
    calc rounded x ≤ (2 : ℝ) ^ 53 * 2 ^ unitExponent x :=
          mul_le_mul_of_nonneg_right (by exact_mod_cast hfew) (two_zpow_pos _).le
      _ = (2 : ℝ) ^ 52 * 2 ^ (unitExponent x + 1) := by
          rw [zpow_add₀ (by norm_num)]
          ring
      _ ≤ (2 : ℝ) ^ 52 * 2 ^ unitExponent y := by
          refine mul_le_mul_of_nonneg_left ?_ (by positivity)
          rw [zpow_le_zpow_iff_right₀ (by norm_num)]
          omega
      _ ≤ rounded y :=
          mul_le_mul_of_nonneg_right (by exact_mod_cast hmany) (two_zpow_pos _).le

/-- Numbers of at most 53 digits stay as they are. -/
theorem rounded_natCast_mul_zpow {m : ℕ} {e : ℤ} (hm : m < 2 ^ 53) (he : -1074 ≤ e) :
    rounded (m * 2 ^ e) = m * 2 ^ e := by
  rcases m.eq_zero_or_pos with rfl | hpos
  · rw [Nat.cast_zero, zero_mul, rounded_zero]
  have hx : (0 : ℝ) < m * 2 ^ e := by positivity
  -- the exponent of the rounding is at most `e`, so the mantissa is a whole number
  have hlog : Int.log 2 ((m : ℝ) * 2 ^ e) < 53 + e := by
    rw [← zpow_lt_zpow_iff_right₀ (one_lt_two : (1 : ℝ) < 2)]
    calc (2 : ℝ) ^ Int.log 2 ((m : ℝ) * 2 ^ e) ≤ m * 2 ^ e := two_zpow_log_le hx
      _ < 2 ^ 53 * 2 ^ e := mul_lt_mul_of_pos_right (by exact_mod_cast hm) (two_zpow_pos e)
      _ = 2 ^ (53 + e) := by
          rw [zpow_add₀ (by norm_num)]
          norm_cast
  obtain ⟨k, hk⟩ : ∃ k : ℕ, e = unitExponent (m * 2 ^ e) + k := by
    refine ⟨(e - unitExponent (m * 2 ^ e)).toNat, ?_⟩
    have : unitExponent (m * 2 ^ e) ≤ e := by
      unfold unitExponent
      omega
    omega
  have hwhole : (m : ℝ) * 2 ^ e / 2 ^ unitExponent (m * 2 ^ e) = (m * 2 ^ k : ℕ) := by
    rw [div_eq_iff (two_zpow_pos _).ne']
    conv_lhs => rw [hk, zpow_add₀ (by norm_num), zpow_natCast]
    push_cast
    ring
  unfold rounded
  rw [hwhole, nearest_natCast, ← hwhole, div_mul_cancel₀ _ (two_zpow_pos _).ne']

theorem rounded_two_zpow {e : ℤ} (he : -1074 ≤ e) : rounded ((2 : ℝ) ^ e) = 2 ^ e := by
  have h := @rounded_natCast_mul_zpow 1 e (by norm_num) he
  rwa [Nat.cast_one, one_mul] at h

end PhraseStructure.Binary64
