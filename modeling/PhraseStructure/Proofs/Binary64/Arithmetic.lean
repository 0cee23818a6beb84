import PhraseStructure.Proofs.Binary64.Value

/-!
# Arithmetic

Sums, products and quotients of non-negative binary64 numbers are the roundings of the exact
results, with infinity for what is too large. Rounding is monotone, so these operations are
monotone too.
-/

namespace PhraseStructure.Binary64

open Float.Model (Format UnpackedFloat totalExponent)
open Float.Model.UnpackedFloat

/-! ## The nearest value -/

@[simp] theorem nearestValue_top : nearestValue ⊤ = ⊤ := if_pos rfl

theorem nearestValue_coe (r : ℝ) :
    nearestValue r = if rounded r < 2 ^ 1024 then (rounded r : EReal) else ⊤ := by
  unfold nearestValue
  rw [if_neg (EReal.coe_ne_top r), EReal.toReal_coe]

theorem nearestValue_eq_coe_iff {r c : ℝ} :
    nearestValue r = c ↔ rounded r = c ∧ c < 2 ^ 1024 := by
  rw [nearestValue_coe]
  split_ifs with h
  · rw [EReal.coe_eq_coe_iff]
    exact ⟨fun heq => ⟨heq, heq ▸ h⟩, And.left⟩
  · constructor
    · intro htop
      exact absurd htop.symm (EReal.coe_ne_top c)
    · rintro ⟨rfl, hlt⟩
      exact absurd hlt h

/-- Numbers of at most 53 digits are not rounded between the least and the greatest exponent. -/
theorem nearestValue_natCast_mul_zpow {m : ℕ} {e : ℤ} (hm : m < 2 ^ 53) (hlow : -1074 ≤ e)
    (hhigh : e ≤ 971) : nearestValue (m * 2 ^ e : ℝ) = (m * 2 ^ e : ℝ) := by
  refine nearestValue_eq_coe_iff.2 ⟨rounded_natCast_mul_zpow hm hlow, ?_⟩
  calc (m : ℝ) * 2 ^ e < 2 ^ 53 * 2 ^ e :=
        mul_lt_mul_of_pos_right (by exact_mod_cast hm) (two_zpow_pos e)
    _ ≤ 2 ^ 53 * 2 ^ (971 : ℤ) := by
        refine mul_le_mul_of_nonneg_left ?_ (by positivity)
        rwa [zpow_le_zpow_iff_right₀ one_lt_two]
    _ = 2 ^ 1024 := by
        rw [← zpow_natCast, ← zpow_natCast, ← zpow_add₀ two_ne_zero]
        norm_num

/-- Whole numbers of at most 53 digits are not rounded, and neither is the next one. -/
theorem nearestValue_natCast {n : ℕ} (hn : n ≤ 2 ^ 53) : nearestValue (n : ℝ) = (n : ℝ) := by
  rcases hn.lt_or_eq with hlt | rfl
  · have hexact := @nearestValue_natCast_mul_zpow n 0 hlt (by norm_num) (by norm_num)
    rwa [zpow_zero, mul_one] at hexact
  · have hexact := @nearestValue_natCast_mul_zpow 1 53 (by norm_num) (by norm_num) (by norm_num)
    have hpower : ((2 ^ 53 : ℕ) : ℝ) = (1 : ℕ) * 2 ^ (53 : ℤ) := by norm_num
    rwa [← hpower] at hexact

@[simp] theorem nearestValue_zero : nearestValue 0 = 0 := by
  rw [← EReal.coe_zero, nearestValue_coe, rounded_zero, if_pos (by positivity)]

theorem nearestValue_mono {v w : EReal} (hv : 0 ≤ v) (h : v ≤ w) :
    nearestValue v ≤ nearestValue w := by
  induction w with
  | top =>
    rw [nearestValue_top]
    exact le_top
  | bot => exact absurd (hv.trans h) (not_le.2 EReal.bot_lt_zero)
  | coe b =>
    induction v with
    | top => exact absurd h (not_le.2 (EReal.coe_lt_top b))
    | bot => exact absurd hv (not_le.2 EReal.bot_lt_zero)
    | coe a =>
      have hmono : rounded a ≤ rounded b :=
        rounded_mono (EReal.coe_nonneg.1 hv) (EReal.coe_le_coe_iff.1 h)
      rw [nearestValue_coe, nearestValue_coe]
      split_ifs with ha hb hb
      · exact EReal.coe_le_coe_iff.2 hmono
      · exact le_top
      · exact absurd (hmono.trans_lt hb) ha
      · exact le_rfl

/-! ## Packed results -/

/-- Packing gives a number with this value. -/
def Packs (u : UnpackedFloat) (v : EReal) : Prop :=
  (unpack Format.binary64 (pack Format.binary64 u)).isNaN = false ∧
    unpackedValue (unpack Format.binary64 (pack Format.binary64 u)) = v

theorem packs_zero (sign : Sign) : Packs (.zero sign) 0 := by
  unfold Packs
  rw [unpack_pack_zero]
  exact ⟨rfl, rfl⟩

theorem packs_infinity : Packs (.infinity .positive) ⊤ := by
  unfold Packs
  rw [unpack_pack_infinity]
  exact ⟨rfl, rfl⟩

theorem Stores.packs {u : UnpackedFloat} {r : ℝ} (h : Stores u .positive r) :
    Packs u (if r < 2 ^ 1024 then r else ⊤) := by
  unfold Packs
  rw [h.unpack_pack]
  split_ifs
  · cases h <;> exact ⟨rfl, rfl⟩
  · exact ⟨rfl, rfl⟩

theorem Denotes.cases_of_nonneg {x : Float} {v : EReal} (hx : Denotes x v) (hv : 0 ≤ v) :
    (∃ sign, x.toModel.unpack = .zero sign ∧ v = 0) ∨
      (x.toModel.unpack = .infinity .positive ∧ v = ⊤) ∨
      ∃ m e hm, x.toModel.unpack = .finite .positive m e hm ∧ IsCanonical m e ∧
        (m : ℝ) * 2 ^ e < 2 ^ 1024 ∧ v = (m * 2 ^ e : ℝ) := by
  obtain ⟨hnan, rfl⟩ := hx
  unfold value at hv ⊢
  rcases unpack_cases x.toModel.toBits.toBitVec with hu | ⟨sign, hu⟩ | ⟨sign, r, hu, hr⟩
  · rw [← Bool.not_eq_true] at hnan
    exact absurd (congrArg UnpackedFloat.isNaN hu) hnan
  · change x.toModel.unpack = _ at hu
    rw [hu] at hv ⊢
    cases sign with
    | negative => exact absurd hv (not_le.2 EReal.bot_lt_zero)
    | positive => exact .inr (.inl ⟨rfl, rfl⟩)
  · change Stores x.toModel.unpack sign r at hu
    generalize x.toModel.unpack = u at hu hv ⊢
    cases hu with
    | zero => exact .inl ⟨sign, rfl, rfl⟩
    | @finite _ m e hm hcanon =>
      have hpos : (0 : ℝ) < m * 2 ^ e := mul_pos (Nat.cast_pos.2 hm) (two_zpow_pos e)
      cases sign with
      | negative => exact absurd (EReal.coe_nonneg.1 hv) (not_le.2 (neg_neg_of_pos hpos))
      | positive => exact .inr (.inr ⟨m, e, hm, rfl, hcanon, hr, rfl⟩)

theorem Denotes.nearestValue_eq {x : Float} {v : EReal} (hx : Denotes x v) (hv : 0 ≤ v) :
    nearestValue v = v := by
  rcases hx.cases_of_nonneg hv with ⟨_, -, rfl⟩ | ⟨-, rfl⟩ | ⟨m, e, _, -, hcanon, hlt, rfl⟩
  · exact nearestValue_zero
  · exact nearestValue_top
  · rw [nearestValue_coe, rounded_natCast_mul_zpow hcanon.1 hcanon.2.1, if_pos hlt]

/-! ## Sums -/

theorem log2_mul_two_pow {m : ℕ} (hm : m ≠ 0) (k : ℕ) : (m * 2 ^ k).log2 = m.log2 + k := by
  have hlow := Nat.log2_self_le hm
  have hhigh := Nat.lt_log2_self (n := m)
  have hk := Nat.two_pow_pos k
  rw [Nat.log2_eq_iff (Nat.mul_ne_zero hm hk.ne'), pow_add,
    show m.log2 + k + 1 = m.log2 + 1 + k by ring, pow_add _ (m.log2 + 1)]
  exact ⟨Nat.mul_le_mul_right _ hlow, Nat.mul_lt_mul_of_pos_right hhigh hk⟩

theorem decreaseExponent_eq (m : ℕ) (e t : ℤ) :
    decreaseExponent m e t = (m * 2 ^ (e - t).toNat, e - (e - t).toNat) := by
  rw [← Nat.shiftLeft_eq]
  rfl

theorem mul_two_pow_mul_zpow_sub (m k : ℕ) (e : ℤ) :
    ((m * 2 ^ k : ℕ) : ℝ) * 2 ^ (e - k) = m * 2 ^ e := by
  rw [zpow_sub₀ (by norm_num), zpow_natCast]
  push_cast
  rw [mul_assoc, mul_div_cancel₀ _ (by positivity)]

theorem stores_round (sign : Sign) {m : ℕ} (e : ℤ) (hm : 0 < m) :
    Stores (UnpackedFloat.round Format.binary64 sign m e) sign (rounded (m * 2 ^ e)) := by
  unfold UnpackedFloat.round
  dsimp only
  rw [decreaseExponent_eq]
  generalize ht : Format.binary64.targetExponent (totalExponent m e) = t
  have hpos : (0 : ℝ) < (m * 2 ^ (e - t).toNat : ℕ) := by
    push_cast
    positivity
  rw [← mul_two_pow_mul_zpow_sub m (e - t).toNat e]
  refine stores_roundWithAccuracy sign rfl hpos ?_
  rw [targetExponent_eq] at ht ⊢
  rw [log2_mul_two_pow hm.ne']
  omega

theorem stores_add {m n : ℕ} {e f : ℤ} (hm : 0 < m) (hn : 0 < n) :
    Stores (UnpackedFloat.add Format.binary64 (.finite .positive m e hm) (.finite .positive n f hn))
      .positive (rounded (m * 2 ^ e + n * 2 ^ f)) := by
  have hleft := mul_two_pow_mul_zpow_sub m (e - min e f).toNat e
  have hright := mul_two_pow_mul_zpow_sub n (f - min e f).toNat f
  rw [show e - ((e - min e f).toNat : ℤ) = min e f by omega] at hleft
  rw [show f - ((f - min e f).toNat : ℤ) = min e f by omega] at hright
  rw [← hleft, ← hright, ← add_mul, ← Nat.cast_add]
  have hpos : 0 < m * 2 ^ (e - min e f).toNat + n * 2 ^ (f - min e f).toNat := by positivity
  have hround : UnpackedFloat.add Format.binary64 (.finite .positive m e hm)
      (.finite .positive n f hn) = UnpackedFloat.round Format.binary64 .positive
        (m * 2 ^ (e - min e f).toNat + n * 2 ^ (f - min e f).toNat) (min e f) := by
    unfold UnpackedFloat.add
    dsimp only
    rw [decreaseExponent_eq, decreaseExponent_eq]
    dsimp only [Sign.apply]
    rw [← Nat.cast_add]
    unfold UnpackedFloat.normalize
    rw [compare_gt_iff_gt.2 (by exact_mod_cast hpos)]
    rfl
  rw [hround]
  exact stores_round .positive (min e f) hpos

theorem Denotes.add {x y : Float} {v w : EReal} (hx : Denotes x v) (hy : Denotes y w)
    (hv : 0 ≤ v) (hw : 0 ≤ w) : Denotes (x + y) (nearestValue (v + w)) := by
  show Packs (UnpackedFloat.add Format.binary64 x.toModel.unpack y.toModel.unpack) _
  rcases hx.cases_of_nonneg hv with ⟨s, hux, rfl⟩ | ⟨hux, rfl⟩ | ⟨m, e, hm, hux, hcm, -, rfl⟩ <;>
    rcases hy.cases_of_nonneg hw with ⟨t, huy, rfl⟩ | ⟨huy, rfl⟩ | ⟨n, f, hn, huy, hcn, -, rfl⟩ <;>
    rw [hux, huy]
  · rw [zero_add, nearestValue_zero]
    cases s <;> cases t <;> exact packs_zero _
  · rw [zero_add, nearestValue_top]
    exact packs_infinity
  · rw [zero_add, nearestValue_coe, rounded_natCast_mul_zpow hcn.1 hcn.2.1]
    exact (Stores.finite hcn).packs
  · rw [add_zero, nearestValue_top]
    exact packs_infinity
  · rw [EReal.top_add_top, nearestValue_top]
    exact packs_infinity
  · rw [EReal.top_add_coe, nearestValue_top]
    exact packs_infinity
  · rw [add_zero, nearestValue_coe, rounded_natCast_mul_zpow hcm.1 hcm.2.1]
    exact (Stores.finite hcm).packs
  · rw [EReal.coe_add_top, nearestValue_top]
    exact packs_infinity
  · rw [← EReal.coe_add, nearestValue_coe]
    exact (stores_add hm hn).packs

/-! ## Products -/

theorem stores_mul {m n : ℕ} {e f : ℤ} (hm : 0 < m) (hn : 0 < n) (hcm : IsCanonical m e)
    (hcn : IsCanonical n f) :
    Stores (UnpackedFloat.mul Format.binary64 (.finite .positive m e hm) (.finite .positive n f hn))
      .positive (rounded (m * 2 ^ e * (n * 2 ^ f))) := by
  have hpos : 0 < m * n := Nat.mul_pos hm hn
  have hvalue : (m : ℝ) * 2 ^ e * (n * 2 ^ f) = (m * n : ℕ) * 2 ^ (e + f) := by
    rw [zpow_add₀ (by norm_num)]
    push_cast
    ring
  rw [hvalue]
  refine stores_roundWithAccuracy .positive rfl (Nat.cast_pos.2 hpos) ?_
  rw [targetExponent_eq]
  -- one normal factor makes enough digits, and two subnormal ones are small enough
  have hnormal : 2 ^ 52 ≤ m ∨ 2 ^ 52 ≤ n → 52 ≤ (m * n).log2 := by
    intro h
    rw [Nat.le_log2 hpos.ne']
    rcases h with h | h
    · exact h.trans (Nat.le_mul_of_pos_right m hn)
    · exact h.trans (Nat.le_mul_of_pos_left n hm)
  obtain ⟨-, hme, hm'⟩ := hcm
  obtain ⟨-, hnf, hn'⟩ := hcn
  omega

theorem Denotes.mul {x y : Float} {a b : ℝ} (hx : Denotes x a) (hy : Denotes y b) (ha : 0 ≤ a)
    (hb : 0 ≤ b) : Denotes (x * y) (nearestValue (a * b : ℝ)) := by
  show Packs (UnpackedFloat.mul Format.binary64 x.toModel.unpack y.toModel.unpack) _
  rcases hx.cases_of_nonneg (EReal.coe_nonneg.2 ha) with
      ⟨s, hux, hva⟩ | ⟨-, hva⟩ | ⟨m, e, hm, hux, hcm, -, hva⟩ <;>
    rcases hy.cases_of_nonneg (EReal.coe_nonneg.2 hb) with
      ⟨t, huy, hvb⟩ | ⟨-, hvb⟩ | ⟨n, f, hn, huy, hcn, -, hvb⟩ <;>
    first
      | exact absurd hva (EReal.coe_ne_top a)
      | exact absurd hvb (EReal.coe_ne_top b)
      | rw [hux, huy]
  · rw [EReal.coe_eq_zero.1 hva, zero_mul, EReal.coe_zero, nearestValue_zero]
    exact packs_zero _
  · rw [EReal.coe_eq_zero.1 hva, zero_mul, EReal.coe_zero, nearestValue_zero]
    exact packs_zero _
  · rw [EReal.coe_eq_zero.1 hvb, mul_zero, EReal.coe_zero, nearestValue_zero]
    exact packs_zero _
  · rw [EReal.coe_eq_coe_iff.1 hva, EReal.coe_eq_coe_iff.1 hvb, nearestValue_coe]
    exact (stores_mul hm hn hcm hcn).packs

theorem Denotes.mul_top {x y : Float} {a : ℝ} (hx : Denotes x a) (hy : Denotes y ⊤)
    (ha : 0 < a) : Denotes (x * y) ⊤ := by
  show Packs (UnpackedFloat.mul Format.binary64 x.toModel.unpack y.toModel.unpack) _
  rcases hy.cases_of_nonneg le_top with ⟨_, -, hvb⟩ | ⟨huy, -⟩ | ⟨n, f, hn, -, -, -, hvb⟩
  · exact absurd hvb EReal.top_ne_zero
  · rcases hx.cases_of_nonneg (EReal.coe_nonneg.2 ha.le) with
      ⟨_, -, hva⟩ | ⟨-, hva⟩ | ⟨m, e, hm, hux, -, -, -⟩
    · exact absurd (EReal.coe_eq_zero.1 hva) ha.ne'
    · exact absurd hva (EReal.coe_ne_top a)
    · rw [hux, huy]
      exact packs_infinity
  · exact absurd hvb.symm (EReal.coe_ne_top _)

theorem isNaN_mul_top {x y : Float} (hx : Denotes x 0) (hy : Denotes y ⊤) :
    (x * y).isNaN = true := by
  show (unpack Format.binary64 (pack Format.binary64
    (UnpackedFloat.mul Format.binary64 x.toModel.unpack y.toModel.unpack))).isNaN = true
  rcases hy.cases_of_nonneg le_top with ⟨_, -, hvb⟩ | ⟨huy, -⟩ | ⟨n, f, hn, -, -, -, hvb⟩
  · exact absurd hvb EReal.top_ne_zero
  · rcases hx.cases_of_nonneg le_rfl with ⟨sign, hux, -⟩ | ⟨-, hva⟩ | ⟨m, e, hm, -, -, -, hva⟩
    · rw [hux, huy]
      cases sign <;> rfl
    · exact absurd hva EReal.zero_ne_top
    · have hpos : (0 : ℝ) < m * 2 ^ e := mul_pos (Nat.cast_pos.2 hm) (two_zpow_pos e)
      exact absurd (EReal.coe_eq_zero.1 hva.symm) hpos.ne'
  · exact absurd hvb.symm (EReal.coe_ne_top _)

/-! ## Quotients -/

theorem locates_div (k : ℕ) {n : ℕ} (hn : 0 < n) :
    Locates (k / n) (k / n : ℝ) (accuracyOfFraction (k % n) n) := by
  have hpos : (0 : ℝ) < n := Nat.cast_pos.2 hn
  have hk : (k : ℝ) / n = (k / n : ℕ) + (k % n : ℕ) / n := by
    rw [eq_comm, ← mul_right_inj' hpos.ne', mul_add, mul_div_cancel₀ _ hpos.ne',
      mul_div_cancel₀ _ hpos.ne']
    exact_mod_cast Nat.div_add_mod k n
  have hlt : ((k % n : ℕ) : ℝ) / n < 1 := by
    rw [div_lt_one hpos]
    exact_mod_cast Nat.mod_lt k hn
  rw [hk]
  unfold accuracyOfFraction
  split_ifs with hzero
  · rw [hzero, Nat.cast_zero, zero_div, add_zero]
    rfl
  · have hfrac : (0 : ℝ) < (k % n : ℕ) / n :=
      div_pos (Nat.cast_pos.2 (Nat.pos_of_ne_zero hzero)) hpos
    rcases lt_trichotomy (2 * (k % n)) n with h | h | h
    · rw [compare_lt_iff_lt.2 h]
      have hhalf : ((k % n : ℕ) : ℝ) / n < 1 / 2 := by
        rw [div_lt_div_iff₀ hpos two_pos, one_mul, mul_comm]
        exact_mod_cast h
      exact ⟨by linarith, by linarith⟩
    · rw [compare_eq_iff_eq.2 h]
      have hhalf : ((k % n : ℕ) : ℝ) / n = 1 / 2 := by
        rw [div_eq_div_iff hpos.ne' two_ne_zero, one_mul, mul_comm]
        exact_mod_cast h
      exact congrArg _ hhalf
    · rw [compare_gt_iff_gt.2 h]
      have hhalf : (1 : ℝ) / 2 < (k % n : ℕ) / n := by
        rw [div_lt_div_iff₀ two_pos hpos, one_mul, mul_comm _ (2 : ℝ)]
        exact_mod_cast h
      exact ⟨by linarith, by linarith⟩

theorem stores_div {m n : ℕ} {e f : ℤ} (hm : 0 < m) (hn : 0 < n) :
    Stores (UnpackedFloat.div Format.binary64 (.finite .positive m e hm) (.finite .positive n f hn))
      .positive (rounded (m * 2 ^ e / (n * 2 ^ f))) := by
  obtain ⟨t, ht⟩ : ∃ t, min (e - f) (Format.binary64.targetExponent
      (totalExponent m e - totalExponent n f)) = t := ⟨_, rfl⟩
  have hround : UnpackedFloat.div Format.binary64 (.finite .positive m e hm)
      (.finite .positive n f hn) = roundWithAccuracy Format.binary64 .positive
        (m * 2 ^ (e - f - t).toNat / n) t
        (accuracyOfFraction (m * 2 ^ (e - f - t).toNat % n) n) := by
    rw [← Nat.shiftLeft_eq, ← ht]
    rfl
  have hvalue : (m : ℝ) * 2 ^ e / (n * 2 ^ f) = (m * 2 ^ (e - f - t).toNat : ℕ) / n * 2 ^ t := by
    have hshift := mul_two_pow_mul_zpow_sub m (e - f - t).toNat (e - f)
    rw [show e - f - ((e - f - t).toNat : ℤ) = t by omega, zpow_sub₀ (by norm_num)] at hshift
    rw [div_mul_eq_mul_div, hshift]
    field_simp
  have hpos : (0 : ℝ) < (m * 2 ^ (e - f - t).toNat : ℕ) / n := by
    push_cast
    positivity
  rw [hround, hvalue]
  refine stores_roundWithAccuracy .positive (locates_div _ hn) hpos ?_
  rw [targetExponent_eq]
  -- above the least exponent the shift has left at least 53 digits in the quotient
  by_cases hmin : t ≤ -1074
  · omega
  · have hexp : t ≤ (m.log2 : ℤ) - n.log2 + e - f - 53 := by
      rw [← ht] at hmin ⊢
      simp only [Format.targetExponent, totalExponent, Format.mantissaBits,
        Format.minExponent] at hmin ⊢
      norm_num at hmin ⊢
      omega
    have hdigits : 2 ^ 52 ≤ m * 2 ^ (e - f - t).toNat / n := by
      rw [Nat.le_div_iff_mul_le hn]
      calc 2 ^ 52 * n ≤ 2 ^ 52 * 2 ^ (n.log2 + 1) :=
            Nat.mul_le_mul_left _ (Nat.lt_log2_self).le
        _ = 2 ^ (52 + (n.log2 + 1)) := (pow_add 2 52 (n.log2 + 1)).symm
        _ ≤ 2 ^ (m.log2 + (e - f - t).toNat) := Nat.pow_le_pow_right two_pos (by omega)
        _ = 2 ^ m.log2 * 2 ^ (e - f - t).toNat := pow_add 2 _ _
        _ ≤ m * 2 ^ (e - f - t).toNat := Nat.mul_le_mul_right _ (Nat.log2_self_le hm.ne')
    have hlog : 52 ≤ (m * 2 ^ (e - f - t).toNat / n).log2 :=
      (Nat.le_log2 (by omega)).2 hdigits
    omega

theorem Denotes.div {x y : Float} {a b : ℝ} (hx : Denotes x a) (hy : Denotes y b) (ha : 0 ≤ a)
    (hb : 0 < b) : Denotes (x / y) (nearestValue (a / b : ℝ)) := by
  show Packs (UnpackedFloat.div Format.binary64 x.toModel.unpack y.toModel.unpack) _
  rcases hy.cases_of_nonneg (EReal.coe_nonneg.2 hb.le) with
    ⟨t, -, hvb⟩ | ⟨-, hvb⟩ | ⟨n, f, hn, huy, -, -, hvb⟩
  · exact absurd (EReal.coe_eq_zero.1 hvb) hb.ne'
  · exact absurd hvb (EReal.coe_ne_top b)
  · rcases hx.cases_of_nonneg (EReal.coe_nonneg.2 ha) with
      ⟨s, hux, hva⟩ | ⟨-, hva⟩ | ⟨m, e, hm, hux, -, -, hva⟩
    · rw [hux, huy, EReal.coe_eq_zero.1 hva, zero_div, EReal.coe_zero, nearestValue_zero]
      exact packs_zero _
    · exact absurd hva (EReal.coe_ne_top a)
    · rw [hux, huy, EReal.coe_eq_coe_iff.1 hva, EReal.coe_eq_coe_iff.1 hvb, nearestValue_coe]
      exact (stores_div hm hn).packs

theorem Denotes.div_top {x y : Float} {a : ℝ} (hx : Denotes x a) (hy : Denotes y ⊤)
    (ha : 0 ≤ a) : Denotes (x / y) 0 := by
  show Packs (UnpackedFloat.div Format.binary64 x.toModel.unpack y.toModel.unpack) _
  rcases hy.cases_of_nonneg le_top with ⟨t, -, hvb⟩ | ⟨huy, -⟩ | ⟨n, f, hn, -, -, -, hvb⟩
  · exact absurd hvb EReal.top_ne_zero
  · rcases hx.cases_of_nonneg (EReal.coe_nonneg.2 ha) with
      ⟨s, hux, -⟩ | ⟨-, hva⟩ | ⟨m, e, hm, hux, -, -, -⟩
    · rw [hux, huy]
      exact packs_zero _
    · exact absurd hva (EReal.coe_ne_top a)
    · rw [hux, huy]
      exact packs_zero _
  · exact absurd hvb.symm (EReal.coe_ne_top _)

end PhraseStructure.Binary64
