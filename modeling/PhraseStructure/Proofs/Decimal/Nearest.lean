import PhraseStructure.Decimal.Reading
import PhraseStructure.Proofs.Binary64.Fields
import PhraseStructure.Proofs.Decimal.Positional

/-!
# Decimals read as the nearest number

A decimal is read as the binary64 number nearest to it. Core multiplies or divides by a power of
ten, in binary64 if both numbers are exact there and otherwise with a single rounding; far out of
range the place of the first digit alone decides.
-/

namespace PhraseStructure

open Float.Model (Format UnpackedFloat totalExponent)
open Float.Model.UnpackedFloat

namespace Binary64

/-! ## Whole numbers and powers of ten -/

theorem denotes_toFloat_toUInt64 {m : ℕ} (h : m < 2 ^ 53) :
    Denotes m.toUInt64.toFloat (m : ℝ) := by
  have hm : m.toUInt64.toNat = m := by
    show m % 2 ^ 64 = m
    omega
  show Packs (UnpackedFloat.ofNat Format.binary64 m.toUInt64.toNat) _
  rw [hm]
  rcases m.eq_zero_or_pos with rfl | hpos
  · rw [Nat.cast_zero, EReal.coe_zero]
    exact packs_zero .positive
  · have hround : UnpackedFloat.ofNat Format.binary64 m =
        UnpackedFloat.round Format.binary64 .positive m 0 := by
      unfold UnpackedFloat.ofNat UnpackedFloat.ofInt UnpackedFloat.normalize
      rw [compare_gt_iff_gt.2 (by exact_mod_cast hpos)]
      rfl
    have hvalue : rounded (m * 2 ^ (0 : ℤ)) = m := by
      rw [rounded_natCast_mul_zpow h (by norm_num), zpow_zero, mul_one]
    have hlt : (m : ℝ) < 2 ^ 1024 := by
      calc (m : ℝ) < 2 ^ 53 := by exact_mod_cast h
        _ < 2 ^ 1024 := pow_lt_pow_right₀ one_lt_two (by norm_num)
    have hstores := stores_round .positive 0 hpos
    rw [hvalue] at hstores
    rw [hround]
    simpa only [if_pos hlt] using hstores.packs

/-- The powers of ten that core keeps are exact. -/
theorem denotes_powerOfTen (e : Fin Float.exactlyRepresentablePowersOfTen.size) :
    Denotes Float.exactlyRepresentablePowersOfTen[e] (10 ^ (e : ℕ) : ℝ) := by
  have hbits : ∀ e : Fin Float.exactlyRepresentablePowersOfTen.size,
      Float.exactlyRepresentablePowersOfTen[e].toBits.toNat < 2047 * 2 ^ 52 ∧
        (Binary.ofBits Float.exactlyRepresentablePowersOfTen[e].toBits.toNat).mantissa *
            2 ^ (Binary.ofBits
              Float.exactlyRepresentablePowersOfTen[e].toBits.toNat).exponent.toNat =
          10 ^ (e : ℕ) *
            2 ^ (-(Binary.ofBits
              Float.exactlyRepresentablePowersOfTen[e].toBits.toNat).exponent).toNat := by
    decide +kernel
  obtain ⟨hlt, hvalue⟩ := hbits e
  have hdenotes := denotes_of_toBits_lt hlt
  rwa [Binary.value_eq_of_mul_two_pow_eq hvalue, Nat.cast_pow] at hdenotes

/-! ## One rounding -/

/-- Core's multiplication by a power of ten rounds once. -/
theorem stores_ofScientific {m : ℕ} {e : ℤ} (hm : 0 < m) (hlow : -(2048 + (m.log2 : ℤ)) ≤ e)
    (hhigh : e ≤ 2048) :
    Stores (UnpackedFloat.ofScientific Format.binary64 m e) .positive (rounded (m * 10 ^ e)) := by
  have hbits : (2 : ℤ) ^ Format.binary64.exponentBits = 2048 := by norm_num
  have hwidth : Format.binary64.mantissaBits = 53 := rfl
  unfold UnpackedFloat.ofScientific
  rw [dif_neg hm.ne', hbits, if_neg (by omega), if_neg (by omega)]
  by_cases he : 0 ≤ e
  · rw [if_pos he]
    have hpos : 0 < m <<< Format.binary64.mantissaBits * 10 ^ e.toNat := by
      rw [Nat.shiftLeft_eq]
      positivity
    have hvalue : (m : ℝ) * 10 ^ e =
        (m <<< Format.binary64.mantissaBits * 10 ^ e.toNat : ℕ) * 2 ^ (-53 + 0 : ℤ) := by
      have hexp : e = (e.toNat : ℤ) := by omega
      conv_lhs => rw [hexp, zpow_natCast]
      rw [hwidth, Nat.shiftLeft_eq, add_zero, zpow_neg, mul_right_comm, Nat.cast_mul,
        Nat.cast_pow, mul_assoc, ← zpow_natCast ((2 : ℕ) : ℝ)]
      push_cast
      rw [mul_inv_cancel₀ (by positivity), mul_one]
    rw [hvalue]
    refine stores_roundWithAccuracy .positive rfl (Nat.cast_pos.2 hpos) ?_
    -- the shift by 53 places leaves enough digits
    have hlog : 53 ≤ (m <<< Format.binary64.mantissaBits * 10 ^ e.toNat).log2 := by
      rw [Nat.le_log2 hpos.ne', hwidth, Nat.shiftLeft_eq, mul_right_comm]
      exact Nat.le_mul_of_pos_left _ (by positivity)
    rw [targetExponent_eq]
    omega
  · rw [if_neg he]
    have hvalue : (m : ℝ) * 10 ^ e = m * 2 ^ (0 : ℤ) / ((10 ^ (-e).toNat : ℕ) * 2 ^ (0 : ℤ)) := by
      have hexp : e = -((-e).toNat : ℤ) := by omega
      conv_lhs => rw [hexp, zpow_neg, zpow_natCast]
      rw [zpow_zero, mul_one, mul_one, Nat.cast_pow]
      rfl
    rw [hvalue]
    exact stores_div hm _

/-- Numbers in range are rounded once, on either of the two ways. -/
theorem denotes_ofScientific {m e : ℕ} {negative : Bool} {exponent : ℤ} (hm : 0 < m)
    (hexponent : exponent = if negative then -(e : ℤ) else e)
    (hlow : -(2048 + (m.log2 : ℤ)) ≤ exponent) (hhigh : exponent ≤ 2048) :
    Denotes (Float.ofScientific m negative e) (nearestValue (m * 10 ^ exponent : ℝ)) := by
  by_cases hexact : m < 2 ^ 53 ∧ e ≤ 22
  · have hwhole := denotes_toFloat_toUInt64 hexact.1
    have hpower := denotes_powerOfTen ⟨e, Nat.lt_succ_of_le hexact.2⟩
    unfold Float.ofScientific
    rw [dif_pos hexact]
    cases negative with
    | true =>
      obtain rfl : exponent = -(e : ℤ) := hexponent
      rw [zpow_neg, zpow_natCast, ← div_eq_mul_inv]
      exact hwhole.div hpower (Nat.cast_nonneg m) (by positivity)
    | false =>
      obtain rfl : exponent = e := hexponent
      rw [zpow_natCast]
      exact hwhole.mul hpower (Nat.cast_nonneg m) (by positivity)
  · have hmodel : Float.ofScientific m negative e =
        Float.ofModel (Float.Model.ofScientific m exponent) := by
      unfold Float.ofScientific
      rw [dif_neg hexact, hexponent]
      cases negative <;> rfl
    rw [hmodel, nearestValue_coe]
    exact (stores_ofScientific hm hlow hhigh).packs

/-! ## Out of range -/

theorem nearestValue_of_lt {x : ℝ} (hx : 0 ≤ x) (h : x < 2 ^ (-1075 : ℤ)) : nearestValue x = 0 := by
  have hrounded : rounded x = 0 := by
    rcases hx.eq_or_lt with rfl | hpos
    · exact rounded_zero
    have hlog : Int.log 2 x < -1075 := by
      rw [← zpow_lt_zpow_iff_right₀ (one_lt_two : (1 : ℝ) < 2)]
      exact (two_zpow_log_le hpos).trans_lt h
    have hunit : unitExponent x = -1074 := by
      unfold unitExponent
      omega
    have hhalf : x / 2 ^ (-1074 : ℤ) < 1 / 2 := by
      rw [div_lt_iff₀ (two_zpow_pos _)]
      calc x < 2 ^ (-1075 : ℤ) := h
        _ = 1 / 2 * 2 ^ (-1074 : ℤ) := by
          rw [show (-1074 : ℤ) = -1075 + 1 by norm_num, zpow_add₀ (by norm_num)]
          ring
    have hfloor : ⌊x / 2 ^ (-1074 : ℤ)⌋₊ = 0 := Nat.floor_eq_zero.2 (by linarith)
    unfold rounded nearest
    rw [hunit, hfloor, Nat.cast_zero, sub_zero, if_pos hhalf, Nat.cast_zero, zero_mul]
  rw [nearestValue_coe, hrounded, if_pos (by positivity), EReal.coe_zero]

theorem nearestValue_of_le {x : ℝ} (h : 2 ^ 1024 ≤ x) : nearestValue x = ⊤ := by
  have hpower : rounded (2 ^ 1024) = 2 ^ 1024 := by
    have := @rounded_natCast_mul_zpow 1 1024 (by norm_num) (by norm_num)
    rwa [Nat.cast_one, one_mul] at this
  have hmono := rounded_mono (by positivity) h
  rw [hpower] at hmono
  rw [nearestValue_coe, if_neg (not_lt.2 hmono)]

end Binary64

namespace Decimal

open Binary64 (Denotes nearestValue)

/-- The place of the first digit bounds the number from both sides. -/
theorem value_lt_pow (d : Decimal) : d.value < 10 ^ d.pointPlace := by
  have hlt : (d.coefficient : ℝ) < 10 ^ digitCount d.coefficient := by
    exact_mod_cast lt_pow_digitCount d.coefficient
  unfold value pointPlace
  rw [zpow_add₀ (by norm_num), zpow_natCast]
  exact mul_lt_mul_of_pos_right hlt (by positivity)

theorem pow_le_value {d : Decimal} (h : 0 < d.coefficient) :
    (10 : ℝ) ^ (d.pointPlace - 1) ≤ d.value := by
  have hcount := digitCount_pos d.coefficient
  have hle : (10 : ℝ) ^ (digitCount d.coefficient - 1) ≤ d.coefficient := by
    exact_mod_cast pow_digitCount_le h
  have hplace : d.pointPlace - 1 = ((digitCount d.coefficient - 1 : ℕ) : ℤ) + d.exponent := by
    unfold pointPlace
    omega
  unfold value
  rw [hplace, zpow_add₀ (by norm_num), zpow_natCast]
  exact mul_le_mul_of_nonneg_right hle (by positivity)

theorem value_nonneg (d : Decimal) : 0 ≤ d.value := by
  unfold value
  positivity

theorem digitCount_le {n : ℕ} (h : 0 < n) : digitCount n ≤ n.log2 + 1 := by
  have hlow := pow_digitCount_le h
  have hhigh := Nat.lt_log2_self (n := n)
  by_contra hlt
  have hpow : 2 ^ (n.log2 + 1) ≤ 10 ^ (digitCount n - 1) :=
    calc 2 ^ (n.log2 + 1) ≤ 2 ^ (digitCount n - 1) := Nat.pow_le_pow_right two_pos (by omega)
      _ ≤ 10 ^ (digitCount n - 1) := Nat.pow_le_pow_left (by norm_num) _
  omega

/-- A decimal is read as the binary64 number nearest to it. -/
theorem denotes_toFloat (d : Decimal) : Denotes d.toFloat (nearestValue d.value) := by
  unfold toFloat
  rcases Nat.eq_zero_or_pos d.coefficient with hzero | hpos
  · have hvalue : d.value = 0 := by
      rw [value, hzero, Nat.cast_zero, zero_mul]
    rw [if_pos (.inl hzero), hvalue, EReal.coe_zero, Binary64.nearestValue_zero]
    exact ⟨rfl, rfl⟩
  by_cases hsmall : d.pointPlace < -330
  · have hlt : d.value < 2 ^ (-1075 : ℤ) :=
      calc d.value < 10 ^ d.pointPlace := d.value_lt_pow
        _ ≤ 10 ^ (-330 : ℤ) := zpow_le_zpow_right₀ (by norm_num) hsmall.le
        _ ≤ 2 ^ (-1075 : ℤ) := by
          rw [zpow_neg, zpow_neg]
          refine inv_anti₀ (by positivity) ?_
          exact_mod_cast show (2 : ℕ) ^ 1075 ≤ 10 ^ 330 by decide +kernel
    rw [if_pos (.inr hsmall), Binary64.nearestValue_of_lt d.value_nonneg hlt]
    exact ⟨rfl, rfl⟩
  rw [if_neg (by omega)]
  by_cases hlarge : 310 < d.pointPlace
  · have hle : 2 ^ 1024 ≤ d.value :=
      calc (2 : ℝ) ^ 1024 ≤ 10 ^ (310 : ℤ) := by
            exact_mod_cast show (2 : ℕ) ^ 1024 ≤ 10 ^ 310 by decide +kernel
        _ ≤ 10 ^ (d.pointPlace - 1) := zpow_le_zpow_right₀ (by norm_num) (by omega)
        _ ≤ d.value := pow_le_value hpos
    rw [if_pos hlarge, Binary64.nearestValue_of_le hle]
    exact ⟨rfl, rfl⟩
  · rw [if_neg hlarge]
    have hcount := digitCount_le hpos
    have hcount' := digitCount_pos d.coefficient
    unfold pointPlace at hsmall hlarge
    refine Binary64.denotes_ofScientific hpos ?_ (by omega) (by omega)
    by_cases hexp : d.exponent < 0
    · rw [decide_eq_true hexp, if_pos rfl]
      omega
    · rw [decide_eq_false hexp, if_neg Bool.false_ne_true]
      omega

end Decimal

end PhraseStructure
