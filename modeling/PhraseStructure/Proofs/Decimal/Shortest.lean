import PhraseStructure.Proofs.Binary64.Fields
import PhraseStructure.Proofs.Decimal.Positional

/-!
# The shortest decimal rounds back

The shortest decimal of a number lies in the number's rounding interval, because seventeen digits
always reach into it, and all reals in the interval have the number as their nearest one.
-/

namespace PhraseStructure

namespace Decimal

theorem value_eq_div (d : Decimal) :
    d.value = (d.coefficient * 10 ^ d.exponent.toNat : ℕ) / (10 ^ (-d.exponent).toNat : ℕ) := by
  have hexp : d.exponent = d.exponent.toNat - (-d.exponent).toNat := by omega
  conv_lhs => rw [value, hexp, zpow_sub₀ (by norm_num), zpow_natCast, zpow_natCast]
  push_cast
  rw [mul_div_assoc]

/-- Zeros at the end of the coefficient move into the exponent. -/
theorem value_trimmed (d : Decimal) : d.trimmed.value = d.value := by
  fun_induction trimmed d with
  | case1 d hzero => simp [value, hzero]
  | case2 d hpos hzero ih =>
    have hten : d.coefficient = d.coefficient / 10 * 10 := by omega
    rw [ih]
    unfold value
    dsimp only
    conv_rhs => rw [hten]
    rw [zpow_add₀ (by norm_num)]
    push_cast
    ring
  | case3 => rfl

end Decimal

namespace RoundingInterval

open Decimal (value_eq_div digitCount)

/-! ## The interval in the reals -/

/-- The reals of the interval. -/
def Encloses (i : RoundingInterval) (x : ℝ) : Prop :=
  (i.low / i.denominator : ℝ) ≤ x ∧ x ≤ i.high / i.denominator ∧
    (i.closed = false → (i.low / i.denominator : ℝ) < x ∧ x < i.high / i.denominator)

variable {i : RoundingInterval}

theorem contains_iff (hden : 0 < i.denominator) (d : Decimal) :
    i.contains d = true ↔ i.Encloses d.value := by
  have hunit : 0 < Nat.pow 10 (-d.exponent).toNat := Nat.pow_pos (by norm_num)
  have hle : ∀ n : ℕ, (n / i.denominator : ℝ) ≤ d.value ↔
      n * Nat.pow 10 (-d.exponent).toNat ≤
        d.coefficient * Nat.pow 10 d.exponent.toNat * i.denominator := by
    intro n
    rw [value_eq_div, div_le_div_iff₀ (Nat.cast_pos.2 hden) (Nat.cast_pos.2 hunit)]
    exact_mod_cast Iff.rfl
  have hge : ∀ n : ℕ, d.value ≤ n / i.denominator ↔
      d.coefficient * Nat.pow 10 d.exponent.toNat * i.denominator ≤
        n * Nat.pow 10 (-d.exponent).toNat := by
    intro n
    rw [value_eq_div, div_le_div_iff₀ (Nat.cast_pos.2 hunit) (Nat.cast_pos.2 hden)]
    exact_mod_cast Iff.rfl
  unfold contains Encloses
  rw [← not_le, ← not_le, hle, hge, hle, hge]
  cases i.closed with
  | true => simp
  | false =>
    simp only [Bool.false_eq_true, if_false, Bool.and_eq_true, decide_eq_true_eq, forall_const]
    omega

theorem Encloses.of_lt {x : ℝ} (hlow : (i.low / i.denominator : ℝ) < x)
    (hhigh : x < i.high / i.denominator) : i.Encloses x :=
  ⟨hlow.le, hhigh.le, fun _ => ⟨hlow, hhigh⟩⟩

/-! ## Decimals below the value -/

/-- The power of ten of the first digit is at most the value. -/
theorem pow_leadingExponent_le (hvalue : 0 < i.value) (hden : 0 < i.denominator) :
    (10 : ℝ) ^ i.leadingExponent ≤ i.value / i.denominator := by
  have hden' : (0 : ℝ) < i.denominator := Nat.cast_pos.2 hden
  unfold leadingExponent
  split_ifs with hge
  · have hcount := Decimal.digitCount_pos (i.value / i.denominator)
    have hpow := Decimal.pow_digitCount_le (Nat.div_pos hge hden)
    have hexp : (digitCount (i.value / i.denominator) : ℤ) - 1 =
        (digitCount (i.value / i.denominator) - 1 : ℕ) := by omega
    rw [hexp, zpow_natCast, le_div_iff₀ hden']
    exact_mod_cast (Nat.le_div_iff_mul_le hden).1 hpow
  · -- the least whole number that is at least `denominator / value`, less one
    have hlt := Decimal.lt_pow_digitCount ((i.denominator + i.value - 1) / i.value - 1)
    have hceil : (i.denominator + i.value - 1) / i.value ≤
        10 ^ digitCount ((i.denominator + i.value - 1) / i.value - 1) := by omega
    have hle : i.denominator ≤
        i.value * 10 ^ digitCount ((i.denominator + i.value - 1) / i.value - 1) := by
      have := (Nat.div_le_iff_le_mul_add_pred hvalue).1 hceil
      omega
    rw [zpow_neg, zpow_natCast, inv_eq_one_div, div_le_div_iff₀ (by positivity) hden', one_mul]
    exact_mod_cast hle

theorem floorAt_bounds (hden : 0 < i.denominator) (e : ℤ) :
    Decimal.value ⟨i.floorAt e, e⟩ ≤ i.value / i.denominator ∧
      (i.value / i.denominator : ℝ) < Decimal.value ⟨i.floorAt e + 1, e⟩ := by
  have hunit : 0 < i.denominator * Nat.pow 10 e.toNat :=
    Nat.mul_pos hden (Nat.pow_pos (by norm_num))
  have hdown : (0 : ℝ) < (10 ^ (-e).toNat : ℕ) := by positivity
  have hden' : (0 : ℝ) < i.denominator := Nat.cast_pos.2 hden
  constructor
  · rw [value_eq_div, div_le_div_iff₀ hdown hden']
    have hle : i.floorAt e * (i.denominator * 10 ^ e.toNat) ≤ i.value * 10 ^ (-e).toNat :=
      Nat.div_mul_le_self _ _
    rw [mul_comm i.denominator, ← mul_assoc] at hle
    exact_mod_cast hle
  · rw [value_eq_div, div_lt_div_iff₀ hden' hdown]
    have hlt : i.value * 10 ^ (-e).toNat < i.denominator * 10 ^ e.toNat * (i.floorAt e + 1) :=
      Nat.lt_mul_div_succ _ hunit
    rw [mul_comm _ (i.floorAt e + 1), mul_comm i.denominator, ← mul_assoc] at hlt
    exact_mod_cast hlt

/-! ## The search -/

theorem contains_of_nearestAt {e : ℤ} {d : Decimal} (h : i.nearestAt e = some d) :
    i.contains d = true := by
  unfold nearestAt at h
  dsimp only at h
  split at h
  next hbelow habove =>
    obtain rfl := Option.some.inj h
    split
    · exact hbelow
    · exact habove
  next hbelow _ => exact Option.some.inj h ▸ hbelow
  next _ habove => exact Option.some.inj h ▸ habove
  next => cases h

/-- A decimal is found at each exponent whose power of ten is less than the interval's width. -/
theorem nearestAt_ne_none (hden : 0 < i.denominator) {e : ℤ}
    (hlow : i.low < i.value) (hhigh : i.value < i.high)
    (hwidth : (10 : ℝ) ^ e < i.high / i.denominator - i.low / i.denominator) :
    i.nearestAt e ≠ none := by
  have hden' : (0 : ℝ) < i.denominator := Nat.cast_pos.2 hden
  have hlow' : (i.low / i.denominator : ℝ) < i.value / i.denominator :=
    div_lt_div_of_pos_right (by exact_mod_cast hlow) hden'
  have hhigh' : (i.value / i.denominator : ℝ) < i.high / i.denominator :=
    div_lt_div_of_pos_right (by exact_mod_cast hhigh) hden'
  obtain ⟨hbelow, habove⟩ := i.floorAt_bounds hden e
  have hstep : Decimal.value ⟨i.floorAt e + 1, e⟩ = Decimal.value ⟨i.floorAt e, e⟩ + 10 ^ e := by
    unfold Decimal.value
    push_cast
    ring
  have hor : i.contains ⟨i.floorAt e, e⟩ = true ∨ i.contains ⟨i.floorAt e + 1, e⟩ = true := by
    rw [contains_iff hden, contains_iff hden]
    by_cases h : (i.low / i.denominator : ℝ) < Decimal.value ⟨i.floorAt e, e⟩
    · exact .inl (.of_lt h (by linarith))
    · exact .inr (.of_lt (by linarith) (by linarith))
  unfold nearestAt
  dsimp only
  split
  next => exact Option.some_ne_none _
  next => exact Option.some_ne_none _
  next => exact Option.some_ne_none _
  next hbelow habove => simp [hbelow, habove] at hor

/-- The shortest decimal lies in the interval if seventeen digits reach into it. -/
theorem encloses_shortest (hden : 0 < i.denominator) (hlow : i.low < i.value)
    (hhigh : i.value < i.high)
    (hwidth : (10 : ℝ) ^ (i.leadingExponent - 16) <
      i.high / i.denominator - i.low / i.denominator) :
    i.Encloses i.shortest.value := by
  unfold shortest
  dsimp only
  rw [Decimal.value_trimmed, ← contains_iff hden]
  cases hfind : (List.range 17).findSome? fun count : ℕ =>
      i.nearestAt (i.leadingExponent - count) with
  | none =>
    have hnone := List.findSome?_eq_none_iff.1 hfind 16 (by decide)
    exact absurd hnone (nearestAt_ne_none hden hlow hhigh hwidth)
  | some d =>
    obtain ⟨count, -, hnearest⟩ := List.exists_of_findSome?_eq_some hfind
    exact contains_of_nearestAt hnearest

/-! ## The interval of a binary number -/

section OfBinary

variable {b : Binary}

theorem quarter_div (n : ℕ) (e : ℤ) :
    ((n * Nat.pow 2 e.toNat : ℕ) / (4 * Nat.pow 2 (-e).toNat : ℕ) : ℝ) = n / 4 * 2 ^ e := by
  have hexp : e = e.toNat - (-e).toNat := by omega
  conv_rhs => rw [hexp, zpow_sub₀ (by norm_num), zpow_natCast, zpow_natCast, div_mul_div_comm]
  show ((n * 2 ^ e.toNat : ℕ) / (4 * 2 ^ (-e).toNat : ℕ) : ℝ) = _
  push_cast
  rfl

theorem denominator_ofBinary_pos : 0 < (ofBinary b).denominator :=
  Nat.mul_pos (by norm_num) (Nat.pow_pos (by norm_num))

theorem value_ofBinary :
    ((ofBinary b).value / (ofBinary b).denominator : ℝ) = b.value := by
  unfold ofBinary Binary.value
  dsimp only
  rw [quarter_div]
  push_cast
  ring

theorem high_ofBinary :
    ((ofBinary b).high / (ofBinary b).denominator : ℝ) = (b.mantissa + 1 / 2) * 2 ^ b.exponent := by
  unfold ofBinary
  dsimp only
  rw [quarter_div]
  push_cast
  ring

theorem low_ofBinary (h : 0 < b.mantissa) :
    ((ofBinary b).low / (ofBinary b).denominator : ℝ) =
      (b.mantissa - if b.binadeStart then 1 / 4 else 1 / 2) * 2 ^ b.exponent := by
  unfold ofBinary
  dsimp only
  rw [quarter_div, Nat.cast_sub (by split <;> omega)]
  split_ifs <;> push_cast <;> ring

theorem encloses_shortest_ofBinary (hb : b.IsPositive) :
    (ofBinary b).Encloses (ofBinary b).shortest.value := by
  obtain ⟨h, ⟨hlt, -⟩, hstart⟩ := hb
  have hden := @denominator_ofBinary_pos b
  have hunit : 0 < Nat.pow 2 b.exponent.toNat := Nat.pow_pos (by norm_num)
  have hvalue : 0 < (ofBinary b).value := Nat.mul_pos (by omega) hunit
  refine encloses_shortest hden ?_ ?_ ?_
  · exact Nat.mul_lt_mul_of_pos_right (by split <;> omega) hunit
  · exact Nat.mul_lt_mul_of_pos_right (by omega) hunit
  · have hlead := pow_leadingExponent_le hvalue hden
    have hpow := Binary64.two_zpow_pos b.exponent
    have hmantissa : (b.mantissa : ℝ) + 1 ≤ 2 ^ 53 := by exact_mod_cast hlt
    have hspacing : (10 : ℝ) ^ ((ofBinary b).leadingExponent - 16) * 10 ^ 16 ≤ b.value := by
      rw [← value_ofBinary]
      calc _ = (10 : ℝ) ^ (ofBinary b).leadingExponent := by
            rw [zpow_sub₀ (by norm_num)]
            norm_num
        _ ≤ _ := hlead
    unfold Binary.value at hspacing
    rw [high_ofBinary, low_ofBinary h, ← sub_mul]
    generalize (10 : ℝ) ^ ((ofBinary b).leadingExponent - 16) = spacing at hspacing
    split_ifs with hbinade
    · rw [(hstart.1 hbinade).1] at hspacing ⊢
      push_cast at hspacing ⊢
      linarith
    · nlinarith

theorem Encloses.units (h : 0 < b.mantissa) {y : ℝ}
    (hy : (ofBinary b).Encloses (y * 2 ^ b.exponent)) :
    b.mantissa - (if b.binadeStart then 1 / 4 else 1 / 2) ≤ y ∧ y ≤ b.mantissa + 1 / 2 ∧
      (b.mantissa % 2 = 1 → b.mantissa - (if b.binadeStart then 1 / 4 else 1 / 2) < y ∧
        y < b.mantissa + 1 / 2) := by
  have hunit := Binary64.two_zpow_pos b.exponent
  obtain ⟨hlow, hhigh, hopen⟩ := hy
  rw [low_ofBinary h] at hlow hopen
  rw [high_ofBinary] at hhigh hopen
  simp only [mul_le_mul_iff_of_pos_right hunit, mul_lt_mul_iff_of_pos_right hunit]
    at hlow hhigh hopen
  refine ⟨hlow, hhigh, ?_⟩
  intro hodd
  exact hopen (decide_eq_false (by omega))

end OfBinary

end RoundingInterval

/-! ## Rounding -/

namespace Binary64

/-- Within half a unit the nearest number is found again, at the ends if it is even. -/
theorem nearest_eq {m : ℕ} {x : ℝ} (hx : 0 ≤ x) (hlow : (m : ℝ) - 1 / 2 ≤ x)
    (hhigh : x ≤ m + 1 / 2) (hopen : m % 2 = 1 → (m : ℝ) - 1 / 2 < x ∧ x < m + 1 / 2) :
    nearest x = m := by
  unfold nearest
  rcases lt_or_ge x m with hlt | hge
  · -- below the number the floor is its predecessor
    obtain ⟨k, rfl⟩ := Nat.exists_eq_succ_of_ne_zero (Nat.cast_pos.1 (hx.trans_lt hlt)).ne'
    push_cast at hlow hhigh hopen hlt
    have hfloor : ⌊x⌋₊ = k := (Nat.floor_eq_iff hx).2 ⟨by linarith, by linarith⟩
    rw [hfloor, if_neg (by linarith)]
    split_ifs with hhalf
    · rfl
    · by_contra hne
      have := (hopen (by omega)).1
      linarith
  · have hfloor : ⌊x⌋₊ = m := (Nat.floor_eq_iff hx).2 ⟨hge, by linarith⟩
    rw [hfloor, if_neg (show ¬1 / 2 < x - m by linarith)]
    split_ifs with hhalf
    · rfl
    · by_contra hne
      have := (hopen (by omega)).2
      linarith

theorem unitExponent_mul_zpow {y : ℝ} {e : ℤ} (hy : 0 < y) (hlt : y < 2 ^ 53)
    (hle : 2 ^ 52 ≤ y ∨ e = -1074) (he : -1074 ≤ e) : unitExponent (y * 2 ^ e) = e := by
  have hsplit : ∀ k : ℕ, (2 : ℝ) ^ (k + e) = 2 ^ k * 2 ^ e := by
    intro k
    rw [zpow_add₀ (by norm_num), zpow_natCast]
  have hupper : Int.log 2 (y * 2 ^ e) < 53 + e := by
    rw [← zpow_lt_zpow_iff_right₀ (one_lt_two : (1 : ℝ) < 2)]
    refine (two_zpow_log_le (mul_pos hy (two_zpow_pos e))).trans_lt ?_
    exact (mul_lt_mul_of_pos_right hlt (two_zpow_pos e)).trans_eq (hsplit 53).symm
  unfold unitExponent
  rcases hle with hle | rfl
  · have hlower : 52 + e < Int.log 2 (y * 2 ^ e) + 1 := by
      rw [← zpow_lt_zpow_iff_right₀ (one_lt_two : (1 : ℝ) < 2)]
      refine lt_of_le_of_lt ?_ (lt_two_zpow_log_add_one _)
      exact (hsplit 52).trans_le (mul_le_mul_of_nonneg_right hle (two_zpow_pos e).le)
    omega
  · omega

/-- A real within half a unit of a mantissa is rounded to it. -/
theorem rounded_mul_zpow {m : ℕ} {y : ℝ} {e : ℤ} (hy : 0 < y) (hlt : y < 2 ^ 53)
    (hle : 2 ^ 52 ≤ y ∨ e = -1074) (he : -1074 ≤ e) (hlow : (m : ℝ) - 1 / 2 ≤ y)
    (hhigh : y ≤ m + 1 / 2) (hopen : m % 2 = 1 → (m : ℝ) - 1 / 2 < y ∧ y < m + 1 / 2) :
    rounded (y * 2 ^ e) = m * 2 ^ e := by
  unfold rounded
  rw [unitExponent_mul_zpow hy hlt hle he, mul_div_cancel_right₀ _ (two_zpow_pos e).ne',
    nearest_eq hy.le hlow hhigh hopen]

/-- The last quarter of a unit below a power of two is half a unit of the binade below. -/
theorem rounded_mul_zpow_of_lt {y : ℝ} {e : ℤ} (he : -1074 < e) (hlow : 2 ^ 52 - 1 / 4 ≤ y)
    (hlt : y < 2 ^ 52) : rounded (y * 2 ^ e) = 2 ^ 52 * 2 ^ e := by
  have hhalf : (2 : ℝ) ^ e = 2 * 2 ^ (e - 1) := by
    rw [zpow_sub_one₀ (by norm_num)]
    ring
  have hrounded : rounded (y * 2 * 2 ^ (e - 1)) = (2 ^ 53 : ℕ) * 2 ^ (e - 1) := by
    apply rounded_mul_zpow (by linarith) (by linarith) (.inl (by linarith)) (by omega)
    · push_cast
      linarith
    · push_cast
      linarith
    · norm_num
  rw [hhalf, ← mul_assoc, hrounded]
  norm_num
  ring

end Binary64

/-- Every real of a number's interval is rounded to the number. -/
theorem RoundingInterval.Encloses.rounded_eq {b : Binary} {x : ℝ} (hb : b.IsPositive)
    (hx : (RoundingInterval.ofBinary b).Encloses x) : Binary64.rounded x = b.value := by
  obtain ⟨hpos, ⟨hlt, hbottom, hnormal⟩, hstart⟩ := hb
  have hmantissa : (b.mantissa : ℝ) + 1 ≤ 2 ^ 53 := by exact_mod_cast hlt
  have hone : (1 : ℝ) ≤ b.mantissa := by exact_mod_cast hpos
  obtain ⟨y, rfl⟩ : ∃ y, x = y * 2 ^ b.exponent := ⟨x / 2 ^ b.exponent, by field_simp⟩
  obtain ⟨hlow, hhigh, hopen⟩ := hx.units hpos
  have hy : (b.mantissa : ℝ) - 1 / 2 ≤ y := hlow.trans' (by split_ifs <;> linarith)
  by_cases hbinade : 2 ^ 52 ≤ y ∨ b.exponent = -1074
  · refine Binary64.rounded_mul_zpow (by linarith) (by linarith) hbinade hbottom hy hhigh ?_
    intro h
    obtain ⟨hlow, hhigh⟩ := hopen h
    exact ⟨hlow.trans_le' (by split_ifs <;> linarith), hhigh⟩
  · -- only the interval of a power of two reaches into the binade below
    obtain ⟨hsmall, hexponent⟩ := not_or.1 hbinade
    have hfirst : b.mantissa = 2 ^ 52 := by
      have hle : 2 ^ 52 ≤ b.mantissa := hnormal.resolve_right hexponent
      have hge : (b.mantissa : ℝ) < (2 ^ 52 + 1 : ℕ) := by
        push_cast
        linarith
      have := Nat.cast_lt.1 hge
      omega
    have habove : -1074 < b.exponent := lt_of_le_of_ne hbottom (Ne.symm hexponent)
    rw [if_pos (hstart.2 ⟨hfirst, habove⟩), hfirst, Nat.cast_pow, Nat.cast_ofNat] at hlow
    rw [Binary64.rounded_mul_zpow_of_lt habove hlow (not_le.1 hsmall), Binary.value, hfirst,
      Nat.cast_pow, Nat.cast_ofNat]

theorem RoundingInterval.rounded_shortest {b : Binary} (hb : b.IsPositive) :
    Binary64.rounded (RoundingInterval.ofBinary b).shortest.value = b.value :=
  (encloses_shortest_ofBinary hb).rounded_eq hb

end PhraseStructure
