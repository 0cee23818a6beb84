import PhraseStructure.Proofs.Binary64.Fields
import PhraseStructure.Proofs.Binary64.Halvings

/-!
# Scaling by a power of two

Among the normal numbers a power of two moves the exponent and nothing else, so rounding commutes
with it (`rounded_mul_two_zpow`). Where two numbers and their scaled copies are all zero or normal,
the copies' sum is the scaled sum (`Scaled.add`), their quotient is the same number
(`Scaled.div_eq_div`), and a part of one is compared with the other as it was
(`Scaled.mul_le_iff`).
-/

namespace PhraseStructure.Binary64

open Float.Model (Format UnpackedFloat)
open Float.Model.UnpackedFloat

/-! ## Rounding scaled reals -/

theorem log_mul_zpow {r : ℝ} (hr : 0 < r) (k : ℤ) :
    Int.log 2 (r * 2 ^ k) = Int.log 2 r + k := by
  apply log_eq_of_le_of_lt
  · rw [zpow_add₀ two_ne_zero]
    exact mul_le_mul_of_nonneg_right (two_zpow_log_le hr) (two_zpow_pos k).le
  · rw [add_right_comm, zpow_add₀ two_ne_zero]
    exact mul_lt_mul_of_pos_right (lt_two_zpow_log_add_one r) (two_zpow_pos k)

/-- The exponent of a normal number is not the least one, or only just. -/
theorem unitExponent_of_le {r : ℝ} (h : (2 : ℝ) ^ (-1022 : ℤ) ≤ r) :
    unitExponent r = Int.log 2 r - 52 := by
  have hr : 0 < r := (two_zpow_pos _).trans_le h
  have hlog : -1022 ≤ Int.log 2 r := (Int.zpow_le_iff_le_log one_lt_two hr).1 (by exact_mod_cast h)
  unfold unitExponent
  omega

/-- Rounding commutes with a power of two as long as both numbers are normal. -/
theorem rounded_mul_two_zpow {r : ℝ} {k : ℤ} (h : (2 : ℝ) ^ (-1022 : ℤ) ≤ r)
    (h' : (2 : ℝ) ^ (-1022 : ℤ) ≤ r * 2 ^ k) : rounded (r * 2 ^ k) = rounded r * 2 ^ k := by
  have hr : 0 < r := (two_zpow_pos _).trans_le h
  have hunit : unitExponent (r * 2 ^ k) = unitExponent r + k := by
    rw [unitExponent_of_le h, unitExponent_of_le h', log_mul_zpow hr]
    ring
  unfold rounded
  rw [hunit, zpow_add₀ two_ne_zero, mul_div_mul_right _ _ (two_zpow_pos k).ne', mul_assoc]

theorem rounded_le_two_mul {r : ℝ} (h : (2 : ℝ) ^ (-1074 : ℤ) ≤ r) : rounded r ≤ 2 * r := by
  have hr : 0 < r := (two_zpow_pos _).trans_le h
  have hlog : -1074 ≤ Int.log 2 r := (Int.zpow_le_iff_le_log one_lt_two hr).1 (by exact_mod_cast h)
  calc rounded r ≤ rounded (2 ^ (Int.log 2 r + 1)) :=
        rounded_mono hr.le (lt_two_zpow_log_add_one r).le
    _ = 2 ^ Int.log 2 r * 2 := by
        rw [rounded_two_zpow (by omega), zpow_add_one₀ two_ne_zero]
    _ ≤ 2 * r := by
        rw [mul_comm]
        exact mul_le_mul_of_nonneg_left (two_zpow_log_le hr) zero_le_two

/-- A rounded number is compared with a binary64 number alike before and after scaling. If the
number lies above the bound, rounding commutes with the power of two, and otherwise neither of the
two comparisons can fail. -/
theorem rounded_mul_two_zpow_le_iff {r q : ℝ} {k : ℤ}
    (hr : r = 0 ∨ (2 : ℝ) ^ (-1022 : ℤ) ≤ rounded r ∧ (2 : ℝ) ^ (-1022 : ℤ) ≤ rounded r * 2 ^ k)
    (hq : q = 0 ∨ (2 : ℝ) ^ (-1022 : ℤ) ≤ q ∧ (2 : ℝ) ^ (-1022 : ℤ) ≤ q * 2 ^ k) (hnonneg : 0 ≤ r)
    (hround : rounded q = q) (hround' : rounded (q * 2 ^ k) = q * 2 ^ k) :
    rounded (r * 2 ^ k) ≤ q * 2 ^ k ↔ rounded r ≤ q := by
  have hpos := two_zpow_pos k
  by_cases hle : r ≤ q
  · have hbelow := rounded_mono hnonneg hle
    have hbelow' := rounded_mono (mul_nonneg hnonneg hpos.le)
      (mul_le_mul_of_nonneg_right hle hpos.le)
    rw [hround] at hbelow
    rw [hround'] at hbelow'
    exact iff_of_true hbelow' hbelow
  rcases hr with rfl | ⟨hnormal, hnormal'⟩
  · exfalso
    rcases hq with rfl | ⟨hq, -⟩
    · exact hle le_rfl
    · exact hle ((two_zpow_pos _).le.trans hq)
  rcases hq with rfl | ⟨hq, hq'⟩
  · -- the scaled number is not normal, perhaps, but it does not round to zero
    have hleast : (2 : ℝ) ^ (-1074 : ℤ) ≤ r := by
      by_contra hsmall
      have htiny := hnormal.trans (rounded_mono hnonneg (not_le.1 hsmall).le)
      rw [rounded_two_zpow le_rfl, zpow_le_zpow_iff_right₀ one_lt_two] at htiny
      omega
    have hscaled : (2 : ℝ) ^ (-1023 : ℤ) ≤ r * 2 ^ k := by
      have hdouble : (2 : ℝ) ^ (-1022 : ℤ) = 2 ^ (-1023 : ℤ) * 2 :=
        zpow_add_one₀ two_ne_zero (-1023)
      have hbound := mul_le_mul_of_nonneg_right (rounded_le_two_mul hleast) hpos.le
      linarith
    have hround := rounded_mono (two_zpow_pos _).le hscaled
    rw [rounded_two_zpow (by norm_num)] at hround
    rw [zero_mul]
    exact iff_of_false (not_le.2 ((two_zpow_pos _).trans_le hround))
      (not_le.2 ((two_zpow_pos _).trans_le hnormal))
  · have habove := (not_le.1 hle).le
    rw [rounded_mul_two_zpow (hq.trans habove)
      (hq'.trans (mul_le_mul_of_nonneg_right habove hpos.le))]
    exact mul_le_mul_iff_of_pos_right hpos

/-! ## Values of finite numbers -/

theorem Denotes.rounded_eq {x : Float} {a : ℝ} (hx : Denotes x a) (ha : 0 ≤ a) :
    rounded a = a ∧ a < 2 ^ 1024 :=
  nearestValue_eq_coe_iff.1 (hx.nearestValue_eq (EReal.coe_nonneg.2 ha))

theorem Denotes.mul_pos {x y : Float} {a b : ℝ} (hx : Denotes x a) (hy : Denotes y b) (ha : 0 ≤ a)
    (hb : 0 ≤ b) (h : (2 : ℝ) ^ (-1074 : ℤ) ≤ a * b) : 0.0 < x * y := by
  have hleast := @nearestValue_natCast_mul_zpow 1 (-1074) (by norm_num) le_rfl (by norm_num)
  rw [Nat.cast_one, one_mul] at hleast
  have hmono := nearestValue_mono (EReal.coe_nonneg.2 (two_zpow_pos (-1074)).le)
    (EReal.coe_le_coe_iff.2 h)
  rw [hleast] at hmono
  exact (hx.mul hy ha hb).zero_lt_iff.2
    ((EReal.coe_pos.2 (two_zpow_pos (-1074))).trans_le hmono)

/-- Whether a rounded number is at most a finite one is settled before infinity matters. -/
theorem nearestValue_le_coe_iff {r c : ℝ} (hc : c < 2 ^ 1024) :
    nearestValue r ≤ c ↔ rounded r ≤ c := by
  rw [nearestValue_coe]
  split_ifs with h
  · exact EReal.coe_le_coe_iff
  · constructor
    · intro htop
      exact absurd (top_le_iff.1 htop) (EReal.coe_ne_top c)
    · intro hle
      exact absurd (hle.trans_lt hc) h

/-! ## Exact scaling -/

def leastNormal : Float := Float.ofBits 0x0010000000000000

/-- A finite number with a full mantissa. -/
def IsNormal (x : Float) : Prop := x.isFinite = true ∧ leastNormal ≤ x

def IsPowerOfTwo (s : Float) : Prop := ∃ k : ℤ, Denotes s (powerOfTwo k)

/-- Multiplying a number that is not negative by `s` needs no rounding and does not leave the
normal numbers, zero aside. -/
def ScalesExactly (s x : Float) : Prop :=
  x ≤ 0.0 ∨ IsNormal x ∧ IsNormal (x * s) ∧ value (x * s) = value x * value s

/-- The second number is the first one times `2 ^ k`, and both are zero or both are normal. -/
def Scaled (k : ℤ) (x y : Float) : Prop :=
  ∃ a : ℝ, Denotes x a ∧ Denotes y (a * powerOfTwo k : ℝ) ∧
    (a = 0 ∨ powerOfTwo (-1022) ≤ a ∧ powerOfTwo (-1022) ≤ a * powerOfTwo k)

theorem denotes_leastNormal : Denotes leastNormal ((2 : ℝ) ^ (-1022 : ℤ) : ℝ) :=
  denotes_two_zpow rfl rfl

theorem isNormal_iff {x : Float} :
    IsNormal x ↔ ∃ a : ℝ, Denotes x a ∧ (2 : ℝ) ^ (-1022 : ℤ) ≤ a := by
  constructor
  · rintro ⟨hfinite, hle⟩
    obtain ⟨a, ha⟩ := exists_denotes_of_isFinite hfinite
    exact ⟨a, ha, EReal.coe_le_coe_iff.1 ((denotes_leastNormal.le_iff ha).1 hle)⟩
  · rintro ⟨a, ha, hle⟩
    exact ⟨ha.isFinite, (denotes_leastNormal.le_iff ha).2 (EReal.coe_le_coe_iff.2 hle)⟩

variable {k : ℤ} {s x x' y y' : Float}

/-- A normal number scales exactly if the product is normal too. -/
theorem scalesExactly_of_normal {a : ℝ} (hs : Denotes s (powerOfTwo k)) (hx : Denotes x a)
    (ha : a = 0 ∨ (2 : ℝ) ^ (-1022 : ℤ) ≤ a ∧ (2 : ℝ) ^ (-1022 : ℤ) ≤ a * 2 ^ k ∧
      a * 2 ^ k < 2 ^ 1024) : ScalesExactly s x := by
  rcases ha with rfl | ⟨hle, hle', hlt⟩
  · exact .inl ((hx.le_iff denotes_zero).2 le_rfl)
  · have hnonneg : 0 ≤ a := (two_zpow_pos _).le.trans hle
    have hround : rounded (a * 2 ^ k) = a * 2 ^ k := by
      rw [rounded_mul_two_zpow hle hle', (hx.rounded_eq hnonneg).1]
    have hprod : Denotes (x * s) (a * 2 ^ k : ℝ) := by
      rw [← nearestValue_eq_coe_iff.2 ⟨hround, hlt⟩]
      exact hx.mul hs hnonneg (two_zpow_pos k).le
    refine .inr ⟨isNormal_iff.2 ⟨a, hx, hle⟩, isNormal_iff.2 ⟨_, hprod, hle'⟩, ?_⟩
    rw [hprod.2, hx.2, hs.2, ← EReal.coe_mul]
    rfl

theorem scalesExactly_of_le {a : ℝ} (hs : Denotes s (powerOfTwo k)) (hlow : -969 ≤ k)
    (hhigh : k ≤ 970) (hx : Denotes x a)
    (ha : a = 0 ∨ (2 : ℝ) ^ (-53 : ℤ) ≤ a ∧ a ≤ 2 ^ (53 : ℤ)) : ScalesExactly s x := by
  refine scalesExactly_of_normal hs hx (ha.imp_right ?_)
  rintro ⟨hle, hge⟩
  refine ⟨?_, ?_, ?_⟩
  · refine le_trans ?_ hle
    rw [zpow_le_zpow_iff_right₀ one_lt_two]
    omega
  · calc (2 : ℝ) ^ (-1022 : ℤ) ≤ 2 ^ (-53 + k) := by
          rw [zpow_le_zpow_iff_right₀ one_lt_two]
          omega
      _ = 2 ^ (-53 : ℤ) * 2 ^ k := zpow_add₀ two_ne_zero _ _
      _ ≤ a * 2 ^ k := mul_le_mul_of_nonneg_right hle (two_zpow_pos k).le
  · calc a * 2 ^ k ≤ 2 ^ (53 : ℤ) * 2 ^ k := mul_le_mul_of_nonneg_right hge (two_zpow_pos k).le
      _ = 2 ^ (53 + k) := (zpow_add₀ two_ne_zero _ _).symm
      _ < 2 ^ (1024 : ℤ) := by
          rw [zpow_lt_zpow_iff_right₀ one_lt_two]
          omega
      _ = 2 ^ 1024 := zpow_natCast 2 1024

theorem Scaled.zero : Scaled k 0.0 0.0 :=
  ⟨0, denotes_zero, by rw [zero_mul]; exact denotes_zero, .inl rfl⟩

theorem ScalesExactly.scaled (h : ScalesExactly s x) (hs : Denotes s (powerOfTwo k))
    (hx : 0.0 ≤ x) : Scaled k x (x * s) := by
  rcases h with hzero | ⟨hnormal, hnormal', hexact⟩
  · obtain ⟨v, hv, hnonneg⟩ := zero_le_iff.1 hx
    obtain rfl : v = (0 : ℝ) := le_antisymm ((hv.le_iff denotes_zero).1 hzero) hnonneg
    have hprod := hv.mul hs le_rfl (two_zpow_pos k).le
    rw [zero_mul, EReal.coe_zero, nearestValue_zero] at hprod
    exact ⟨0, hv, by rwa [zero_mul], .inl rfl⟩
  · obtain ⟨a, ha, hle⟩ := isNormal_iff.1 hnormal
    obtain ⟨b, hb, hle'⟩ := isNormal_iff.1 hnormal'
    rw [hb.2, ha.2, hs.2, ← EReal.coe_mul, EReal.coe_eq_coe_iff] at hexact
    exact ⟨a, ha, hexact ▸ hb, .inr ⟨hle, hexact ▸ hle'⟩⟩

theorem nearestValue_mul_two_zpow {r c : ℝ}
    (hr : r = 0 ∨ (2 : ℝ) ^ (-1022 : ℤ) ≤ r ∧ (2 : ℝ) ^ (-1022 : ℤ) ≤ r * 2 ^ k)
    (h : nearestValue r = c) (hc : c * 2 ^ k < 2 ^ 1024) :
    nearestValue (r * 2 ^ k : ℝ) = (c * 2 ^ k : ℝ) := by
  have hround := (nearestValue_eq_coe_iff.1 h).1
  refine nearestValue_eq_coe_iff.2 ⟨?_, hc⟩
  rcases hr with rfl | ⟨hr, hr'⟩
  · rw [← hround, zero_mul, rounded_zero, zero_mul]
  · rw [rounded_mul_two_zpow hr hr', hround]

theorem nonneg_of_zero_or_normal {a : ℝ}
    (h : a = 0 ∨ powerOfTwo (-1022) ≤ a ∧ powerOfTwo (-1022) ≤ a * powerOfTwo k) : 0 ≤ a := by
  rcases h with rfl | ⟨hle, -⟩
  · exact le_rfl
  · exact (two_zpow_pos _).le.trans hle

theorem Scaled.zero_lt_iff (h : Scaled k x y) : 0.0 < y ↔ 0.0 < x := by
  obtain ⟨a, ha, hb, -⟩ := h
  rw [ha.zero_lt_iff, hb.zero_lt_iff, EReal.coe_pos, EReal.coe_pos]
  exact mul_pos_iff_of_pos_right (two_zpow_pos k)

theorem Scaled.add (hx : Scaled k x x') (hy : Scaled k y y') (hs : Denotes s (powerOfTwo k))
    (hexact : ScalesExactly s (x + y)) : Scaled k (x + y) (x' + y') := by
  obtain ⟨a, ha, ha', hna⟩ := hx
  obtain ⟨b, hb, hb', hnb⟩ := hy
  have hpos : 0 < powerOfTwo k := two_zpow_pos k
  have hnonneg := nonneg_of_zero_or_normal hna
  have hnonneg' := nonneg_of_zero_or_normal hnb
  have hsum := ha.add hb (EReal.coe_nonneg.2 hnonneg) (EReal.coe_nonneg.2 hnonneg')
  have hsum' := ha'.add hb' (EReal.coe_nonneg.2 (mul_nonneg hnonneg hpos.le))
    (EReal.coe_nonneg.2 (mul_nonneg hnonneg' hpos.le))
  rw [← EReal.coe_add] at hsum hsum'
  rw [← add_mul] at hsum'
  have hle : 0.0 ≤ x + y := (Binary64.le_add
    (zero_le_iff.2 ⟨a, ha, EReal.coe_nonneg.2 hnonneg⟩)
    (zero_le_iff.2 ⟨b, hb, EReal.coe_nonneg.2 hnonneg'⟩)).1
  obtain ⟨c, hc, hc', hnc⟩ := hexact.scaled hs hle
  have hnormal : a + b = 0 ∨
      powerOfTwo (-1022) ≤ a + b ∧ powerOfTwo (-1022) ≤ (a + b) * powerOfTwo k := by
    rw [add_mul]
    rcases hna with rfl | ⟨hna, hna'⟩ <;> rcases hnb with rfl | ⟨hnb, hnb'⟩
    · exact .inl (add_zero 0)
    · exact .inr ⟨by linarith, by linarith⟩
    · exact .inr ⟨by linarith, by linarith⟩
    · exact .inr ⟨by linarith, by nlinarith⟩
  have hlt := (hc'.rounded_eq (mul_nonneg (nonneg_of_zero_or_normal hnc) hpos.le)).2
  have hvalue := nearestValue_mul_two_zpow hnormal (hsum.2.symm.trans hc.2) hlt
  exact ⟨c, hc, ⟨hsum'.1, hsum'.2.trans hvalue⟩, hnc⟩

theorem Stores.unique {u v : UnpackedFloat} {sign : Sign} {r r' : ℝ} (hu : Stores u sign r)
    (hv : Stores v sign r') (h : r = r') : u = v := by
  cases hu with
  | zero =>
    cases hv with
    | zero => rfl
    | finite hcanon =>
      rename_i n f hn
      exact absurd h (mul_pos (Nat.cast_pos.2 hn) (two_zpow_pos f)).ne
  | finite hcanon =>
    rename_i m e hm
    cases hv with
    | zero => exact absurd h (mul_pos (Nat.cast_pos.2 hm) (two_zpow_pos e)).ne'
    | finite hcanon' =>
      obtain ⟨rfl, rfl⟩ := hcanon.inj hcanon' h
      rfl

theorem div_eq_of_unpack {x x' y y' : Float}
    (h : UnpackedFloat.div Format.binary64 x'.toModel.unpack y'.toModel.unpack =
      UnpackedFloat.div Format.binary64 x.toModel.unpack y.toModel.unpack) : x' / y' = x / y := by
  show Float.ofModel (Float.Model.pack _) = Float.ofModel (Float.Model.pack _)
  rw [h]

theorem Denotes.exists_finite {a : ℝ} (hx : Denotes x a) (ha : 0 < a) :
    ∃ m e hm, x.toModel.unpack = .finite .positive m e hm ∧ a = m * 2 ^ e := by
  rcases hx.cases_of_nonneg (EReal.coe_nonneg.2 ha.le) with
    ⟨-, -, hv⟩ | ⟨-, hv⟩ | ⟨m, e, hm, hu, -, -, hv⟩
  · exact absurd (EReal.coe_eq_zero.1 hv) ha.ne'
  · exact absurd hv (EReal.coe_ne_top a)
  · exact ⟨m, e, hm, hu, EReal.coe_eq_coe_iff.1 hv⟩

theorem unpack_mul_of_zero {sign : Sign} {c : ℝ} (hx : x.toModel.unpack = .zero sign)
    (hs : Denotes s c) (hc : 0 < c) : (x * s).toModel.unpack = .zero sign := by
  obtain ⟨m, e, hm, hu, -⟩ := hs.exists_finite hc
  show unpack Format.binary64 (pack Format.binary64
    (UnpackedFloat.mul Format.binary64 x.toModel.unpack s.toModel.unpack)) = _
  rw [hx, hu]
  cases sign <;> exact unpack_pack_zero _

/-- Numbers that are scaled alike have the same quotient, down to the sign of a zero. -/
theorem Scaled.div_eq_div (hy : Scaled k y y') (hpos : 0.0 < y) (hs : Denotes s (powerOfTwo k))
    (hx : 0.0 ≤ x) (hexact : ScalesExactly s x) : x * s / y' = x / y := by
  obtain ⟨a, ha, ha', hna⟩ := hexact.scaled hs hx
  obtain ⟨b, hb, hb', hnb⟩ := hy
  have hp : 0 < powerOfTwo k := two_zpow_pos k
  have hbpos : 0 < b := EReal.coe_pos.1 (hb.zero_lt_iff.1 hpos)
  have hbpos' : 0 < b * powerOfTwo k := mul_pos hbpos hp
  apply div_eq_of_unpack
  obtain ⟨n, f, hn, hy, hvb⟩ := hb.exists_finite hbpos
  obtain ⟨n', f', hn', hy', hvb'⟩ := hb'.exists_finite hbpos'
  rcases ha.cases_of_nonneg (EReal.coe_nonneg.2 (nonneg_of_zero_or_normal hna)) with
    ⟨sign, hzero, -⟩ | ⟨-, hv⟩ | ⟨m, e, hm, hx, -, -, hv⟩
  · rw [unpack_mul_of_zero hzero hs hp, hzero, hy, hy']
    rfl
  · exact absurd hv (EReal.coe_ne_top a)
  · have hva : a = m * 2 ^ e := EReal.coe_eq_coe_iff.1 hv
    have hapos : 0 < a := hva ▸ mul_pos (Nat.cast_pos.2 hm) (two_zpow_pos e)
    obtain ⟨m', e', hm', hx', hva'⟩ := ha'.exists_finite (mul_pos hapos hp)
    rw [hx, hx', hy, hy']
    refine (stores_div hm' hn').unique (stores_div hm hn) (congrArg rounded ?_)
    rw [← hva', ← hvb', ← hva, ← hvb, mul_div_mul_right _ _ hp.ne']

/-- A part of a number is compared with another number as the same part of the scaled number with
the other one scaled. -/
theorem Scaled.mul_le_iff {u : Float} {c : ℝ} (hu : Denotes u c) (hc : 0 ≤ c)
    (hx : Scaled k x x') (hy : Scaled k y y') (hs : Denotes s (powerOfTwo k))
    (hexact : ScalesExactly s (u * x)) (hpos : 0.0 < u → 0.0 < x → 0.0 < u * x) :
    u * x' ≤ y' ↔ u * x ≤ y := by
  obtain ⟨a, ha, ha', hna⟩ := hx
  obtain ⟨b, hb, hb', hnb⟩ := hy
  have hp : 0 < powerOfTwo k := two_zpow_pos k
  have hnonneg := nonneg_of_zero_or_normal hna
  have hnonneg' := nonneg_of_zero_or_normal hnb
  have hpart := hu.mul ha hc hnonneg
  have hpart' := hu.mul ha' hc (mul_nonneg hnonneg hp.le)
  rw [← mul_assoc] at hpart'
  have hround := hb.rounded_eq hnonneg'
  have hround' := hb'.rounded_eq (mul_nonneg hnonneg' hp.le)
  rw [hpart.le_iff hb, hpart'.le_iff hb', nearestValue_le_coe_iff hround.2,
    nearestValue_le_coe_iff hround'.2]
  refine rounded_mul_two_zpow_le_iff ?_ hnb (mul_nonneg hc hnonneg) hround.1 hround'.1
  rcases hc.eq_or_lt with rfl | hcpos
  · exact .inl (zero_mul a)
  rcases hnonneg.eq_or_lt with rfl | hapos
  · exact .inl (mul_zero c)
  · -- no part of a positive number is rounded to zero, so the parts are normal numbers
    have hpartPos := hpos (hu.zero_lt_iff.2 (EReal.coe_pos.2 hcpos))
      (ha.zero_lt_iff.2 (EReal.coe_pos.2 hapos))
    have hpartNonneg := zero_le_iff.2 ⟨_, hpart, (hpart.zero_lt_iff.1 hpartPos).le⟩
    obtain ⟨d, hd, -, hnd⟩ := hexact.scaled hs hpartNonneg
    have hdpos := EReal.coe_pos.1 (hd.zero_lt_iff.1 hpartPos)
    rw [(nearestValue_eq_coe_iff.1 (hpart.2.symm.trans hd.2)).1]
    exact .inr (hnd.resolve_left hdpos.ne')

end PhraseStructure.Binary64
