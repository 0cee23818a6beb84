import PhraseStructure.Proofs.Binary64.Rounding

/-!
# Unpacked numbers

Core's rounding of a mantissa and an exponent with an accuracy is the rounding on the reals: the
accuracy says where a real lies in the unit interval above the mantissa, and shifting the mantissa
halves the real. The result is canonical, and canonical numbers survive packing unless they are too
large.
-/

namespace PhraseStructure.Binary64

open Float.Model Float.Model.UnpackedFloat

/-! ## Accuracies -/

theorem Locates.le_and_lt {m : ℕ} {x : ℝ} {accuracy : Accuracy} (h : Locates m x accuracy) :
    m ≤ x ∧ x < m + 1 := by
  rcases accuracy with _ | _ | _ | _ <;> simp only [Locates] at h <;> constructor <;> linarith

theorem Locates.floor_eq {m : ℕ} {x : ℝ} {accuracy : Accuracy} (h : Locates m x accuracy) :
    ⌊x⌋₊ = m :=
  (Nat.floor_eq_iff (m.cast_nonneg.trans h.le_and_lt.1)).2 h.le_and_lt

theorem Locates.roundToNearestEven_eq {m : ℕ} {x : ℝ} {accuracy : Accuracy}
    (h : Locates m x accuracy) : accuracy.roundToNearestEven m = nearest x := by
  have hfloor := h.floor_eq
  unfold nearest
  rw [hfloor]
  rcases accuracy with _ | _ | _ | _ <;> simp only [Locates] at h <;>
    simp only [Accuracy.roundToNearestEven]
  · rw [if_pos (by linarith)]
  · rw [if_pos (by linarith)]
  · rw [if_neg (by linarith), if_neg (by linarith)]
  · rw [if_neg (by linarith), if_pos (by linarith)]

theorem mantissa_ofMantissaAndAccuracy (m : ℕ) (accuracy : Accuracy) :
    (ExtendedMantissa.ofMantissaAndAccuracy m accuracy).mantissa = m := by
  rcases accuracy with _ | _ | _ | _ <;> rfl

theorem accuracy_ofMantissaAndAccuracy (m : ℕ) (accuracy : Accuracy) :
    (ExtendedMantissa.ofMantissaAndAccuracy m accuracy).accuracy = accuracy := by
  rcases accuracy with _ | _ | _ | _ <;> rfl

theorem Locates.shiftRightOne {em : ExtendedMantissa} {x : ℝ}
    (h : Locates em.mantissa x em.accuracy) :
    Locates em.shiftRightOne.mantissa (x / 2) em.shiftRightOne.accuracy := by
  obtain ⟨m, round, sticky⟩ := em
  have hm : (m : ℝ) = (m % 2 : ℕ) + 2 * (m / 2 : ℕ) := by
    exact_mod_cast (Nat.mod_add_div m 2).symm
  rcases Nat.mod_two_eq_zero_or_one m with hbit | hbit <;> rw [hbit] at hm <;> push_cast at hm <;>
    cases round <;> cases sticky <;>
    simp only [ExtendedMantissa.shiftRightOne, ExtendedMantissa.accuracy, hbit, Locates,
      Bool.or_false, Bool.or_true, bne_self_eq_false, Nat.reduceBNe] at h ⊢ <;>
    first | linarith | (constructor <;> linarith)

theorem Locates.shiftRight {em : ExtendedMantissa} {x : ℝ}
    (h : Locates em.mantissa x em.accuracy) (n : ℕ) :
    Locates (em >>> n).mantissa (x / 2 ^ n) (em >>> n).accuracy := by
  show Locates (n.repeat ExtendedMantissa.shiftRightOne em).mantissa _
    (n.repeat ExtendedMantissa.shiftRightOne em).accuracy
  induction n with
  | zero => simpa only [Nat.repeat, pow_zero, div_one] using h
  | succ n ih =>
    rw [Nat.repeat, pow_succ, ← div_div]
    exact ih.shiftRightOne

/-! ## Rounding to canonical form -/

/-- A mantissa and an exponent as binary64 has them, but for the greatest exponent: 53 digits, or
fewer at the least exponent. -/
def IsCanonical (m : ℕ) (e : ℤ) : Prop :=
  m < 2 ^ 53 ∧ -1074 ≤ e ∧ (2 ^ 52 ≤ m ∨ e = -1074)

/-- An unpacked number in canonical form has this sign and this magnitude. -/
inductive Stores : UnpackedFloat → Sign → ℝ → Prop where
  | zero (sign : Sign) : Stores (.zero sign) sign 0
  | finite {sign : Sign} {m : ℕ} {e : ℤ} {hm : 0 < m} (h : IsCanonical m e) :
    Stores (.finite sign m e hm) sign (m * 2 ^ e)

theorem targetExponent_eq (m : ℕ) (e : ℤ) :
    Format.binary64.targetExponent (totalExponent m e) = max (m.log2 + e - 52) (-1074) := by
  simp only [Format.targetExponent, totalExponent, Format.mantissaBits, Format.minExponent]
  norm_num
  omega

theorem log_mul_two_zpow {m : ℕ} {x : ℝ} (e : ℤ) (hm : m ≠ 0) (hle : m ≤ x) (hlt : x < m + 1) :
    Int.log 2 (x * 2 ^ e) = m.log2 + e := by
  have hlow : (2 : ℝ) ^ (m.log2 : ℤ) ≤ m := by exact_mod_cast Nat.log2_self_le hm
  have hhigh : (m : ℝ) + 1 ≤ 2 ^ ((m.log2 : ℤ) + 1) := by exact_mod_cast Nat.lt_log2_self (n := m)
  apply log_eq_of_le_of_lt
  · rw [zpow_add₀ (by norm_num)]
    exact mul_le_mul_of_nonneg_right (hlow.trans hle) (two_zpow_pos e).le
  · rw [show (m.log2 : ℤ) + e + 1 = m.log2 + 1 + e by ring, zpow_add₀ (by norm_num)]
    exact mul_lt_mul_of_pos_right (hlt.trans_le hhigh) (two_zpow_pos e)

/-- Core's target exponent is that of the rounding, if the mantissa has enough digits. -/
theorem Locates.unitExponent_eq {m : ℕ} {x : ℝ} {accuracy : Accuracy} {e : ℤ}
    (h : Locates m x accuracy) (hx : 0 < x)
    (he : e ≤ Format.binary64.targetExponent (totalExponent m e)) :
    unitExponent (x * 2 ^ e) = Format.binary64.targetExponent (totalExponent m e) := by
  rw [targetExponent_eq] at he ⊢
  obtain ⟨hle, hlt⟩ := h.le_and_lt
  unfold unitExponent
  by_cases hm : m = 0
  · subst hm
    have hlog : Int.log 2 (x * 2 ^ e) < e := by
      rw [← zpow_lt_zpow_iff_right₀ (one_lt_two : (1 : ℝ) < 2)]
      calc (2 : ℝ) ^ Int.log 2 (x * 2 ^ e) ≤ x * 2 ^ e := two_zpow_log_le (by positivity)
        _ < 1 * 2 ^ e := mul_lt_mul_of_pos_right (by simpa using hlt) (two_zpow_pos e)
        _ = 2 ^ e := one_mul _
    rw [show Nat.log2 0 = 0 from rfl] at he ⊢
    omega
  · rw [log_mul_two_zpow e hm hle hlt]

theorem shiftToTargetExponent_of_lt {m : ℕ} {e : ℤ} (hm : m < 2 ^ 53) (he : -1074 ≤ e) :
    shiftToTargetExponent Format.binary64 m e .exact = (⟨m, false, false⟩, e) := by
  have hlog : m.log2 ≤ 52 := by
    rcases m.eq_zero_or_pos with rfl | hpos
    · decide
    · have := (Nat.log2_lt hpos.ne').2 hm
      omega
  have hshift : (Format.binary64.targetExponent (totalExponent m e) - e).toNat = 0 := by
    rw [targetExponent_eq]
    omega
  unfold shiftToTargetExponent shiftToExponent
  dsimp only
  rw [hshift, Int.natCast_zero, add_zero]
  rfl

/-- A mantissa that rounding has carried over to a 54th digit loses its last one. -/
theorem shiftToTargetExponent_two_pow {e : ℤ} (he : -1074 ≤ e) :
    shiftToTargetExponent Format.binary64 (2 ^ 53) e .exact =
      (⟨2 ^ 52, false, false⟩, e + 1) := by
  have hshift : (Format.binary64.targetExponent (totalExponent (2 ^ 53) e) - e).toNat = 1 := by
    rw [targetExponent_eq, Nat.log2_two_pow]
    omega
  unfold shiftToTargetExponent shiftToExponent
  dsimp only
  rw [hshift]
  rfl

/-- Core's rounding is the rounding of the reals. -/
theorem stores_roundWithAccuracy (sign : Sign) {m : ℕ} {x : ℝ} {accuracy : Accuracy} {e : ℤ}
    (h : Locates m x accuracy) (hx : 0 < x)
    (he : e ≤ Format.binary64.targetExponent (totalExponent m e)) :
    Stores (roundWithAccuracy Format.binary64 sign m e accuracy) sign (rounded (x * 2 ^ e)) := by
  have hunit := h.unitExponent_eq hx he
  have hmin : -1074 ≤ unitExponent (x * 2 ^ e) := le_max_right _ _
  obtain ⟨em, hfirst, hem⟩ : ∃ em : ExtendedMantissa,
      shiftToTargetExponent Format.binary64 m e accuracy = (em, unitExponent (x * 2 ^ e)) ∧
        em.roundedMantissa = nearest (x * 2 ^ e / 2 ^ unitExponent (x * 2 ^ e)) := by
    rw [hunit]
    unfold shiftToTargetExponent shiftToExponent
    generalize htarget : Format.binary64.targetExponent (totalExponent m e) = t at he
    refine ⟨_, Prod.ext rfl (by dsimp only; omega), ?_⟩
    have hloc : Locates (ExtendedMantissa.ofMantissaAndAccuracy m accuracy).mantissa x
        (ExtendedMantissa.ofMantissaAndAccuracy m accuracy).accuracy := by
      rwa [mantissa_ofMantissaAndAccuracy, accuracy_ofMantissaAndAccuracy]
    rw [ExtendedMantissa.roundedMantissa, (hloc.shiftRight (t - e).toNat).roundToNearestEven_eq]
    have ht : (2 : ℝ) ^ t = 2 ^ (t - e).toNat * 2 ^ e := by
      rw [← zpow_natCast, ← zpow_add₀ (by norm_num)]
      congr 1
      omega
    rw [ht, mul_div_mul_right _ _ (two_zpow_pos e).ne']
  have hpos : 0 < x * 2 ^ e := mul_pos hx (two_zpow_pos e)
  have hfew : nearest (x * 2 ^ e / 2 ^ unitExponent (x * 2 ^ e)) ≤ 2 ^ 53 :=
    nearest_le_natCast (by exact_mod_cast (div_unit_lt _).le)
  have hmany : 2 ^ 52 ≤ nearest (x * 2 ^ e / 2 ^ unitExponent (x * 2 ^ e)) ∨
      unitExponent (x * 2 ^ e) = -1074 := by
    rcases hmin.eq_or_lt with hmin | hmin
    · exact .inr hmin.symm
    · exact .inl (natCast_le_nearest (by exact_mod_cast le_div_unit hpos hmin))
  unfold roundWithAccuracy rounded
  rw [hfirst]
  dsimp only
  rw [hem]
  generalize nearest (x * 2 ^ e / 2 ^ unitExponent (x * 2 ^ e)) = r at hfew hmany
  rcases hfew.lt_or_eq with hlt | rfl
  · rw [shiftToTargetExponent_of_lt hlt hmin]
    dsimp only
    split_ifs with hzero
    · rw [hzero, Nat.cast_zero, zero_mul]
      exact .zero sign
    · exact .finite ⟨hlt, hmin, hmany⟩
  · rw [shiftToTargetExponent_two_pow hmin]
    have hcarry : ((2 ^ 53 : ℕ) : ℝ) * 2 ^ unitExponent (x * 2 ^ e) =
        (2 ^ 52 : ℕ) * 2 ^ (unitExponent (x * 2 ^ e) + 1) := by
      rw [zpow_add₀ (by norm_num)]
      push_cast
      ring
    rw [hcarry]
    exact .finite ⟨by norm_num, by omega, .inl le_rfl⟩

end PhraseStructure.Binary64
