import PhraseStructure.Proofs.Binary64.Arithmetic

/-!
# Weights and shares

A weight is finite and not negative, a share lies between zero and one. Adding weights never falls
below a summand, a weight over a total that is at least as large is a share, and shares are closed
under multiplication, which is monotone on them.
-/

namespace PhraseStructure.Binary64

open Float.Model (Format UnpackedFloat)

/-- A finite number that is not negative. -/
def IsWeight (x : Float) : Prop := x.isFinite = true ∧ ¬ x < 0

/-- A number between zero and one. -/
def IsShare (x : Float) : Prop := 0.0 ≤ x ∧ x ≤ 1.0

theorem denotes_zero : Denotes 0.0 0 := ⟨rfl, rfl⟩

theorem denotes_one : Denotes 1.0 (1 : ℝ) := by
  have hvalue : value 1.0 = (((2 ^ 52 : ℕ) : ℝ) * 2 ^ (-52 : ℤ) : ℝ) := rfl
  refine ⟨rfl, hvalue.trans (congrArg Real.toEReal ?_)⟩
  norm_num

/-! ## Values of weights and shares -/

theorem zero_le_iff {x : Float} : 0.0 ≤ x ↔ ∃ v, Denotes x v ∧ 0 ≤ v := by
  constructor
  · intro h
    have hx := denotes_value (isNaN_eq_false_of_le h).2
    exact ⟨value x, hx, (denotes_zero.le_iff hx).1 h⟩
  · rintro ⟨v, hx, hv⟩
    exact (denotes_zero.le_iff hx).2 hv

theorem exists_denotes_of_isFinite {x : Float} (h : x.isFinite = true) :
    ∃ a : ℝ, Denotes x a := by
  change x.toModel.unpack.isFinite = true at h
  unfold Denotes value
  show ∃ a : ℝ, x.toModel.unpack.isNaN = false ∧ unpackedValue x.toModel.unpack = a
  generalize x.toModel.unpack = u at h ⊢
  cases u with
  | notANumber => cases h
  | infinity => cases h
  | zero => exact ⟨0, rfl, rfl⟩
  | finite s m e => exact ⟨_, rfl, rfl⟩

theorem Denotes.isFinite {x : Float} {a : ℝ} (hx : Denotes x a) : x.isFinite = true := by
  obtain ⟨hnan, hvalue⟩ := hx
  unfold value at hvalue
  change x.toModel.unpack.isNaN = false at hnan
  show x.toModel.unpack.isFinite = true
  generalize x.toModel.unpack = u at hnan hvalue ⊢
  cases u with
  | notANumber => cases hnan
  | infinity sign =>
    cases sign
    · exact absurd hvalue.symm (EReal.coe_ne_bot a)
    · exact absurd hvalue.symm (EReal.coe_ne_top a)
  | zero => rfl
  | finite => rfl

theorem IsWeight.exists_denotes {x : Float} (h : IsWeight x) :
    ∃ a : ℝ, Denotes x a ∧ 0 ≤ a := by
  obtain ⟨a, ha⟩ := exists_denotes_of_isFinite h.1
  refine ⟨a, ha, ?_⟩
  have hzero : Denotes 0 0 := denotes_zero
  exact EReal.coe_nonneg.1 (not_lt.1 (mt (ha.lt_iff hzero).2 h.2))

theorem IsWeight.zero_le {x : Float} (h : IsWeight x) : 0.0 ≤ x := by
  obtain ⟨a, ha, hnonneg⟩ := h.exists_denotes
  exact zero_le_iff.2 ⟨a, ha, EReal.coe_nonneg.2 hnonneg⟩

theorem isShare_iff {x : Float} : IsShare x ↔ ∃ a : ℝ, Denotes x a ∧ 0 ≤ a ∧ a ≤ 1 := by
  constructor
  · rintro ⟨hzero, hone⟩
    obtain ⟨v, hx, hv⟩ := zero_le_iff.1 hzero
    have hle := (hx.le_iff denotes_one).1 hone
    induction v with
    | bot => exact absurd hv (not_le.2 EReal.bot_lt_zero)
    | top => exact absurd hle (not_le.2 (EReal.coe_lt_top 1))
    | coe a => exact ⟨a, hx, EReal.coe_nonneg.1 hv, EReal.coe_le_coe_iff.1 hle⟩
  · rintro ⟨a, hx, hzero, hone⟩
    exact ⟨zero_le_iff.2 ⟨a, hx, EReal.coe_nonneg.2 hzero⟩,
      (hx.le_iff denotes_one).2 (EReal.coe_le_coe_iff.2 hone)⟩

theorem isShare_zero : IsShare 0.0 := isShare_iff.2 ⟨0, denotes_zero, le_rfl, zero_le_one⟩

theorem isShare_one : IsShare 1.0 := isShare_iff.2 ⟨1, denotes_one, zero_le_one, le_rfl⟩

theorem isWeight_one : IsWeight 1.0 :=
  ⟨rfl, Binary64.not_lt_of_le isShare_one.1⟩

theorem isWeight_ofNat_zero : IsWeight 0 := by
  unfold IsWeight
  decide +kernel

theorem isWeight_ofNat_one : IsWeight 1 := by
  unfold IsWeight
  decide +kernel

theorem IsShare.isNaN_eq_false {x : Float} (h : IsShare x) : x.isNaN = false :=
  (isNaN_eq_false_of_le h.1).2

theorem IsShare.isFinite {x : Float} (h : IsShare x) : x.isFinite = true := by
  obtain ⟨a, hx, -⟩ := isShare_iff.1 h
  exact hx.isFinite

theorem IsShare.le_of_not_lt {x y : Float} (hx : IsShare x) (hy : IsShare y) (h : ¬ y < x) :
    x ≤ y :=
  Binary64.le_of_not_lt hx.isNaN_eq_false hy.isNaN_eq_false h

/-! ## Sums -/

protected theorem le_add {x y : Float} (hx : 0.0 ≤ x) (hy : 0.0 ≤ y) :
    0.0 ≤ x + y ∧ x ≤ x + y ∧ y ≤ x + y := by
  obtain ⟨v, hx, hv⟩ := zero_le_iff.1 hx
  obtain ⟨w, hy, hw⟩ := zero_le_iff.1 hy
  have hsum := hx.add hy hv hw
  have hleft : v ≤ nearestValue (v + w) := by
    conv_lhs => rw [← hx.nearestValue_eq hv]
    exact nearestValue_mono hv (le_add_of_nonneg_right hw)
  have hright : w ≤ nearestValue (v + w) := by
    conv_lhs => rw [← hy.nearestValue_eq hw]
    exact nearestValue_mono hw (le_add_of_nonneg_left hv)
  exact ⟨zero_le_iff.2 ⟨_, hsum, hv.trans hleft⟩, (hx.le_iff hsum).2 hleft,
    (hy.le_iff hsum).2 hright⟩

/-! ## Shares of a total -/

/-- A weight over a positive total that is at least as large is a share, also if the total has
grown to infinity. -/
theorem IsWeight.isShare_div {x y : Float} (hx : IsWeight x) (hle : x ≤ y) (hy : 0.0 < y) :
    IsShare (x / y) := by
  obtain ⟨a, hx, ha⟩ := hx.exists_denotes
  have hyv := denotes_value (isNaN_eq_false_of_lt hy).2
  have hpos := (denotes_zero.lt_iff hyv).1 hy
  have hav := (hx.le_iff hyv).1 hle
  generalize value y = w at hyv hpos hav
  induction w with
  | bot => exact absurd hpos not_lt_bot
  | top => exact isShare_iff.2 ⟨0, hx.div_top hyv ha, le_rfl, zero_le_one⟩
  | coe b =>
    have hb := EReal.coe_pos.1 hpos
    have hquot := hx.div hyv ha hb
    have hle : ((a / b : ℝ) : EReal) ≤ (1 : ℝ) :=
      EReal.coe_le_coe_iff.2 ((div_le_one hb).2 (EReal.coe_le_coe_iff.1 hav))
    have hnonneg : (0 : EReal) ≤ (a / b : ℝ) := EReal.coe_nonneg.2 (div_nonneg ha hb.le)
    refine ⟨zero_le_iff.2 ⟨_, hquot, ?_⟩, (hquot.le_iff denotes_one).2 ?_⟩
    · rw [← nearestValue_zero]
      exact nearestValue_mono le_rfl hnonneg
    · rw [← denotes_one.nearestValue_eq (EReal.coe_nonneg.2 zero_le_one)]
      exact nearestValue_mono hnonneg hle

/-! ## Products -/

protected theorem mul_le_mul {x x' y y' : Float} (hx : 0.0 ≤ x) (hy : 0.0 ≤ y) (hx' : IsShare x')
    (hy' : IsShare y') (hxx : x ≤ x') (hyy : y ≤ y') : x * y ≤ x' * y' := by
  have hshare : IsShare x := ⟨hx, Binary64.le_trans hxx hx'.2⟩
  have hshare' : IsShare y := ⟨hy, Binary64.le_trans hyy hy'.2⟩
  obtain ⟨a, hx, ha, -⟩ := isShare_iff.1 hshare
  obtain ⟨b, hy, hb, -⟩ := isShare_iff.1 hshare'
  obtain ⟨a', hx', ha', -⟩ := isShare_iff.1 hx'
  obtain ⟨b', hy', hb', -⟩ := isShare_iff.1 hy'
  have haa := EReal.coe_le_coe_iff.1 ((hx.le_iff hx').1 hxx)
  have hbb := EReal.coe_le_coe_iff.1 ((hy.le_iff hy').1 hyy)
  rw [(hx.mul hy ha hb).le_iff (hx'.mul hy' ha' hb')]
  exact nearestValue_mono (EReal.coe_nonneg.2 (mul_nonneg ha hb))
    (EReal.coe_le_coe_iff.2 (mul_le_mul haa hbb hb ha'))

theorem IsShare.mul_le {x y : Float} (hx : IsShare x) (hy : IsShare y) :
    0.0 ≤ x * y ∧ x * y ≤ x ∧ x * y ≤ y := by
  obtain ⟨a, hx, ha, ha'⟩ := isShare_iff.1 hx
  obtain ⟨b, hy, hb, hb'⟩ := isShare_iff.1 hy
  have hprod := hx.mul hy ha hb
  have hnonneg : (0 : EReal) ≤ (a * b : ℝ) := EReal.coe_nonneg.2 (mul_nonneg ha hb)
  refine ⟨zero_le_iff.2 ⟨_, hprod, ?_⟩, (hprod.le_iff hx).2 ?_, (hprod.le_iff hy).2 ?_⟩
  · rw [← nearestValue_zero]
    exact nearestValue_mono le_rfl hnonneg
  · conv_rhs => rw [← hx.nearestValue_eq (EReal.coe_nonneg.2 ha)]
    exact nearestValue_mono hnonneg (EReal.coe_le_coe_iff.2 (mul_le_of_le_one_right ha hb'))
  · conv_rhs => rw [← hy.nearestValue_eq (EReal.coe_nonneg.2 hb)]
    exact nearestValue_mono hnonneg (EReal.coe_le_coe_iff.2 (mul_le_of_le_one_left hb ha'))

theorem IsShare.mul {x y : Float} (hx : IsShare x) (hy : IsShare y) : IsShare (x * y) := by
  obtain ⟨hzero, hle, -⟩ := hx.mul_le hy
  exact ⟨hzero, Binary64.le_trans hle hx.2⟩

end PhraseStructure.Binary64
