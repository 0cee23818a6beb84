import PhraseStructure.Proofs.Binary64.Packed

/-!
# Values

A binary64 number that is not a NaN stands for an extended real, and its comparisons are those of
the values. So `<` and `≤` are the two halves of a total preorder on all of these numbers, the two
zeros being equal, and a NaN compares with nothing.
-/

namespace PhraseStructure.Binary64

open Float.Model (Format UnpackedFloat)
open Float.Model.UnpackedFloat

/-! ## Values of unpacked numbers -/

/-- Not a NaN, and canonical if finite. -/
def IsNumber : UnpackedFloat → Prop
  | .notANumber => False
  | .infinity _ => True
  | .zero _ => True
  | .finite _ m e _ => IsCanonical m e

/-- Canonical numbers are ordered by their exponents first. -/
theorem IsCanonical.lt_of_exponent_lt {m n : ℕ} {e f : ℤ} (hm : IsCanonical m e)
    (hn : IsCanonical n f) (h : e < f) : (m : ℝ) * 2 ^ e < n * 2 ^ f := by
  have hlow : 2 ^ 52 ≤ n := hn.2.2.resolve_right (by have := hm.2.1; omega)
  calc (m : ℝ) * 2 ^ e < 2 ^ 53 * 2 ^ e :=
        mul_lt_mul_of_pos_right (by exact_mod_cast hm.1) (two_zpow_pos e)
    _ = 2 ^ 52 * 2 ^ (e + 1) := by
        rw [zpow_add₀ (by norm_num)]
        ring
    _ ≤ 2 ^ 52 * 2 ^ f := by
        refine mul_le_mul_of_nonneg_left ?_ (by positivity)
        rw [zpow_le_zpow_iff_right₀ one_lt_two]
        omega
    _ ≤ n * 2 ^ f := mul_le_mul_of_nonneg_right (by exact_mod_cast hlow) (two_zpow_pos f).le

theorem IsCanonical.compare_eq {m n : ℕ} {e f : ℤ} (hm : IsCanonical m e) (hn : IsCanonical n f) :
    (compare e f).then (compare m n) = cmp ((m : ℝ) * 2 ^ e) (n * 2 ^ f) := by
  rcases lt_trichotomy e f with h | rfl | h
  · rw [compare_lt_iff_lt.2 h, (cmp_eq_lt_iff _ _).2 (hm.lt_of_exponent_lt hn h)]
    rfl
  · have hmono : StrictMono fun k : ℕ => (k : ℝ) * 2 ^ e := fun k l hkl =>
      mul_lt_mul_of_pos_right (by exact_mod_cast hkl) (two_zpow_pos e)
    rw [compare_eq_iff_eq.2 rfl, hmono.cmp_map_eq, cmp_eq_compare]
    rfl
  · rw [compare_gt_iff_gt.2 h, (cmp_eq_gt_iff _ _).2 (hn.lt_of_exponent_lt hm h)]
    rfl

theorem IsCanonical.inj {m n : ℕ} {e f : ℤ} (hm : IsCanonical m e) (hn : IsCanonical n f)
    (h : (m : ℝ) * 2 ^ e = n * 2 ^ f) : m = n ∧ e = f := by
  have hcompare := hm.compare_eq hn
  rw [(cmp_eq_eq_iff _ _).2 h, Ordering.then_eq_eq, compare_eq_iff_eq, compare_eq_iff_eq]
    at hcompare
  exact hcompare.symm

theorem compare_eq_some_cmp {u v : UnpackedFloat} (hu : IsNumber u) (hv : IsNumber v) :
    UnpackedFloat.compare u v = some (cmp (unpackedValue u) (unpackedValue v)) := by
  have hlt : ∀ {a b : EReal}, a < b → some Ordering.lt = some (cmp a b) := fun h => by
    rw [(cmp_eq_lt_iff _ _).2 h]
  have hgt : ∀ {a b : EReal}, b < a → some Ordering.gt = some (cmp a b) := fun h => by
    rw [(cmp_eq_gt_iff _ _).2 h]
  have hpos : ∀ {m : ℕ} (e : ℤ), 0 < m → (0 : ℝ) < signed .positive (m * 2 ^ e) := fun e hm =>
    mul_pos (Nat.cast_pos.2 hm) (two_zpow_pos e)
  have hneg : ∀ {m : ℕ} (e : ℤ), 0 < m → signed .negative (m * 2 ^ e) < 0 := fun e hm =>
    neg_neg_of_pos (hpos e hm)
  cases u with
  | notANumber => exact hu.elim
  | infinity s =>
    cases v with
    | notANumber => exact hv.elim
    | infinity t =>
      cases s <;> cases t <;>
        first
          | exact hlt bot_lt_top
          | exact hgt bot_lt_top
          | exact congrArg some (cmp_self_eq_eq _).symm
    | zero t => cases s <;> first | exact hlt EReal.bot_lt_zero | exact hgt EReal.zero_lt_top
    | finite t n f hn =>
      cases s <;> first | exact hlt (EReal.bot_lt_coe _) | exact hgt (EReal.coe_lt_top _)
  | zero s =>
    cases v with
    | notANumber => exact hv.elim
    | infinity t => cases t <;> first | exact hgt EReal.bot_lt_zero | exact hlt EReal.zero_lt_top
    | zero t => exact congrArg some (cmp_self_eq_eq _).symm
    | finite t n f hn =>
      cases t with
      | negative => exact hgt (EReal.coe_neg'.2 (hneg f hn))
      | positive => exact hlt (EReal.coe_pos.2 (hpos f hn))
  | finite s m e hm =>
    cases v with
    | notANumber => exact hv.elim
    | infinity t =>
      cases t <;> first | exact hgt (EReal.bot_lt_coe _) | exact hlt (EReal.coe_lt_top _)
    | zero t =>
      cases s with
      | negative => exact hlt (EReal.coe_neg'.2 (hneg e hm))
      | positive => exact hgt (EReal.coe_pos.2 (hpos e hm))
    | finite t n f hn =>
      have hcoe := EReal.coe_strictMono.cmp_map_eq (signed s (m * 2 ^ e)) (signed t (n * 2 ^ f))
      rcases s with _ | _ <;> rcases t with _ | _
      · have hanti : StrictAnti fun r : ℝ => -r := fun _ _ => neg_lt_neg
        show some (((compare e f).then (compare m n)).swap) = some (cmp _ _)
        rw [IsCanonical.compare_eq hu hv, cmp_swap]
        exact congrArg some ((hcoe.trans (hanti.cmp_map_eq _ _)).symm)
      · exact hlt (EReal.coe_lt_coe_iff.2 ((hneg e hm).trans (hpos f hn)))
      · exact hgt (EReal.coe_lt_coe_iff.2 ((hneg f hn).trans (hpos e hm)))
      · exact congrArg some ((IsCanonical.compare_eq hu hv).trans hcoe.symm)

theorem lt_eq_true_iff {u v : UnpackedFloat} (hu : IsNumber u) (hv : IsNumber v) :
    UnpackedFloat.lt u v = true ↔ unpackedValue u < unpackedValue v := by
  unfold UnpackedFloat.lt
  rw [compare_eq_some_cmp hu hv, ← cmp_eq_lt_iff]
  generalize cmp (unpackedValue u) (unpackedValue v) = o
  cases o <;> decide

theorem le_eq_true_iff {u v : UnpackedFloat} (hu : IsNumber u) (hv : IsNumber v) :
    UnpackedFloat.le u v = true ↔ unpackedValue u ≤ unpackedValue v := by
  have hcmp := (cmp_eq_gt_iff (unpackedValue u) (unpackedValue v)).not.trans not_lt
  unfold UnpackedFloat.le
  rw [compare_eq_some_cmp hu hv, ← hcmp]
  generalize cmp (unpackedValue u) (unpackedValue v) = o
  cases o <;> decide

/-! ## Values of binary64 numbers -/

/-- The extended real that a binary64 number stands for, zero for a NaN. -/
noncomputable def value (x : Float) : EReal := unpackedValue x.toModel.unpack

/-- The number is not a NaN and stands for `v`. -/
def Denotes (x : Float) (v : EReal) : Prop := x.isNaN = false ∧ value x = v

theorem denotes_value {x : Float} (h : x.isNaN = false) : Denotes x (value x) := ⟨h, rfl⟩

theorem Stores.isNumber {u : UnpackedFloat} {sign : Sign} {r : ℝ} (h : Stores u sign r) :
    IsNumber u := by
  cases h with
  | zero => trivial
  | finite hcanon => exact hcanon

theorem isNumber_unpack {x : Float} (h : x.isNaN = false) : IsNumber x.toModel.unpack := by
  rcases unpack_cases x.toModel.toBits.toBitVec with hu | ⟨sign, hu⟩ | ⟨sign, r, hu, -⟩
  · have hnan : x.isNaN = true := by
      show x.toModel.unpack.isNaN = true
      rw [Float.Model.unpack, hu]
      rfl
    rw [hnan] at h
    cases h
  · rw [Float.Model.unpack, hu]
    trivial
  · exact hu.isNumber

theorem lt_iff_unpack {x y : Float} :
    x < y ↔ UnpackedFloat.lt x.toModel.unpack y.toModel.unpack = true := by
  show decide (UnpackedFloat.lt x.toModel.unpack y.toModel.unpack = true) = true ↔ _
  exact decide_eq_true_iff

theorem le_iff_unpack {x y : Float} :
    x ≤ y ↔ UnpackedFloat.le x.toModel.unpack y.toModel.unpack = true := by
  show decide (UnpackedFloat.le x.toModel.unpack y.toModel.unpack = true) = true ↔ _
  exact decide_eq_true_iff

theorem Denotes.lt_iff {x y : Float} {v w : EReal} (hx : Denotes x v) (hy : Denotes y w) :
    x < y ↔ v < w := by
  rw [lt_iff_unpack, lt_eq_true_iff (isNumber_unpack hx.1) (isNumber_unpack hy.1), ← hx.2, ← hy.2]
  rfl

theorem Denotes.le_iff {x y : Float} {v w : EReal} (hx : Denotes x v) (hy : Denotes y w) :
    x ≤ y ↔ v ≤ w := by
  rw [le_iff_unpack, le_eq_true_iff (isNumber_unpack hx.1) (isNumber_unpack hy.1), ← hx.2, ← hy.2]
  rfl

theorem compare_eq_none {u v : UnpackedFloat} (h : u.isNaN = true ∨ v.isNaN = true) :
    UnpackedFloat.compare u v = none := by
  rcases h with h | h
  · obtain rfl : u = .notANumber := by cases u <;> first | rfl | cases h
    cases v <;> rfl
  · obtain rfl : v = .notANumber := by cases v <;> first | rfl | cases h
    rcases u with (_ | _) | _ | _ | _ <;> rfl

theorem isNaN_eq_false_of_lt {x y : Float} (h : x < y) : x.isNaN = false ∧ y.isNaN = false := by
  rw [← Bool.not_eq_true, ← Bool.not_eq_true, ← not_or]
  intro hnan
  rw [lt_iff_unpack, UnpackedFloat.lt, compare_eq_none hnan] at h
  cases h

theorem isNaN_eq_false_of_le {x y : Float} (h : x ≤ y) : x.isNaN = false ∧ y.isNaN = false := by
  rw [← Bool.not_eq_true, ← Bool.not_eq_true, ← not_or]
  intro hnan
  rw [le_iff_unpack, UnpackedFloat.le, compare_eq_none hnan] at h
  cases h

theorem lt_iff_value {x y : Float} :
    x < y ↔ x.isNaN = false ∧ y.isNaN = false ∧ value x < value y := by
  constructor
  · intro h
    obtain ⟨hx, hy⟩ := isNaN_eq_false_of_lt h
    exact ⟨hx, hy, ((denotes_value hx).lt_iff (denotes_value hy)).1 h⟩
  · rintro ⟨hx, hy, h⟩
    exact ((denotes_value hx).lt_iff (denotes_value hy)).2 h

theorem le_iff_value {x y : Float} :
    x ≤ y ↔ x.isNaN = false ∧ y.isNaN = false ∧ value x ≤ value y := by
  constructor
  · intro h
    obtain ⟨hx, hy⟩ := isNaN_eq_false_of_le h
    exact ⟨hx, hy, ((denotes_value hx).le_iff (denotes_value hy)).1 h⟩
  · rintro ⟨hx, hy, h⟩
    exact ((denotes_value hx).le_iff (denotes_value hy)).2 h

/-! ## The order -/

protected theorem lt_irrefl (x : Float) : ¬ x < x := by
  rw [lt_iff_value]
  intro h
  exact lt_irrefl _ h.2.2

protected theorem lt_trans {x y z : Float} (hxy : x < y) (hyz : y < z) : x < z := by
  rw [lt_iff_value] at hxy hyz ⊢
  exact ⟨hxy.1, hyz.2.1, hxy.2.2.trans hyz.2.2⟩

protected theorem lt_of_le_of_lt {x y z : Float} (hxy : x ≤ y) (hyz : y < z) : x < z := by
  rw [le_iff_value] at hxy
  rw [lt_iff_value] at hyz ⊢
  exact ⟨hxy.1, hyz.2.1, hxy.2.2.trans_lt hyz.2.2⟩

protected theorem lt_of_lt_of_le {x y z : Float} (hxy : x < y) (hyz : y ≤ z) : x < z := by
  rw [le_iff_value] at hyz
  rw [lt_iff_value] at hxy ⊢
  exact ⟨hxy.1, hyz.2.1, hxy.2.2.trans_le hyz.2.2⟩

protected theorem le_trans {x y z : Float} (hxy : x ≤ y) (hyz : y ≤ z) : x ≤ z := by
  rw [le_iff_value] at hxy hyz ⊢
  exact ⟨hxy.1, hyz.2.1, hxy.2.2.trans hyz.2.2⟩

protected theorem le_refl {x : Float} (h : x.isNaN = false) : x ≤ x := by
  rw [le_iff_value]
  exact ⟨h, h, le_rfl⟩

protected theorem not_lt_of_le {x y : Float} (h : x ≤ y) : ¬ y < x := by
  rw [le_iff_value] at h
  rw [lt_iff_value]
  intro hlt
  exact absurd hlt.2.2 (not_lt.2 h.2.2)

protected theorem le_of_not_lt {x y : Float} (hx : x.isNaN = false) (hy : y.isNaN = false)
    (h : ¬ y < x) : x ≤ y := by
  rw [lt_iff_value] at h
  rw [le_iff_value]
  exact ⟨hx, hy, not_lt.1 fun hlt => h ⟨hy, hx, hlt⟩⟩

protected theorem lt_of_not_le {x y : Float} (hx : x.isNaN = false) (hy : y.isNaN = false)
    (h : ¬ y ≤ x) : x < y := by
  rw [le_iff_value] at h
  rw [lt_iff_value]
  exact ⟨hx, hy, not_le.1 fun hle => h ⟨hy, hx, hle⟩⟩

end PhraseStructure.Binary64
