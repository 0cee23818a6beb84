import PhraseStructure.Proofs.Binary64.Arithmetic

/-!
# Fields of the bits

The bits of a number are its sign, its exponent field and its fraction, one behind the other. A
finite number unpacks to the sign and to the binary number that decimals are made from, and these
two determine the bits.
-/

namespace PhraseStructure

open Float.Model (Format UnpackedFloat)
open Float.Model.UnpackedFloat

/-! ## Binary numbers -/

namespace Binary

theorem value_eq_of_mul_two_pow_eq {b : Binary} {n : ℕ}
    (h : b.mantissa * 2 ^ b.exponent.toNat = n * 2 ^ (-b.exponent).toNat) : b.value = n := by
  have hexp : (b.exponent : ℤ) = b.exponent.toNat - (-b.exponent).toNat := by omega
  have hcast : (b.mantissa : ℝ) * 2 ^ b.exponent.toNat = n * 2 ^ (-b.exponent).toNat := by
    exact_mod_cast h
  rw [value, hexp, zpow_sub₀ (by norm_num), zpow_natCast, zpow_natCast, mul_div_assoc', hcast,
    mul_div_cancel_right₀ _ (by positivity)]

/-- Below the first normal number the bits are the mantissa, and from there on the exponent field
counts the binades. -/
theorem ofBits_cases (n : ℕ) :
    (n < 2 ^ 52 ∧ ofBits n = ⟨n, -1074, false⟩) ∨
      2 ^ 52 ≤ n ∧ ofBits n = ⟨2 ^ 52 + n % 2 ^ 52, (n / 2 ^ 52 : ℕ) - 1075,
        n % 2 ^ 52 = 0 ∧ 1 < n / 2 ^ 52⟩ := by
  have hhidden : hiddenBit = 2 ^ 52 := rfl
  unfold ofBits
  rw [hhidden]
  dsimp only
  by_cases hzero : n / 2 ^ 52 = 0
  · have hlt : n < 2 ^ 52 := by omega
    rw [if_pos hzero, Nat.mod_eq_of_lt hlt]
    exact .inl ⟨hlt, rfl⟩
  · rw [if_neg hzero]
    exact .inr ⟨by omega, rfl⟩

/-- The bits of a finite number give a canonical one below `2 ^ 1024`. -/
theorem isCanonical_ofBits {n : ℕ} (h : n < 2047 * 2 ^ 52) :
    Binary64.IsCanonical (ofBits n).mantissa (ofBits n).exponent ∧ (ofBits n).exponent ≤ 971 := by
  unfold Binary64.IsCanonical
  rcases ofBits_cases n with ⟨hlt, heq⟩ | ⟨hle, heq⟩ <;> rw [heq] <;> dsimp only <;> omega

theorem value_ofBits_lt {n : ℕ} (h : n < 2047 * 2 ^ 52) : (ofBits n).value < 2 ^ 1024 := by
  obtain ⟨hcanon, hexponent⟩ := isCanonical_ofBits h
  exact not_le.1 (mt hcanon.two_pow_le_iff.1 (by omega))

/-- Only the first number of a binade above the least one starts a binade. -/
theorem binadeStart_ofBits (n : ℕ) :
    (ofBits n).binadeStart = true ↔ (ofBits n).mantissa = 2 ^ 52 ∧ -1074 < (ofBits n).exponent := by
  rcases ofBits_cases n with ⟨hlt, heq⟩ | ⟨hle, heq⟩ <;> rw [heq] <;> dsimp only
  · refine ⟨fun h => absurd h (by decide), ?_⟩
    intro h
    omega
  · rw [decide_eq_true_eq]
    omega

/-- The binary number of a finite binary64 number above zero. -/
structure IsPositive (b : Binary) : Prop where
  mantissa_pos : 0 < b.mantissa
  canonical : Binary64.IsCanonical b.mantissa b.exponent
  binadeStart_iff : b.binadeStart = true ↔ b.mantissa = 2 ^ 52 ∧ -1074 < b.exponent

theorem isPositive_ofBits {n : ℕ} (h : n < 2047 * 2 ^ 52) (hpos : 0 < (ofBits n).mantissa) :
    (ofBits n).IsPositive :=
  ⟨hpos, (isCanonical_ofBits h).1, binadeStart_ofBits n⟩

theorem eq_zero_of_mantissa_eq_zero {n : ℕ} (h : (ofBits n).mantissa = 0) : n = 0 := by
  rcases ofBits_cases n with ⟨hlt, heq⟩ | ⟨hle, heq⟩ <;> rw [heq] at h <;> dsimp only at h <;> omega

theorem ofBits_inj {n n' : ℕ} (hmantissa : (ofBits n).mantissa = (ofBits n').mantissa)
    (hexponent : (ofBits n).exponent = (ofBits n').exponent) : n = n' := by
  rcases ofBits_cases n with ⟨hlt, heq⟩ | ⟨hle, heq⟩ <;>
    rcases ofBits_cases n' with ⟨hlt', heq'⟩ | ⟨hle', heq'⟩ <;>
    rw [heq, heq'] at hmantissa hexponent <;> dsimp only at hmantissa hexponent <;> omega

end Binary

namespace Binary64

/-! ## Bits and fields -/

theorem toNat_unpackMantissa (bits : BitVec 64) :
    (@unpackMantissa Format.binary64 bits).toNat = bits.toNat % 2 ^ 52 := by
  unfold unpackMantissa
  rw [BitVec.toNat_cast, BitVec.extractLsb_toNat, Nat.shiftRight_zero]
  rfl

theorem toNat_unpackExponent (bits : BitVec 64) :
    (@unpackExponent Format.binary64 bits).toNat = bits.toNat / 2 ^ 52 % 2 ^ 11 := by
  unfold unpackExponent
  rw [BitVec.toNat_cast, BitVec.extractLsb_toNat, Nat.shiftRight_eq_div_pow]
  rfl

/-- The sign of the number that some bits stand for. -/
def signOf (bits : ℕ) : Sign :=
  if bits < 2 ^ 63 then .positive else .negative

theorem ofBitVec_unpackSign (bits : BitVec 64) :
    Sign.ofBitVec (@unpackSign Format.binary64 bits) = signOf bits.toNat := by
  have hbit : (@unpackSign Format.binary64 bits).toNat = bits.toNat / 2 ^ 63 % 2 ^ 1 := by
    unfold unpackSign
    rw [BitVec.toNat_cast, BitVec.extractLsb_toNat, Nat.shiftRight_eq_div_pow]
    rfl
  have hlt := bits.isLt
  have hiff : @unpackSign Format.binary64 bits = 0#1 ↔ bits.toNat < 2 ^ 63 := by
    rw [← BitVec.toNat_inj, hbit]
    change bits.toNat / 2 ^ 63 % 2 ^ 1 = 0 ↔ _
    omega
  exact if_congr hiff rfl rfl

/-- The unpacked number of a sign and a binary number. -/
def ofBinary (sign : Sign) (b : Binary) : UnpackedFloat :=
  if h : 0 < b.mantissa then .finite sign b.mantissa b.exponent h else .zero sign

theorem lt_of_isFinite_unpack {bits : BitVec 64}
    (h : (unpack Format.binary64 bits).isFinite = true) :
    bits.toNat % 2 ^ 63 < 2047 * 2 ^ 52 := by
  have hexponent := toNat_unpackExponent bits
  by_contra hle
  have hfull : @unpackExponent Format.binary64 bits = -1#11 := by
    rw [← BitVec.toNat_inj, hexponent]
    change _ = 2047
    omega
  unfold unpack at h
  dsimp only at h
  rw [if_pos hfull] at h
  split at h <;> cases h

theorem ofBinary_of_pos {sign : Sign} {b : Binary} (h : 0 < b.mantissa) :
    ofBinary sign b = .finite sign b.mantissa b.exponent h :=
  dif_pos h

theorem ofBinary_of_zero {sign : Sign} {b : Binary} (h : b.mantissa = 0) :
    ofBinary sign b = .zero sign :=
  dif_neg (by omega)

theorem unpack_eq_ofBinary {bits : BitVec 64} (h : bits.toNat % 2 ^ 63 < 2047 * 2 ^ 52) :
    unpack Format.binary64 bits =
      ofBinary (signOf bits.toNat) (Binary.ofBits (bits.toNat % 2 ^ 63)) := by
  have hexponent := toNat_unpackExponent bits
  have hmantissa := toNat_unpackMantissa bits
  have hnotFull : @unpackExponent Format.binary64 bits ≠ -1#11 := by
    rw [Ne, ← BitVec.toNat_inj, hexponent]
    change _ ≠ 2047
    omega
  have hempty : @unpackExponent Format.binary64 bits = 0#11 ↔ bits.toNat % 2 ^ 63 < 2 ^ 52 := by
    rw [← BitVec.toNat_inj, hexponent]
    change _ = 0 ↔ _
    omega
  have hwhole : @unpackMantissa Format.binary64 bits = 0#52 ↔ bits.toNat % 2 ^ 52 = 0 := by
    rw [← BitVec.toNat_inj, hmantissa]
    rfl
  unfold unpack
  dsimp only
  rw [if_neg hnotFull, ofBitVec_unpackSign]
  rcases Binary.ofBits_cases (bits.toNat % 2 ^ 63) with ⟨hlt, heq⟩ | ⟨hle, heq⟩
  · rw [if_pos (hempty.2 hlt)]
    by_cases hzero : bits.toNat % 2 ^ 52 = 0
    · rw [dif_pos (hwhole.2 hzero), ofBinary_of_zero (by rw [heq]; dsimp only; omega)]
    · rw [dif_neg (mt hwhole.1 hzero), ofBinary_of_pos (by rw [heq]; dsimp only; omega)]
      simp only [hmantissa, hexponent, heq]
      congr 1
      · omega
      · change ((bits.toNat / 2 ^ 52 % 2 ^ 11 : ℕ) : ℤ) - (1023 + 52) + 1 = -1074
        omega
  · rw [if_neg (mt hempty.1 (by omega)), ofBinary_of_pos (by rw [heq]; dsimp only; omega)]
    simp only [toNat_one_append, hmantissa, hexponent, heq]
    congr 1
    · omega
    · change ((bits.toNat / 2 ^ 52 % 2 ^ 11 : ℕ) : ℤ) - (1023 + 52) = _
      omega

theorem unpackedValue_ofBinary (b : Binary) : unpackedValue (ofBinary .positive b) = b.value := by
  rcases Nat.eq_zero_or_pos b.mantissa with hzero | hpos
  · rw [ofBinary_of_zero hzero, Binary.value, hzero, Nat.cast_zero, zero_mul]
    rfl
  · rw [ofBinary_of_pos hpos]
    rfl

theorem isNaN_ofBinary (sign : Sign) (b : Binary) : (ofBinary sign b).isNaN = false := by
  unfold ofBinary
  split <;> rfl

/-- A finite number is its sign and the binary number behind the other bits. -/
theorem unpack_toModel_of_isFinite {x : Float} (hx : x.isFinite = true) :
    x.toBits.toNat % 2 ^ 63 < 2047 * 2 ^ 52 ∧
      x.toModel.unpack =
        ofBinary (signOf x.toBits.toNat) (Binary.ofBits (x.toBits.toNat % 2 ^ 63)) := by
  have hlt := @lt_of_isFinite_unpack x.toModel.toBits.toBitVec hx
  exact ⟨hlt, unpack_eq_ofBinary hlt⟩

theorem denotes_of_toBits_lt {x : Float} (h : x.toBits.toNat < 2047 * 2 ^ 52) :
    Denotes x (Binary.ofBits x.toBits.toNat).value := by
  have hmod : x.toBits.toNat % 2 ^ 63 = x.toBits.toNat := Nat.mod_eq_of_lt (by omega)
  have hsign : signOf x.toBits.toNat = .positive := if_pos (by omega)
  have hunpack : x.toModel.unpack =
      ofBinary (signOf x.toBits.toNat) (Binary.ofBits (x.toBits.toNat % 2 ^ 63)) :=
    unpack_eq_ofBinary (hmod.symm ▸ h)
  rw [hmod, hsign] at hunpack
  unfold Denotes value
  show x.toModel.unpack.isNaN = false ∧ _
  rw [hunpack]
  exact ⟨isNaN_ofBinary _ _, unpackedValue_ofBinary _⟩

/-! ## Numbers from their parts -/

theorem ofBinary_inj {sign sign' : Sign} {n n' : ℕ}
    (h : ofBinary sign (Binary.ofBits n) = ofBinary sign' (Binary.ofBits n')) :
    sign = sign' ∧ n = n' := by
  rcases Nat.eq_zero_or_pos (Binary.ofBits n).mantissa with hzero | hpos <;>
    rcases Nat.eq_zero_or_pos (Binary.ofBits n').mantissa with hzero' | hpos'
  · rw [ofBinary_of_zero hzero, ofBinary_of_zero hzero'] at h
    rw [Binary.eq_zero_of_mantissa_eq_zero hzero, Binary.eq_zero_of_mantissa_eq_zero hzero']
    exact ⟨UnpackedFloat.zero.inj h, rfl⟩
  · rw [ofBinary_of_zero hzero, ofBinary_of_pos hpos'] at h
    cases h
  · rw [ofBinary_of_pos hpos, ofBinary_of_zero hzero'] at h
    cases h
  · rw [ofBinary_of_pos hpos, ofBinary_of_pos hpos'] at h
    obtain ⟨hsign, hmantissa, hexponent⟩ := UnpackedFloat.finite.inj h
    exact ⟨hsign, Binary.ofBits_inj hmantissa hexponent⟩

theorem eq_of_unpack_eq {x y : Float} (hx : x.isFinite = true)
    (h : x.toModel.unpack = y.toModel.unpack) : x = y := by
  have hy : y.isFinite = true := by
    change y.toModel.unpack.isFinite = true
    rw [← h]
    exact hx
  rw [(unpack_toModel_of_isFinite hx).2, (unpack_toModel_of_isFinite hy).2] at h
  obtain ⟨hsign, hrest⟩ := ofBinary_inj h
  have hbits : x.toBits.toNat = y.toBits.toNat := by
    have hx := x.toBits.toNat_lt
    have hy := y.toBits.toNat_lt
    unfold signOf at hsign
    split_ifs at hsign <;> omega
  obtain ⟨⟨xbits, xvalid⟩⟩ := x
  obtain ⟨⟨ybits, yvalid⟩⟩ := y
  obtain rfl : xbits = ybits := UInt64.toNat_inj.1 hbits
  rfl

theorem Denotes.unpack_eq {x : Float} {m : ℕ} {e : ℤ} {hm : 0 < m}
    (hx : Denotes x (m * 2 ^ e : ℝ)) (hcanon : IsCanonical m e) :
    x.toModel.unpack = .finite .positive m e hm := by
  have hpos : (0 : ℝ) < m * 2 ^ e := mul_pos (Nat.cast_pos.2 hm) (two_zpow_pos e)
  rcases hx.cases_of_nonneg (EReal.coe_nonneg.2 hpos.le) with
    ⟨s, -, hv⟩ | ⟨-, hv⟩ | ⟨n, f, hn, hu, hcn, -, hv⟩
  · exact absurd (EReal.coe_eq_zero.1 hv) hpos.ne'
  · exact absurd hv (EReal.coe_ne_top _)
  · obtain ⟨rfl, rfl⟩ := hcanon.inj hcn (EReal.coe_eq_coe_iff.1 hv)
    exact hu

/-! ## Signs -/

theorem stores_ofBinary (sign : Sign) {b : Binary} (h : IsCanonical b.mantissa b.exponent) :
    Stores (ofBinary sign b) sign b.value := by
  rcases Nat.eq_zero_or_pos b.mantissa with hzero | hpos
  · rw [ofBinary_of_zero hzero, Binary.value, hzero, Nat.cast_zero, zero_mul]
    exact .zero sign
  · rw [ofBinary_of_pos hpos]
    exact .finite h

theorem unpack_neg {x : Float} {n : ℕ} (hn : n < 2047 * 2 ^ 52)
    (hx : x.toModel.unpack = ofBinary .positive (Binary.ofBits n)) :
    (-x).toModel.unpack = ofBinary .negative (Binary.ofBits n) := by
  have hstores := stores_ofBinary .negative (Binary.isCanonical_ofBits hn).1
  have hneg :
      (ofBinary .positive (Binary.ofBits n)).neg = ofBinary .negative (Binary.ofBits n) := by
    unfold ofBinary
    split <;> rfl
  show unpack Format.binary64 (pack Format.binary64 x.toModel.unpack.neg) = _
  rw [hx, hneg, hstores.unpack_pack, if_pos (Binary.value_ofBits_lt hn)]

end Binary64

end PhraseStructure
