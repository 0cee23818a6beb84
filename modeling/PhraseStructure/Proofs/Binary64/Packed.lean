import PhraseStructure.Proofs.Binary64.Unpacked

/-!
# Packed numbers

Packing a canonical number and unpacking it again gives the number back, or an infinity from
`2 ^ 1024` on. Whatever is unpacked is no number, an infinity, or canonical and below `2 ^ 1024`.
-/

namespace PhraseStructure.Binary64

open Float.Model (Format UnpackedFloat)
open Float.Model.UnpackedFloat

/-! ## The three fields -/

@[simp] theorem ofBitVec_toBitVec (sign : Sign) : Sign.ofBitVec sign.toBitVec = sign := by
  cases sign <;> rfl

theorem unpackSign_packComponents (sign : Sign) (exponent : BitVec 11) (mantissa : BitVec 52) :
    unpackSign (packComponents Format.binary64 sign exponent mantissa) = sign.toBitVec := by
  have htop : (sign.toBitVec ++ exponent ++ mantissa).getLsbD 63 = sign.toBitVec[0] := by
    rw [BitVec.getLsbD_append, BitVec.getLsbD_append]
    rfl
  ext i hi
  obtain rfl : i = 0 := by omega
  simp only [unpackSign, packComponents, BitVec.getElem_cast, BitVec.extractLsb,
    BitVec.getElem_extractLsb']
  exact htop

/-- The mantissa of a normal number has its hidden digit in front. -/
theorem toNat_one_append (mantissa : BitVec 52) :
    (1#1 ++ mantissa).toNat = 2 ^ 52 + mantissa.toNat := by
  rw [BitVec.toNat_append, ← Nat.shiftLeft_add_eq_or_of_lt mantissa.isLt]
  rfl

theorem unpack_packComponents (sign : Sign) (exponent : BitVec 11) (mantissa : BitVec 52) :
    unpack Format.binary64 (packComponents Format.binary64 sign exponent mantissa) =
      if exponent = -1#11 then if mantissa = 0#52 then .infinity sign else .notANumber
      else if exponent = 0#11 then
        if h : mantissa = 0#52 then .zero sign
        else .finite sign mantissa.toNat (exponent.toNat - 1075 + 1)
          (by simpa [BitVec.toNat_pos, BitVec.pos_iff_ne_zero])
      else .finite sign (2 ^ 52 + mantissa.toNat) (exponent.toNat - 1075) (by positivity) := by
  unfold unpack
  simp only [unpackMantissa_packComponents, unpackExponent_packComponents,
    unpackSign_packComponents, ofBitVec_toBitVec, toNat_one_append]
  rfl

/-! ## Packing and unpacking -/

theorem unpack_pack_zero (sign : Sign) :
    unpack Format.binary64 (pack Format.binary64 (.zero sign)) = .zero sign := by
  show unpack Format.binary64 (packComponents Format.binary64 sign 0#11 0#52) = _
  rw [unpack_packComponents, if_neg (by decide), if_pos rfl, dif_pos rfl]

theorem unpack_pack_infinity (sign : Sign) :
    unpack Format.binary64 (pack Format.binary64 (.infinity sign)) = .infinity sign := by
  show unpack Format.binary64 (packComponents Format.binary64 sign (-1#11) 0#52) = _
  rw [unpack_packComponents, if_pos rfl, if_pos rfl]

theorem unpack_pack_normal (sign : Sign) {m : ℕ} {e : ℤ} (hm : 0 < m) (hlow : 2 ^ 52 ≤ m)
    (hhigh : m < 2 ^ 53) (hmin : -1074 ≤ e) (hmax : e ≤ 971) :
    unpack Format.binary64 (pack Format.binary64 (.finite sign m e hm)) =
      .finite sign m e hm := by
  have hlog : m.log2 = 52 := (Nat.log2_eq_iff hm.ne').2 ⟨hlow, hhigh⟩
  obtain ⟨k, hk⟩ : ∃ k : ℕ, e + 1075 = k := ⟨(e + 1075).toNat, by omega⟩
  have hexp : (BitVec.ofNat 11 k).toNat = k := by
    rw [BitVec.toNat_ofNat, Nat.mod_eq_of_lt (by omega)]
  have hmant : (BitVec.ofNat 52 m).toNat = m - 2 ^ 52 := by
    rw [BitVec.toNat_ofNat]
    omega
  have hpack : pack Format.binary64 (.finite sign m e hm) =
      packComponents Format.binary64 sign (BitVec.ofNat 11 k) (BitVec.ofNat 52 m) := by
    have hbias : (e + (Format.binary64.exponentBias : ℤ) + (52 : ℕ)).toNat = k := by
      show (e + 1023 + 52).toNat = k
      omega
    unfold pack
    dsimp only
    rw [hbias, hlog, if_neg (by omega)]
    rfl
  rw [hpack, unpack_packComponents, if_neg, if_neg]
  · congr 1 <;> omega
  · intro h
    have := congrArg BitVec.toNat h
    rw [hexp] at this
    change k = 0 at this
    omega
  · intro h
    have := congrArg BitVec.toNat h
    rw [hexp] at this
    change k = 2047 at this
    omega

theorem unpack_pack_subnormal (sign : Sign) {m : ℕ} (hm : 0 < m) (hhigh : m < 2 ^ 52) :
    unpack Format.binary64 (pack Format.binary64 (.finite sign m (-1074) hm)) =
      .finite sign m (-1074) hm := by
  have hlog : m.log2 < 52 := (Nat.log2_lt hm.ne').2 hhigh
  have hmant : (BitVec.ofNat 52 m).toNat = m := by
    rw [BitVec.toNat_ofNat, Nat.mod_eq_of_lt hhigh]
  have hpack : pack Format.binary64 (.finite sign m (-1074) hm) =
      packComponents Format.binary64 sign 0#11 (BitVec.ofNat 52 m) := by
    have hbias : (-1074 + (Format.binary64.exponentBias : ℤ) + (52 : ℕ)).toNat = 1 := by decide
    unfold pack
    dsimp only
    rw [hbias, if_neg (by decide), if_neg]
    show ¬ m.log2 + 1 = 53
    omega
  rw [hpack, unpack_packComponents, if_neg (by decide), if_pos rfl, dif_neg]
  · congr 1
  · intro h
    have := congrArg BitVec.toNat h
    rw [hmant] at this
    change m = 0 at this
    omega

theorem unpack_pack_of_lt_exponent (sign : Sign) {m : ℕ} {e : ℤ} (hm : 0 < m) (he : 971 < e) :
    unpack Format.binary64 (pack Format.binary64 (.finite sign m e hm)) = .infinity sign := by
  have hpack : pack Format.binary64 (.finite sign m e hm) =
      pack Format.binary64 (.infinity sign) := by
    have hbias : 2 ^ 11 ≤ (e + (Format.binary64.exponentBias : ℤ) + (52 : ℕ)).toNat + 1 := by
      show 2 ^ 11 ≤ (e + 1023 + 52).toNat + 1
      omega
    conv_lhs => unfold pack
    dsimp only
    rw [if_pos hbias]
    rfl
  rw [hpack, unpack_pack_infinity]

theorem IsCanonical.two_pow_le_iff {m : ℕ} {e : ℤ} (h : IsCanonical m e) :
    (2 : ℝ) ^ 1024 ≤ m * 2 ^ e ↔ 971 < e := by
  obtain ⟨hlt, -, hlow⟩ := h
  have hsplit : ∀ (n : ℕ) (k : ℤ), n + k = 1024 → (2 : ℝ) ^ n * 2 ^ k = 2 ^ 1024 := by
    intro n k hk
    rw [← zpow_natCast, ← zpow_add₀ (by norm_num), hk]
    rfl
  constructor
  · intro hle
    by_contra he
    have hlarge : (m : ℝ) * 2 ^ e < 2 ^ 1024 := by
      calc (m : ℝ) * 2 ^ e < 2 ^ 53 * 2 ^ e :=
            mul_lt_mul_of_pos_right (by exact_mod_cast hlt) (two_zpow_pos e)
        _ ≤ 2 ^ 53 * 2 ^ (971 : ℤ) := by
            refine mul_le_mul_of_nonneg_left ?_ (by positivity)
            rw [zpow_le_zpow_iff_right₀ one_lt_two]
            omega
        _ = 2 ^ 1024 := hsplit 53 971 (by norm_num)
    exact absurd hle (not_le.2 hlarge)
  · intro he
    have hm : 2 ^ 52 ≤ m := hlow.resolve_right (by omega)
    calc (2 : ℝ) ^ 1024 = 2 ^ 52 * 2 ^ (972 : ℤ) := (hsplit 52 972 (by norm_num)).symm
      _ ≤ 2 ^ 52 * 2 ^ e := by
          refine mul_le_mul_of_nonneg_left ?_ (by positivity)
          rw [zpow_le_zpow_iff_right₀ one_lt_two]
          omega
      _ ≤ m * 2 ^ e := mul_le_mul_of_nonneg_right (by exact_mod_cast hm) (two_zpow_pos e).le

theorem Stores.unpack_pack {u : UnpackedFloat} {sign : Sign} {r : ℝ} (h : Stores u sign r) :
    unpack Format.binary64 (pack Format.binary64 u) =
      if r < 2 ^ 1024 then u else .infinity sign := by
  cases h with
  | zero =>
    rw [if_pos (by positivity), unpack_pack_zero]
  | @finite _ m e hm hcanon =>
    by_cases he : 971 < e
    · rw [if_neg (not_lt.2 (hcanon.two_pow_le_iff.2 he)), unpack_pack_of_lt_exponent sign hm he]
    · rw [if_pos (not_le.1 (mt hcanon.two_pow_le_iff.1 he))]
      obtain ⟨hhigh, hmin, hlow⟩ := hcanon
      by_cases hnormal : 2 ^ 52 ≤ m
      · exact unpack_pack_normal sign hm hnormal hhigh hmin (by omega)
      · obtain rfl := hlow.resolve_left hnormal
        exact unpack_pack_subnormal sign hm (by omega)

theorem unpack_cases (bits : BitVec 64) :
    unpack Format.binary64 bits = .notANumber ∨
      (∃ sign, unpack Format.binary64 bits = .infinity sign) ∨
      ∃ sign r, Stores (unpack Format.binary64 bits) sign r ∧ r < 2 ^ 1024 := by
  obtain ⟨mantissa, hmantissa⟩ : ∃ m : BitVec 52, @unpackMantissa Format.binary64 bits = m :=
    ⟨_, rfl⟩
  obtain ⟨exponent, hexponent⟩ : ∃ e : BitVec 11, @unpackExponent Format.binary64 bits = e :=
    ⟨_, rfl⟩
  obtain ⟨sign, hsign⟩ : ∃ s, Sign.ofBitVec (@unpackSign Format.binary64 bits) = s := ⟨_, rfl⟩
  have hmant := mantissa.isLt
  have hexp := exponent.isLt
  unfold unpack
  simp only [hmantissa, hexponent, hsign]
  split_ifs with hmax hzero hmin hzero
  · exact .inr (.inl ⟨sign, rfl⟩)
  · exact .inl rfl
  · exact .inr (.inr ⟨sign, 0, .zero sign, by positivity⟩)
  · subst hmin
    have hcanon : IsCanonical mantissa.toNat (-1074) := ⟨by omega, le_rfl, .inr rfl⟩
    have hlarge : ¬ (971 : ℤ) < -1074 := by omega
    exact .inr (.inr ⟨sign, _, .finite hcanon, not_le.1 (mt hcanon.two_pow_le_iff.1 hlarge)⟩)
  · have hne0 : exponent.toNat ≠ 0 := by
      intro h
      exact hmin (BitVec.eq_of_toNat_eq h)
    have hnemax : exponent.toNat ≠ 2047 := by
      intro h
      exact hmax (BitVec.eq_of_toNat_eq h)
    have hcanon : IsCanonical (1#1 ++ mantissa).toNat (exponent.toNat - 1075) := by
      rw [toNat_one_append]
      exact ⟨by omega, by omega, .inl (by omega)⟩
    have hlarge : ¬ (971 : ℤ) < exponent.toNat - 1075 := by omega
    exact .inr (.inr ⟨sign, _, .finite hcanon, not_le.1 (mt hcanon.two_pow_le_iff.1 hlarge)⟩)

end PhraseStructure.Binary64
