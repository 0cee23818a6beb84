import PhraseStructure.Proofs.Decimal.Nearest
import PhraseStructure.Proofs.Decimal.Shortest

/-!
# Numbers read back

A finite number that is written out in full reads back as the same number, its sign included.
-/

namespace PhraseStructure.Decimal

open Binary64 (rounded)

/-- The decimal that is written for a number has the number as its nearest one. -/
theorem rounded_value_ofBits {n : ℕ} (h : n < 2047 * 2 ^ 52) :
    rounded (ofBits n).value = (Binary.ofBits n).value := by
  unfold ofBits
  dsimp only
  split_ifs with hzero
  · unfold value Binary.value
    rw [hzero, Nat.cast_zero, zero_mul, zero_mul, Binary64.rounded_zero]
  · exact RoundingInterval.rounded_shortest (Binary.isPositive_ofBits h (Nat.pos_of_ne_zero hzero))

theorem unpack_toFloat {n : ℕ} (h : n < 2047 * 2 ^ 52) {d : Decimal}
    (hd : d.value = (ofBits n).value) :
    d.toFloat.toModel.unpack = Binary64.ofBinary .positive (Binary.ofBits n) := by
  rcases Nat.eq_zero_or_pos (Binary.ofBits n).mantissa with hzero | hpos
  · have hcoefficient : d.coefficient = 0 := by
      unfold ofBits value at hd
      dsimp only at hd
      rw [if_pos hzero, Nat.cast_zero, zero_mul] at hd
      exact_mod_cast (mul_eq_zero_iff_right (by positivity)).1 hd
    unfold toFloat
    rw [if_pos (.inl hcoefficient), Binary64.ofBinary_of_zero hzero]
    rfl
  · have hdenotes := d.denotes_toFloat
    rw [hd, Binary64.nearestValue_coe, rounded_value_ofBits h,
      if_pos (Binary.value_ofBits_lt h)] at hdenotes
    rw [Binary64.ofBinary_of_pos hpos]
    exact hdenotes.unpack_eq (Binary.isCanonical_ofBits h).1

/-! ## Texts -/

theorem splitSign_eq {text : List Char} (h : ∀ c ∈ text, c ≠ '-' ∧ c ≠ '+') :
    splitSign text = (false, text) := by
  unfold splitSign
  split
  next rest => exact absurd rfl (h '-' List.mem_cons_self).1
  next rest => exact absurd rfl (h '+' List.mem_cons_self).2
  next => rfl

/-- The text of a finite number: a minus if its sign bit is set, and a decimal in full. -/
theorem inFull_of_isFinite {x : Float} (hx : x.isFinite = true) :
    (inFull x).toList = (if x.toBits.toNat < 2 ^ 63 then [] else ['-']) ++
      (ofBits (x.toBits.toNat % 2 ^ 63)).positional := by
  have hlt := (Binary64.unpack_toModel_of_isFinite hx).1
  have hsign : Nat.pow 2 63 = 2 ^ 63 := rfl
  have hinfinite : 2047 * Binary.hiddenBit = 2047 * 2 ^ 52 := rfl
  unfold inFull render
  dsimp only
  rw [hsign, hinfinite, if_neg hlt.not_gt, if_neg hlt.ne, String.toList_ofList]
  split_ifs <;> rfl

theorem mem_inFull {x : Float} (hx : x.isFinite = true) {c : Char} (hc : c ∈ (inFull x).toList) :
    c.isDigit = true ∨ c = '.' ∨ c = '-' := by
  rw [inFull_of_isFinite hx, List.mem_append] at hc
  rcases hc with hc | hc
  · split_ifs at hc
    · cases hc
    · exact .inr (.inr (List.mem_singleton.1 hc))
  · exact (mem_positional _ hc).imp_right .inl

theorem read?_inFull {x : Float} (hx : x.isFinite = true) :
    read? (inFull x).toList = some x := by
  obtain ⟨hlt, hunpack⟩ := Binary64.unpack_toModel_of_isFinite hx
  rw [inFull_of_isFinite hx]
  generalize x.toBits.toNat % 2 ^ 63 = n at hlt hunpack
  have hmagnitude := unpack_toFloat hlt (value_mul_pow (ofBits n))
  unfold read?
  split_ifs with hbits
  · have hplain : ∀ c ∈ (ofBits n).positional, c ≠ '-' ∧ c ≠ '+' := by
      intro c hc
      rcases mem_positional _ hc with hdigit | rfl
      · constructor <;> rintro rfl <;> exact absurd hdigit (by decide)
      · decide
    rw [Binary64.signOf, if_pos hbits, ← hmagnitude] at hunpack
    rw [List.nil_append, splitSign_eq hplain]
    dsimp only
    rw [ofText?_positional, Binary64.eq_of_unpack_eq hx hunpack]
    rfl
  · rw [Binary64.signOf, if_neg hbits, ← Binary64.unpack_neg hlt hmagnitude] at hunpack
    rw [List.singleton_append, splitSign]
    dsimp only
    rw [ofText?_positional, Binary64.eq_of_unpack_eq hx hunpack]
    rfl

end PhraseStructure.Decimal
