import Mathlib.Data.List.TakeDrop
import PhraseStructure.Decimal.Reading
import PhraseStructure.Proofs.Binary64.Basic

/-!
# Decimals written out in full

A decimal that is written out in full is a numeral of digits with at most one point, and it reads
as the same number: the digits before and behind the point are those of its coefficient, with zeros
in front or behind. Written with an exponent, it has a few characters more.
-/

namespace PhraseStructure.Decimal

/-! ## Digits -/

theorem ofDigits_digits (n : ℕ) : ofDigits (digits n) = n :=
  Nat.ofDigitChars_ten_toDigits

theorem isDigit_of_mem_digits {n : ℕ} : ∀ c ∈ digits n, c.isDigit = true :=
  fun _ hc => Nat.isDigit_of_mem_toDigits (by decide) (by decide) hc

theorem digitCount_pos (n : ℕ) : 0 < digitCount n :=
  Nat.length_toDigits_pos

theorem digits_ne_nil (n : ℕ) : digits n ≠ [] :=
  List.length_pos_iff.1 (digitCount_pos n)

theorem lt_pow_digitCount (n : ℕ) : n < 10 ^ digitCount n :=
  (Nat.length_toDigits_le_iff (by decide) (digitCount_pos n)).1 le_rfl

theorem pow_digitCount_le {n : ℕ} (h : 0 < n) : 10 ^ (digitCount n - 1) ≤ n := by
  rcases (Nat.one_le_iff_ne_zero.2 (digitCount_pos n).ne').eq_or_lt with hone | hmany
  · rw [← hone]
    exact h
  · by_contra hlt
    have hle := (Nat.length_toDigits_le_iff (by decide) (by omega)).2 (not_le.1 hlt)
    change digitCount n ≤ digitCount n - 1 at hle
    omega

theorem ofDigits_replicate_append (n : ℕ) (ds : List Char) :
    ofDigits (List.replicate n '0' ++ ds) = ofDigits ds := by
  show Nat.ofDigitChars 10 (List.replicate n '0' ++ ds) 0 = _
  rw [Nat.ofDigitChars_append, Nat.ofDigitChars_replicate_zero, mul_zero]
  rfl

theorem ofDigits_append_replicate (ds : List Char) (n : ℕ) :
    ofDigits (ds ++ List.replicate n '0') = ofDigits ds * 10 ^ n := by
  show Nat.ofDigitChars 10 (ds ++ List.replicate n '0') 0 = _
  rw [Nat.ofDigitChars_append, Nat.ofDigitChars_replicate_zero, mul_comm]
  rfl

/-! ## Numerals -/

theorem ofText?_digits {whole : List Char} (hne : whole ≠ [])
    (hwhole : ∀ c ∈ whole, c.isDigit = true) : ofText? whole = some ⟨ofDigits whole, 0⟩ := by
  have hspan : whole.span Char.isDigit = (whole, []) := by
    rw [List.span_eq_takeWhile_dropWhile, List.takeWhile_eq_self_iff.2 hwhole,
      List.dropWhile_eq_nil_iff.2 hwhole]
  rw [ofText?, hspan]
  simp [splitFraction, readExponent?, hne]

/-- Each digit behind the point lowers the exponent by one. -/
theorem ofText?_point {whole fraction : List Char} (hne : whole ≠ [])
    (hwhole : ∀ c ∈ whole, c.isDigit = true) (hfraction : ∀ c ∈ fraction, c.isDigit = true) :
    ofText? (whole ++ '.' :: fraction) =
      some ⟨ofDigits (whole ++ fraction), -(fraction.length : ℤ)⟩ := by
  have hpoint : '.'.isDigit = false := by decide
  have hspan : (whole ++ '.' :: fraction).span Char.isDigit = (whole, '.' :: fraction) := by
    rw [List.span_eq_takeWhile_dropWhile, List.takeWhile_append_of_pos hwhole,
      List.dropWhile_append_of_pos hwhole]
    simp [hpoint]
  have hspan' : fraction.span Char.isDigit = (fraction, []) := by
    rw [List.span_eq_takeWhile_dropWhile, List.takeWhile_eq_self_iff.2 hfraction,
      List.dropWhile_eq_nil_iff.2 hfraction]
  rw [ofText?, hspan]
  dsimp only
  rw [splitFraction, hspan']
  simp [readExponent?, hne]

/-! ## Numbers in full -/

variable (d : Decimal)

/-- A decimal in full reads as the same number, its coefficient with the zeros of a positive
exponent. -/
theorem ofText?_positional :
    ofText? d.positional = some ⟨d.coefficient * 10 ^ d.exponent.toNat, min d.exponent 0⟩ := by
  have hdigits := @isDigit_of_mem_digits d.coefficient
  have hzero : ∀ {n : ℕ}, ∀ c ∈ List.replicate n '0', c.isDigit = true := by
    intro n c hc
    rw [List.eq_of_mem_replicate hc]
    decide
  have hcount : (digits d.coefficient).length = digitCount d.coefficient := rfl
  unfold positional
  dsimp only
  split_ifs with hexp hpoint
  · rw [ofText?_digits (by simp [digits_ne_nil]), ofDigits_append_replicate, ofDigits_digits,
      min_eq_right hexp]
    exact List.forall_mem_append.2 ⟨hdigits, hzero⟩
  · have hexponent : d.exponent.toNat = 0 := Int.toNat_of_nonpos (by omega)
    have hplace : d.pointPlace = digitCount d.coefficient + d.exponent := rfl
    rw [ofText?_point, List.take_append_drop, ofDigits_digits, List.length_drop, hcount,
      hexponent, pow_zero, mul_one]
    · congr 2
      omega
    · rw [← List.length_pos_iff, List.length_take, hcount]
      omega
    · exact fun c hc => hdigits c (List.mem_of_mem_take hc)
    · exact fun c hc => hdigits c (List.mem_of_mem_drop hc)
  · have hexponent : d.exponent.toNat = 0 := Int.toNat_of_nonpos (by omega)
    have hplace : d.pointPlace = digitCount d.coefficient + d.exponent := rfl
    show ofText? (List.replicate 1 '0' ++ '.' :: (List.replicate (-d.pointPlace).toNat '0' ++
      digits d.coefficient)) = _
    rw [ofText?_point (by simp) hzero (List.forall_mem_append.2 ⟨hzero, hdigits⟩),
      ofDigits_replicate_append, ofDigits_replicate_append, ofDigits_digits, List.length_append,
      List.length_replicate, hcount, hexponent, pow_zero, mul_one]
    congr 2
    omega

theorem value_mul_pow :
    value ⟨d.coefficient * 10 ^ d.exponent.toNat, min d.exponent 0⟩ = d.value := by
  have hexp : d.exponent = d.exponent.toNat + min d.exponent 0 := by omega
  unfold value
  dsimp only
  conv_rhs => rw [hexp, zpow_add₀ (by norm_num), zpow_natCast, ← mul_assoc]
  push_cast
  rfl

theorem mem_positional {c : Char} (h : c ∈ d.positional) : c.isDigit = true ∨ c = '.' := by
  have hdigits := @isDigit_of_mem_digits d.coefficient
  have hzero : '0'.isDigit = true := by decide
  unfold positional at h
  dsimp only at h
  split_ifs at h
  · rcases List.mem_append.1 h with h | h
    · exact .inl (hdigits c h)
    · rw [List.eq_of_mem_replicate h]
      exact .inl hzero
  · rcases List.mem_append.1 h with h | h
    · exact .inl (hdigits c (List.mem_of_mem_take h))
    · rcases List.mem_cons.1 h with rfl | h
      · exact .inr rfl
      · exact .inl (hdigits c (List.mem_of_mem_drop h))
  · simp only [List.cons_append, List.mem_cons, List.mem_append] at h
    rcases h with rfl | rfl | h | h
    · exact .inl hzero
    · exact .inr rfl
    · rw [List.eq_of_mem_replicate h]
      exact .inl hzero
    · exact .inl (hdigits c h)

/-! ## Numbers with an exponent -/

theorem mem_signed {e : ℤ} {c : Char} (h : c ∈ signed e) : c.isDigit = true ∨ c = '-' := by
  have hdigits := @isDigit_of_mem_digits e.natAbs
  unfold signed at h
  split_ifs at h
  · exact (List.mem_cons.1 h).symm.imp_left (hdigits c)
  · exact .inl (hdigits c h)

theorem mem_scientific {c : Char} (h : c ∈ d.scientific) :
    c.isDigit = true ∨ c ∈ ['.', 'e', '-'] := by
  have hdigits := @isDigit_of_mem_digits d.coefficient
  simp only [scientific, List.mem_append, List.mem_cons] at h
  rcases h with (h | h) | rfl | h
  · exact .inl (hdigits c (List.mem_of_mem_take h))
  · split_ifs at h
    · cases h
    · rcases List.mem_cons.1 h with rfl | h
      · exact .inr (by decide)
      · exact .inl (hdigits c (List.mem_of_mem_drop h))
  · exact .inr (by decide)
  · rcases mem_signed h with h | rfl
    · exact .inl h
    · exact .inr (by decide)

/-- Apart from the words for what is infinite or no number, and a minus, the text of a number is in
the layout of some decimal. -/
theorem mem_render {layout : Decimal → List Char} {x : Float} {c : Char}
    (h : c ∈ (render layout x).toList) :
    c ∈ ['N', 'a', 'i', 'n', 'f', '-'] ∨ ∃ d, c ∈ layout d := by
  have hnan : "NaN".toList ⊆ ['N', 'a', 'i', 'n', 'f', '-'] := by simp
  have hinf : ['-', 'i', 'n', 'f'] ⊆ ['N', 'a', 'i', 'n', 'f', '-'] := by simp
  unfold render at h
  dsimp only at h
  split_ifs at h
  · exact .inl (hnan h)
  · rw [String.toList_ofList] at h
    exact .inl (hinf (List.mem_cons_of_mem _ h))
  · rw [String.toList_ofList] at h
    exact .inr ⟨_, h⟩
  · rw [String.toList_ofList] at h
    exact .inl (hinf h)
  · rw [String.toList_ofList] at h
    rcases List.mem_cons.1 h with rfl | h
    · exact .inl (by decide)
    · exact .inr ⟨_, h⟩

theorem newline_notMem_withExponent (x : Float) : '\n' ∉ (withExponent x).toList := by
  intro h
  rcases mem_render h with h | ⟨d, h⟩
  · exact absurd h (by decide)
  · rcases mem_scientific d h with h | h
    · exact absurd h (by decide)
    · exact absurd h (by decide)

end PhraseStructure.Decimal
