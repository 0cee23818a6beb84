import Mathlib
import PhraseStructure.Decimal.Shortest

/-!
# Binary64 numbers as reals

The rounding of a non-negative real to 53 binary digits, said on the reals: the exponent is that of
the number's binade, down to the least one, and the mantissa is the nearest natural number. Core's
unpacked numbers stand for extended reals, and its accuracies say where a real lies above a
mantissa.
-/

noncomputable section

namespace PhraseStructure.Binary64

open Float.Model (UnpackedFloat)
open Float.Model.UnpackedFloat

/-! ## Rounding -/

/-- The natural number nearest to a non-negative real, of two equally near ones the even one. -/
def nearest (x : ℝ) : ℕ :=
  if x - ⌊x⌋₊ < 1 / 2 then ⌊x⌋₊
  else if 1 / 2 < x - ⌊x⌋₊ then ⌊x⌋₊ + 1
  else ⌊x⌋₊ + ⌊x⌋₊ % 2

/-- The exponent with which a positive real is written: 53 digits from its first one on, but
nothing below `2 ^ (-1074)`. -/
def unitExponent (x : ℝ) : ℤ := max (Int.log 2 x - 52) (-1074)

/-- The nearest real of 53 binary digits, as if there were no largest exponent. -/
def rounded (x : ℝ) : ℝ := nearest (x / 2 ^ unitExponent x) * 2 ^ unitExponent x

def powerOfTwo (k : ℤ) : ℝ := 2 ^ k

/-- The value of the binary64 number nearest to a non-negative one. -/
def nearestValue (v : EReal) : EReal :=
  if v = ⊤ then ⊤ else if rounded v.toReal < 2 ^ 1024 then rounded v.toReal else ⊤

/-! ## Unpacked numbers -/

/-- Where a real lies above a mantissa, as an accuracy says it. -/
def Locates (mantissa : ℕ) (x : ℝ) : Accuracy → Prop
  | .exact => x = mantissa
  | .inexact .lt => mantissa < x ∧ x < mantissa + 1 / 2
  | .inexact .eq => x = mantissa + 1 / 2
  | .inexact .gt => mantissa + 1 / 2 < x ∧ x < mantissa + 1

def signed : Sign → ℝ → ℝ
  | .positive, r => r
  | .negative, r => -r

/-- The extended real that an unpacked number stands for, zero for a NaN. -/
def unpackedValue : UnpackedFloat → EReal
  | .notANumber => 0
  | .infinity .positive => ⊤
  | .infinity .negative => ⊥
  | .zero _ => 0
  | .finite sign m e _ => signed sign (m * 2 ^ e)

end PhraseStructure.Binary64

/-! ## Binary and decimal numbers -/

namespace PhraseStructure

/-- The real number that a mantissa and an exponent stand for. -/
def Binary.value (b : Binary) : ℝ := b.mantissa * 2 ^ b.exponent

/-- The real number that a decimal writes. -/
def Decimal.value (d : Decimal) : ℝ := d.coefficient * 10 ^ d.exponent

end PhraseStructure

end
