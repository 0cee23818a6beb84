/-!
# Decimal numbers

A non-negative decimal number is a coefficient and a power of ten. It is written out in full or
with an exponent, always with the digits of its coefficient and no others.
-/

namespace PhraseStructure

/-- The number `coefficient · 10 ^ exponent`. -/
structure Decimal where
  coefficient : Nat
  exponent : Int
deriving DecidableEq, Repr

namespace Decimal

/-- The decimal digits of a number, the first one not zero unless the number is. -/
def digits (n : Nat) : List Char :=
  Nat.toDigits 10 n

/-- How many decimal digits a number has. -/
def digitCount (n : Nat) : Nat :=
  (digits n).length

/-- The number that a list of decimal digits writes. -/
def ofDigits (ds : List Char) : Nat :=
  ds.foldl (fun n c => 10 * n + (c.toNat - '0'.toNat)) 0

/-- The same number with no zero at the end of its coefficient. -/
def trimmed (d : Decimal) : Decimal :=
  if d.coefficient = 0 then ⟨0, 0⟩
  else if d.coefficient % 10 = 0 then trimmed ⟨d.coefficient / 10, d.exponent + 1⟩
  else d
termination_by d.coefficient
decreasing_by omega

/-- How many digits stand before the point; negative if zeros follow it. -/
def pointPlace (d : Decimal) : Int :=
  digitCount d.coefficient + d.exponent

/-- Written out without an exponent, a zero before a leading point. -/
def positional (d : Decimal) : List Char :=
  let ds := digits d.coefficient
  if 0 ≤ d.exponent then ds ++ List.replicate d.exponent.toNat '0'
  else if 0 < d.pointPlace then
    ds.take d.pointPlace.toNat ++ '.' :: ds.drop d.pointPlace.toNat
  else '0' :: '.' :: List.replicate (-d.pointPlace).toNat '0' ++ ds

/-- An exponent: a minus if it is negative, and its digits. -/
def signed (e : Int) : List Char :=
  if e < 0 then '-' :: digits e.natAbs else digits e.natAbs

/-- Written with one digit before the point and an exponent, without a point if no digit
follows it. -/
def scientific (d : Decimal) : List Char :=
  let ds := digits d.coefficient
  let rest := ds.drop 1
  ds.take 1 ++ (if rest.isEmpty then [] else '.' :: rest) ++ 'e' :: signed (d.pointPlace - 1)

example : positional ⟨15, -1⟩ = "1.5".toList := by decide
example : positional ⟨1, 21⟩ = "1000000000000000000000".toList := by decide
example : positional ⟨1, -7⟩ = "0.0000001".toList := by decide
example : positional ⟨0, 0⟩ = "0".toList := by decide
example : scientific ⟨5, -1⟩ = "5e-1".toList := by decide
example : scientific ⟨125, 3⟩ = "1.25e5".toList := by decide
example : scientific ⟨0, 0⟩ = "0e0".toList := by decide

end Decimal

end PhraseStructure
