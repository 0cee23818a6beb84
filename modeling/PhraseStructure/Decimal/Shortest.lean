import PhraseStructure.Decimal.Basic

/-!
# Shortest decimal of a binary64 number

Many decimals round to one binary64 number. The one that is written has the fewest digits; among
those it is the nearest to the number, and of two equally near ones the larger. All tests are
made in exact natural arithmetic on the number's mantissa and exponent.
-/

namespace PhraseStructure

/-- A binary number `mantissa · 2 ^ exponent`. Where `binadeStart` holds, the next smaller number
is only half as far away as the next larger one. -/
structure Binary where
  mantissa : Nat
  exponent : Int
  binadeStart : Bool
deriving DecidableEq, Repr

namespace Binary

/-- The first number that does not fit the 52 bits of a binary64 fraction. -/
def hiddenBit : Nat := Nat.pow 2 52

/-- The number behind the bits of a finite, non-negative binary64 value. -/
def ofBits (bits : Nat) : Binary :=
  let fraction : Nat := bits % hiddenBit
  let field : Nat := bits / hiddenBit
  if field = 0 then ⟨fraction, -1074, false⟩
  else ⟨hiddenBit + fraction, (field : Int) - 1075, fraction = 0 ∧ 1 < field⟩

end Binary

/-- A number with the reals that round to it, all over one denominator. The ends belong to the
interval where it is `closed`. -/
structure RoundingInterval where
  low : Nat
  value : Nat
  high : Nat
  denominator : Nat
  closed : Bool
deriving DecidableEq, Repr

namespace RoundingInterval

/-- The reals nearer to a number than to its neighbours; ties go to even mantissas. -/
def ofBinary (b : Binary) : RoundingInterval :=
  let up := Nat.pow 2 b.exponent.toNat
  let down := Nat.pow 2 (-b.exponent).toNat
  ⟨(4 * b.mantissa - if b.binadeStart then 1 else 2) * up, 4 * b.mantissa * up,
    (4 * b.mantissa + 2) * up, 4 * down, b.mantissa % 2 = 0⟩

/-- Whether a decimal lies in the interval. -/
def contains (i : RoundingInterval) (d : Decimal) : Bool :=
  let scaled := d.coefficient * Nat.pow 10 d.exponent.toNat * i.denominator
  let unit := Nat.pow 10 (-d.exponent).toNat
  if i.closed then i.low * unit ≤ scaled && scaled ≤ i.high * unit
  else i.low * unit < scaled && scaled < i.high * unit

/-- The largest coefficient whose decimal with this exponent is at most the value. -/
def floorAt (i : RoundingInterval) (exponent : Int) : Nat :=
  i.value * Nat.pow 10 (-exponent).toNat / (i.denominator * Nat.pow 10 exponent.toNat)

/-- The power of ten of the value's first digit. -/
def leadingExponent (i : RoundingInterval) : Int :=
  if i.denominator ≤ i.value then Decimal.digitCount (i.value / i.denominator) - 1
  else -(Decimal.digitCount ((i.denominator + i.value - 1) / i.value - 1) : Int)

/-- Whether the value is nearer to the decimal below it than to the one above. -/
def nearerBelow (i : RoundingInterval) (exponent : Int) : Bool :=
  2 * i.value * Nat.pow 10 (-exponent).toNat <
    (2 * i.floorAt exponent + 1) * (i.denominator * Nat.pow 10 exponent.toNat)

/-- The nearest decimal with this exponent, if one lies in the interval: it is one of the value's
two neighbours. -/
def nearestAt (i : RoundingInterval) (exponent : Int) : Option Decimal :=
  let below : Decimal := ⟨i.floorAt exponent, exponent⟩
  let above : Decimal := ⟨i.floorAt exponent + 1, exponent⟩
  match i.contains below, i.contains above with
  | true, true => some (if i.nearerBelow exponent then below else above)
  | true, false => some below
  | false, true => some above
  | false, false => none

/-- The decimal with the fewest digits in the interval. Seventeen digits always suffice for a
binary64 number. -/
def shortest (i : RoundingInterval) : Decimal :=
  let candidate := (List.range 17).findSome? fun (count : Nat) =>
    i.nearestAt (i.leadingExponent - count)
  (candidate.getD ⟨i.floorAt (i.leadingExponent - 16), i.leadingExponent - 16⟩).trimmed

end RoundingInterval

namespace Decimal

/-- The decimal that is written for the bits of a finite, non-negative binary64 value. -/
def ofBits (bits : Nat) : Decimal :=
  let b := Binary.ofBits bits
  if b.mantissa = 0 then ⟨0, 0⟩ else (RoundingInterval.ofBinary b).shortest

/-- The text of a number in one of the two layouts: a minus where the sign bit is set, and words
for what is no number and for the infinities. -/
def render (layout : Decimal → List Char) (x : Float) : String :=
  let bits := x.toBits.toNat
  let signBit := Nat.pow 2 63
  let magnitude := bits % signBit
  let infinite := 2047 * Binary.hiddenBit
  if infinite < magnitude then "NaN"
  else
    let text := if magnitude = infinite then ['i', 'n', 'f'] else layout (ofBits magnitude)
    String.ofList (if bits < signBit then text else '-' :: text)

/-- The text of a number, written out in full. -/
def inFull (x : Float) : String :=
  render positional x

/-- The text of a number, written with an exponent. -/
def withExponent (x : Float) : String :=
  render scientific x

end Decimal

end PhraseStructure
