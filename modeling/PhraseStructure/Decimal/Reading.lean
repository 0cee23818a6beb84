import PhraseStructure.Decimal.Basic

/-!
# Reading numbers

A numeral is an optional sign and either digits with at most one point among or around them and
an optional exponent, or a word for infinity or for no number. It reads as the nearest binary64
number.
-/

namespace PhraseStructure.Decimal

/-- Whether a minus stands in front, and what follows the sign if there is one. -/
def splitSign : List Char → Bool × List Char
  | '-' :: rest => (true, rest)
  | '+' :: rest => (false, rest)
  | text => (false, text)

/-- The exponent after a numeral's digits: none at all, or `e` with an optional sign and at least
one digit. -/
def readExponent? : List Char → Option Int
  | [] => some 0
  | mark :: rest =>
    if mark = 'e' ∨ mark = 'E' then
      let (negative, ds) := splitSign rest
      if ds ≠ [] ∧ ds.all Char.isDigit then
        some (if negative then -(ofDigits ds : Int) else ofDigits ds)
      else none
    else none

/-- The digits after a point, if there is one, and what follows. -/
def splitFraction : List Char → List Char × List Char
  | '.' :: rest => rest.span Char.isDigit
  | text => ([], text)

/-- A numeral without a sign. -/
def ofText? (text : List Char) : Option Decimal :=
  let (whole, afterWhole) := text.span Char.isDigit
  let (fraction, rest) := splitFraction afterWhole
  if whole = [] ∧ fraction = [] then none
  else (readExponent? rest).map fun e => ⟨ofDigits (whole ++ fraction), e - fraction.length⟩

/-- The binary64 number nearest to a decimal, ties to even. Numbers far out of range are decided
by their first digit's place alone. -/
def toFloat (d : Decimal) : Float :=
  if d.coefficient = 0 ∨ d.pointPlace < -330 then 0.0
  else if 310 < d.pointPlace then Float.ofBits 0x7FF0000000000000
  else Float.ofScientific d.coefficient (d.exponent < 0) d.exponent.natAbs

/-- The words that stand for numbers without digits. -/
def ofWord? (text : List Char) : Option Float :=
  let word := text.map Char.toLower
  if word = "inf".toList ∨ word = "infinity".toList then some (Float.ofBits 0x7FF0000000000000)
  else if word = "nan".toList then some (Float.ofBits 0x7FF8000000000000)
  else none

/-- A whole text as a number. -/
def read? (text : List Char) : Option Float :=
  let (negative, rest) := splitSign text
  let magnitude := ((ofText? rest).map toFloat).or (ofWord? rest)
  magnitude.map fun x => if negative then -x else x

end PhraseStructure.Decimal
