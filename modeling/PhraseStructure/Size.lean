/-!
# Sizes

Sizes and places are numbers of 64 bits, and a list lies in one block of memory, whose last byte is
within reach of a signed number of 64 bits. Whatever goes beyond these bounds is an error, before
anything is stored.
-/

namespace PhraseStructure

/-- A size that is out of bounds. -/
inductive Oversize where
  | sum
  | product
  /-- The items of a list have no room in one block of memory. -/
  | list
deriving DecidableEq, Repr

def Oversize.message : Oversize → String
  | sum => "attempt to add with overflow"
  | product => "attempt to multiply with overflow"
  | list => "capacity overflow"

/-- The bytes that a block of memory has at most. -/
def maxBytes : Nat := 0x7FFFFFFFFFFFFFFF

/-- Whether `count` items of `width` bytes each fit one list. -/
def HasRoom (width count : Nat) : Prop :=
  width * count ≤ maxBytes

instance (width count : Nat) : Decidable (HasRoom width count) :=
  inferInstanceAs (Decidable (_ ≤ _))

/-- A number that is at most 64 bits long. -/
def word? (n : Nat) : Option Nat :=
  if n < UInt64.size then some n else none

/-- A difference that is not below zero. -/
def difference? (m n : Nat) : Option Nat :=
  if n ≤ m then some (m - n) else none

theorem HasRoom.mono {width count fewer : Nat} (h : HasRoom width count) (hle : fewer ≤ count) :
    HasRoom width fewer :=
  Nat.le_trans (Nat.mul_le_mul_left width hle) h

end PhraseStructure
