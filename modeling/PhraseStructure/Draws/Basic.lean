/-!
# Draws

A source of random numbers is a stream of 64-bit values and the count of those already taken.
Whoever samples takes the next value and hands the source on, so a run can be repeated from any
point.
-/

namespace PhraseStructure

/-- A stream of 64-bit values, of which the first `used` are taken. -/
structure Draws where
  stream : Nat → UInt64
  used : Nat := 0

namespace Draws

def next (draws : Draws) : UInt64 × Draws :=
  (draws.stream draws.used, { draws with used := draws.used + 1 })

/-- The source that runs through a list of values again and again; an empty list gives zeros. -/
def ofList (values : List UInt64) : Draws :=
  let table := values.toArray
  { stream := fun i => table.getD (i % table.size) 0 }

/-- The distance of the values that `unit` takes, two to the power -53. -/
def unitStep : Float := Float.ofBits 0x3CA0000000000000

/-- The number from zero up to but not including one that the upper 53 bits of a value stand
for. -/
def unit (value : UInt64) : Float :=
  (value >>> 11).toFloat * unitStep

def advance (draws : Draws) (count : Nat) : Draws :=
  { draws with used := draws.used + count }

def upcoming (draws : Draws) (count : Nat) : List UInt64 :=
  (List.range count).map fun i => draws.stream (draws.used + i)

theorem next_eq_advance (draws : Draws) : draws.next.2 = draws.advance 1 := rfl

@[simp] theorem advance_zero (draws : Draws) : draws.advance 0 = draws := rfl

@[simp] theorem advance_advance (draws : Draws) (m n : Nat) :
    (draws.advance m).advance n = draws.advance (m + n) := by
  simp [advance, Nat.add_assoc]

@[simp] theorem length_upcoming (draws : Draws) (count : Nat) :
    (draws.upcoming count).length = count := by
  simp [upcoming]

theorem upcoming_add (draws : Draws) (m n : Nat) :
    draws.upcoming (m + n) = draws.upcoming m ++ (draws.advance m).upcoming n := by
  simp [upcoming, advance, List.range_add, Nat.add_assoc]

end Draws

end PhraseStructure
