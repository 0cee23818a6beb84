import PhraseStructure.Chart.Cell
import PhraseStructure.OutOfRange
import PhraseStructure.Size

/-!
# Charts

A chart has a cell for every span of its tokens. The cells are kept in one array, row by row: all
spans that start at the first token, then all that start at the second, and so on. Tokens that are
there leave room for their chart; where only a length is given the room is asked for (`ofSize`).
-/

namespace PhraseStructure

/-- A triangular table of cells over the spans of `size` tokens. -/
structure Chart where
  size : Nat
  cells : Array Cell
  size_cells : cells.size = size * (size + 1) / 2

namespace Chart

/-- The place of a span in a chart of `size` tokens: the rows before it hold `size`, `size - 1`
and so on cells. -/
def slot (size start stop : Nat) : Nat :=
  start * size - start * (start - 1) / 2 + (stop - start)

/-- The place of a span if no step on the way to it leaves the numbers of 64 bits. -/
def slot? (size start stop : Nat) : Option Nat := do
  let whole ← word? (start * size)
  let missing ← word? (start * (start - 1))
  let row ← difference? whole (missing / 2)
  let column ← difference? stop start
  word? (row + column)

/-- All spans of `size` tokens, the narrow ones first and those of one width from left to
right. -/
def spans (size : Nat) : List (Nat × Nat) :=
  (List.range size).flatMap fun extra =>
    (List.range (size - extra)).map fun start => (start, start + extra)

def blank (size : Nat) : Chart where
  size := size
  cells := Array.replicate (size * (size + 1) / 2) {}
  size_cells := Array.size_replicate

/-- The bytes of a cell: three words for its word and three for its entries. -/
def cellBytes : Nat := 48

/-- Whether the cells over the spans of `size` tokens fit one list. -/
def Fits (size : Nat) : Prop :=
  HasRoom cellBytes (size * (size + 1) / 2)

instance (size : Nat) : Decidable (Fits size) :=
  inferInstanceAs (Decidable (HasRoom _ _))

/-- The blank chart for a length that comes without tokens, and which may be too long. -/
def ofSize (size : Nat) : Except Oversize Chart :=
  if UInt64.size ≤ size + 1 then .error .sum
  else if UInt64.size ≤ size * (size + 1) then .error .product
  else if Fits size then .ok (blank size)
  else .error .list

def isEmpty (chart : Chart) : Bool :=
  chart.size = 0

def HasSpan (chart : Chart) (start stop : Nat) : Prop :=
  start ≤ stop ∧ stop < chart.size

instance (chart : Chart) (start stop : Nat) : Decidable (chart.HasSpan start stop) :=
  inferInstanceAs (Decidable (_ ∧ _))

/-- The cell of a span, an empty one where the chart has none. -/
def cellAt (chart : Chart) (start stop : Nat) : Cell :=
  if chart.HasSpan start stop then chart.cells.getD (slot chart.size start stop) {} else {}

def cell (chart : Chart) (start stop : Nat) : Except OutOfRange Cell :=
  if chart.HasSpan start stop then .ok (chart.cellAt start stop)
  else .error (.span start stop chart.size)

def set (chart : Chart) (start stop : Nat) (cell : Cell) : Chart :=
  if chart.HasSpan start stop then
    { chart with
      cells := chart.cells.setIfInBounds (slot chart.size start stop) cell
      size_cells := by rw [Array.size_setIfInBounds]; exact chart.size_cells }
  else chart

def entryCount (chart : Chart) : Nat :=
  (chart.cells.toList.flatMap (·.entries)).length

/-- The spans with their cells, narrow ones first. -/
def text (chart : Chart) : String :=
  String.join ((spans chart.size).map fun (start, stop) =>
    (chart.cellAt start stop).text start stop)

theorem mul_succ_lt_of_fits {size : Nat} (h : Fits size) : size * (size + 1) < UInt64.size := by
  have hbytes : 48 * (size * (size + 1) / 2) ≤ 0x7FFFFFFFFFFFFFFF := h
  show size * (size + 1) < 18446744073709551616
  omega

theorem succ_lt_of_mul_succ_lt {size : Nat} (h : size * (size + 1) < UInt64.size) :
    size + 1 < UInt64.size := by
  cases size with
  | zero => decide
  | succ n => exact Nat.lt_of_le_of_lt (Nat.le_mul_of_pos_left _ (Nat.succ_pos n)) h

theorem ofSize_of_fits {size : Nat} (h : Fits size) : ofSize size = .ok (blank size) := by
  have hproduct := mul_succ_lt_of_fits h
  rw [ofSize, if_neg (Nat.not_le.2 (succ_lt_of_mul_succ_lt hproduct)),
    if_neg (Nat.not_le.2 hproduct), if_pos h]

theorem ofSize_of_not_fits {size : Nat} (h : ¬ Fits size)
    (hproduct : size * (size + 1) < UInt64.size) : ofSize size = .error .list := by
  rw [ofSize, if_neg (Nat.not_le.2 (succ_lt_of_mul_succ_lt hproduct)),
    if_neg (Nat.not_le.2 hproduct), if_neg h]

@[simp] theorem size_blank (size : Nat) : (blank size).size = size := rfl

@[simp] theorem size_set (chart : Chart) (start stop : Nat) (cell : Cell) :
    (chart.set start stop cell).size = chart.size := by
  unfold set
  split <;> rfl

@[simp] theorem mem_spans {size start stop : Nat} :
    (start, stop) ∈ spans size ↔ start ≤ stop ∧ stop < size := by
  simp only [spans, List.mem_flatMap, List.mem_range, List.mem_map, Prod.mk.injEq]
  constructor
  · rintro ⟨extra, hextra, start', hstart, rfl, rfl⟩
    omega
  · rintro ⟨hle, hlt⟩
    exact ⟨stop - start, by omega, start, by omega, rfl, by omega⟩

@[simp] theorem cellAt_blank (size start stop : Nat) : (blank size).cellAt start stop = {} := by
  unfold cellAt
  split
  · simp only [blank, Array.getD_eq_getD_getElem?, Array.getElem?_replicate]
    split <;> rfl
  · rfl

end Chart

end PhraseStructure
