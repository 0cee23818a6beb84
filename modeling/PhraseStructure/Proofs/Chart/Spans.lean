import Mathlib.Algebra.Group.Nat.Even
import Mathlib.Algebra.Ring.Parity
import Mathlib.Data.Nat.Choose.Basic
import Mathlib.Data.Prod.Lex
import Mathlib.Order.Monotone.Basic
import PhraseStructure.Chart.Basic

/-!
# The places of spans

The rows of a chart follow each other without gap or overlap, so the places of the spans increase in
lexicographic order and fill the array (`strictMonoOn_slotOf`, `exists_slot_eq`), and a write to one
cell leaves all others as they were. The spans are listed once each, none of them before a narrower
one.
-/

namespace PhraseStructure.Chart

/-! ## Rows -/

/-- The number of cells in the rows before a token. -/
def rowStart (size start : Nat) : Nat :=
  start * size - start * (start - 1) / 2

theorem slot_eq (size start stop : Nat) :
    slot size start stop = rowStart size start + (stop - start) := rfl

theorem triangle_le {size start : Nat} (h : start ≤ size) :
    start * (start - 1) / 2 ≤ start * size :=
  (Nat.div_le_self _ _).trans (Nat.mul_le_mul_left _ (by omega))

/-- A row that starts at a token has as many cells as there are tokens from it on. -/
theorem rowStart_succ {size start : Nat} (h : start < size) :
    rowStart size (start + 1) = rowStart size start + (size - start) := by
  have htriangle := Nat.triangle_succ start
  have hle := triangle_le h.le
  unfold rowStart
  rw [htriangle, Nat.succ_mul]
  omega

theorem rowStart_size (size : Nat) : rowStart size size = size * (size + 1) / 2 := by
  have htriangle := Nat.triangle_succ size
  have hdouble : size * (size - 1) / 2 * 2 = size * (size - 1) :=
    Nat.div_mul_cancel (Nat.even_mul_pred_self size).two_dvd
  have hsquare : size * (size - 1) + size = size * size := by
    cases size with
    | zero => rfl
    | succ k => rw [Nat.add_sub_cancel, Nat.mul_succ]
  rw [Nat.mul_comm size (size + 1)]
  rw [Nat.add_sub_cancel] at htriangle
  rw [rowStart, htriangle]
  omega

theorem rowStart_add_le {size start later : Nat} (h : start < later) (hlater : later ≤ size) :
    rowStart size start + (size - start) ≤ rowStart size later := by
  induction later, h using Nat.le_induction with
  | base => rw [rowStart_succ hlater]
  | succ later hle ih =>
    rw [rowStart_succ hlater]
    exact (ih (by omega)).trans (Nat.le_add_right _ _)

/-! ## Places -/

theorem slot_lt {size start stop : Nat} (hle : start ≤ stop) (hlt : stop < size) :
    slot size start stop < size * (size + 1) / 2 := by
  have hrow : rowStart size start + (size - start) ≤ rowStart size size :=
    rowStart_add_le (hle.trans_lt hlt) le_rfl
  rw [rowStart_size] at hrow
  rw [slot_eq]
  omega

/-- The spans of `size` tokens, in lexicographic order. -/
def spanSet (size : Nat) : Set (Nat ×ₗ Nat) :=
  {span | (ofLex span).1 ≤ (ofLex span).2 ∧ (ofLex span).2 < size}

def slotOf (size : Nat) (span : Nat ×ₗ Nat) : Nat :=
  slot size (ofLex span).1 (ofLex span).2

/-- A later row has higher places, and so has a later cell of the same row. -/
theorem strictMonoOn_slotOf (size : Nat) : StrictMonoOn (slotOf size) (spanSet size) := by
  intro span hspan span' hspan' hlt
  obtain ⟨hle, hstop⟩ := hspan
  obtain ⟨hle', hstop'⟩ := hspan'
  rw [slotOf, slotOf, slot_eq, slot_eq]
  rcases Prod.Lex.lt_iff.1 hlt with hrow | ⟨hrow, hcell⟩
  · have hrows := rowStart_add_le hrow (hle'.trans hstop'.le)
    omega
  · rw [hrow] at hle ⊢
    omega

theorem slot_inj {size start stop start' stop' : Nat} (hle : start ≤ stop) (hlt : stop < size)
    (hle' : start' ≤ stop') (hlt' : stop' < size)
    (h : slot size start stop = slot size start' stop') : start = start' ∧ stop = stop' := by
  have hspan : toLex (start, stop) ∈ spanSet size := ⟨hle, hlt⟩
  have hspan' : toLex (start', stop') ∈ spanSet size := ⟨hle', hlt'⟩
  exact Prod.mk.inj (toLex.injective ((strictMonoOn_slotOf size).injOn hspan hspan' h))

theorem exists_slot_eq {size place : Nat} (h : place < size * (size + 1) / 2) :
    ∃ start stop, (start ≤ stop ∧ stop < size) ∧ slot size start stop = place := by
  -- by induction on the number of rows: the place is in the last of them or before it
  suffices hrows : ∀ rows ≤ size, place < rowStart size rows →
      ∃ start stop, (start ≤ stop ∧ stop < size) ∧ slot size start stop = place by
    rw [← rowStart_size] at h
    exact hrows size le_rfl h
  intro rows
  induction rows with
  | zero => simp [rowStart]
  | succ row ih =>
    intro hrow hplace
    rw [rowStart_succ hrow] at hplace
    by_cases hbefore : place < rowStart size row
    · exact ih (by omega) hbefore
    · refine ⟨row, row + (place - rowStart size row), by omega, ?_⟩
      rw [slot_eq]
      omega

/-! ## Writing a cell -/

theorem cellAt_of_not_hasSpan {chart : Chart} {start stop : Nat} (h : ¬ chart.HasSpan start stop) :
    chart.cellAt start stop = {} :=
  if_neg h

theorem cellAt_set_self {chart : Chart} {start stop : Nat} (h : chart.HasSpan start stop)
    (cell : Cell) : (chart.set start stop cell).cellAt start stop = cell := by
  have hslot : slot chart.size start stop < chart.cells.size := by
    rw [chart.size_cells]
    exact slot_lt h.1 h.2
  have hspan : (chart.set start stop cell).HasSpan start stop := by
    rw [HasSpan, size_set]
    exact h
  rw [cellAt, if_pos hspan, size_set, set, if_pos h]
  simp [Array.getD_eq_getD_getElem?, hslot]

theorem cellAt_set_of_ne {chart : Chart} {start stop start' stop' : Nat}
    (h : (start', stop') ≠ (start, stop)) (cell : Cell) :
    (chart.set start stop cell).cellAt start' stop' = chart.cellAt start' stop' := by
  by_cases hset : chart.HasSpan start stop
  · by_cases hspan : chart.HasSpan start' stop'
    · have hslot : slot chart.size start stop ≠ slot chart.size start' stop' := by
        intro heq
        obtain ⟨rfl, rfl⟩ := slot_inj hset.1 hset.2 hspan.1 hspan.2 heq
        exact h rfl
      have hspan' : (chart.set start stop cell).HasSpan start' stop' := by
        rw [HasSpan, size_set]
        exact hspan
      rw [cellAt, if_pos hspan', cellAt, if_pos hspan, size_set, set, if_pos hset]
      simp [Array.getD_eq_getD_getElem?, Array.getElem?_setIfInBounds_ne hslot]
    · rw [cellAt_of_not_hasSpan hspan, cellAt_of_not_hasSpan]
      rwa [HasSpan, size_set]
  · rw [set, if_neg hset]

/-! ## The order of the spans -/

/-- The number of tokens of a span beyond its first. -/
def extra (span : Nat × Nat) : Nat :=
  span.2 - span.1

/-- The spans are listed by their widths, and those of one width from left to right. -/
theorem pairwise_lt_spans (size : Nat) :
    (spans size).Pairwise fun a b => toLex (extra a, a.1) < toLex (extra b, b.1) := by
  rw [spans, List.pairwise_flatMap]
  constructor
  · intro extra _
    rw [List.pairwise_map]
    apply List.pairwise_lt_range.imp
    intro a b hlt
    simp [Prod.Lex.toLex_lt_toLex, Chart.extra, hlt]
  · apply List.pairwise_lt_range.imp
    intro k l hlt a ha b hb
    obtain ⟨i, -, rfl⟩ := List.mem_map.1 ha
    obtain ⟨j, -, rfl⟩ := List.mem_map.1 hb
    simp [Prod.Lex.toLex_lt_toLex, Chart.extra, hlt]

theorem pairwise_spans (size : Nat) :
    (spans size).Pairwise fun a b => a ≠ b ∧ extra a ≤ extra b := by
  apply (pairwise_lt_spans size).imp
  intro a b hlt
  constructor
  · rintro rfl
    exact lt_irrefl _ hlt
  · exact (Prod.Lex.toLex_le_toLex'.1 hlt.le).1

end PhraseStructure.Chart
