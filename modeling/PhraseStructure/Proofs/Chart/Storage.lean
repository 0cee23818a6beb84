import Mathlib.Data.List.Nodup
import Mathlib.Data.Set.Function
import Mathlib.Order.Interval.Set.Defs
import PhraseStructure.Proofs.Chart.Spans

/-!
# The array of a chart

The places of the spans are those of the array, each of them once. So the cells of all spans, in
whatever order they are visited, are the cells of the array, and reading or writing the cell of a
span reads or writes one place within the array. Where the array has room its places are computed
within the numbers of 64 bits; where it has none there is no chart.
-/

namespace PhraseStructure.Chart

/-! ## All spans -/

theorem nodup_spans (size : Nat) : (spans size).Nodup :=
  (pairwise_spans size).imp And.left

/-- Each place is visited once on the way through all spans. -/
theorem perm_map_slot_spans (size : Nat) :
    ((spans size).map fun span => slot size span.1 span.2).Perm
      (List.range (size * (size + 1) / 2)) := by
  have hinj : ∀ a ∈ spans size, ∀ b ∈ spans size,
      slot size a.1 a.2 = slot size b.1 b.2 → a = b := by
    intro a ha b hb heq
    obtain ⟨hle, hlt⟩ := mem_spans.1 ha
    obtain ⟨hle', hlt'⟩ := mem_spans.1 hb
    exact Prod.ext_iff.2 (slot_inj hle hlt hle' hlt' heq)
  rw [List.perm_ext_iff_of_nodup ((nodup_spans size).map_on hinj) List.nodup_range]
  intro place
  rw [List.mem_map, List.mem_range]
  constructor
  · rintro ⟨span, hspan, rfl⟩
    obtain ⟨hle, hlt⟩ := mem_spans.1 hspan
    exact slot_lt hle hlt
  · intro hplace
    obtain ⟨start, stop, hspan, hslot⟩ := exists_slot_eq hplace
    exact ⟨(start, stop), mem_spans.2 hspan, hslot⟩

theorem cellAt_eq_getD {chart : Chart} {start stop : Nat} (h : chart.HasSpan start stop) :
    chart.cellAt start stop = chart.cells.getD (slot chart.size start stop) {} :=
  if_pos h

theorem perm_map_cellAt_spans (chart : Chart) :
    ((spans chart.size).map fun span => chart.cellAt span.1 span.2).Perm chart.cells.toList := by
  have hcells : (List.range chart.cells.size).map (chart.cells.getD · {}) =
      chart.cells.toList := by
    apply List.ext_getElem
    · simp
    · intro i hi _
      have hsize : i < chart.cells.size := by simpa using hi
      simp [Array.getD_eq_getD_getElem?, hsize]
  have hspans : (spans chart.size).map (fun span => chart.cellAt span.1 span.2) =
      ((spans chart.size).map fun span => slot chart.size span.1 span.2).map
        (chart.cells.getD · {}) := by
    rw [List.map_map]
    apply List.map_congr_left
    intro span hspan
    exact cellAt_eq_getD (mem_spans.1 hspan)
  rw [hspans, ← hcells, chart.size_cells]
  exact (perm_map_slot_spans chart.size).map _

/-! ## One span -/

theorem bijOn_slotOf (size : Nat) :
    Set.BijOn (slotOf size) (spanSet size) (Set.Iio (size * (size + 1) / 2)) := by
  refine ⟨?_, (strictMonoOn_slotOf size).injOn, ?_⟩
  · rintro span ⟨hle, hlt⟩
    exact slot_lt hle hlt
  · intro place hplace
    obtain ⟨start, stop, hspan, hslot⟩ := exists_slot_eq hplace
    exact ⟨toLex (start, stop), hspan, hslot⟩

/-- The cell of a span is read from its place, which lies within the array. -/
theorem exists_getElem?_slot {chart : Chart} {start stop : Nat} (h : chart.HasSpan start stop) :
    ∃ cell, chart.cells[slot chart.size start stop]? = some cell ∧
      chart.cell start stop = .ok cell := by
  have hslot : slot chart.size start stop < chart.cells.size := by
    rw [chart.size_cells]
    exact slot_lt h.1 h.2
  refine ⟨_, Array.getElem?_eq_getElem hslot, ?_⟩
  rw [Chart.cell, if_pos h, cellAt_eq_getD h]
  simp [Array.getD_eq_getD_getElem?, hslot]

theorem cell_eq_error {chart : Chart} {start stop : Nat} (h : ¬ chart.HasSpan start stop) :
    chart.cell start stop = .error (.span start stop chart.size) :=
  if_neg h

/-- Writing the cell of a span changes what is read for this span and for no other. -/
theorem cell_set {chart : Chart} {start stop : Nat} (h : chart.HasSpan start stop) (new : Cell)
    (start' stop' : Nat) :
    (chart.set start stop new).cell start' stop' =
      if (start', stop') = (start, stop) then .ok new else chart.cell start' stop' := by
  have hsame : (chart.set start stop new).HasSpan start' stop' ↔ chart.HasSpan start' stop' := by
    rw [HasSpan, HasSpan, size_set]
  rw [Chart.cell, Chart.cell, size_set]
  simp only [hsame]
  split_ifs with hspan heq heq
  · obtain ⟨rfl, rfl⟩ := Prod.mk.inj heq
    rw [cellAt_set_self h]
  · rw [cellAt_set_of_ne heq]
  · obtain ⟨rfl, rfl⟩ := Prod.mk.inj heq
    exact absurd h hspan
  · rfl

/-- In a chart that has room no step on the way to a place leaves the numbers of 64 bits. -/
theorem slot?_eq_some {size start stop : Nat} (hfits : Fits size) (hle : start ≤ stop)
    (hlt : stop < size) : slot? size start stop = some (slot size start stop) := by
  have hproduct := mul_succ_lt_of_fits hfits
  have hwhole : start * size < UInt64.size :=
    (Nat.mul_le_mul (hle.trans hlt.le) (Nat.le_succ size)).trans_lt hproduct
  have hmissing : start * (start - 1) < UInt64.size :=
    (Nat.mul_le_mul (hle.trans hlt.le) (by omega)).trans_lt hproduct
  have hslot : slot size start stop < UInt64.size :=
    (slot_lt hle hlt).trans_le ((Nat.div_le_self _ _).trans hproduct.le)
  rw [slot] at hslot
  simp [slot?, word?, difference?, slot, hwhole, hmissing, hslot, hle,
    triangle_le (hle.trans hlt.le)]

/-- A chart is made for every length whose cells have room. The place of each of its spans is
computed within the numbers of 64 bits, and no difference on the way falls below zero; the places
increase strictly with the lexicographic order of the spans and are exactly those of the array; and
any other span is out of range. So a cell is read within the array, and a cell that is written
leaves all others as they were. For a length whose cells have no room no chart is made. -/
theorem slotOf_strictMonoOn_bijOn (size : Nat) :
    (Fits size → ofSize size = .ok (blank size) ∧ ∀ start stop, start ≤ stop → stop < size →
      slot? size start stop = some (slot size start stop)) ∧
    (¬ Fits size → size * (size + 1) < UInt64.size → ofSize size = .error .list) ∧
    StrictMonoOn (slotOf size) (spanSet size) ∧
    Set.BijOn (slotOf size) (spanSet size) (Set.Iio (size * (size + 1) / 2)) ∧
    ∀ chart : Chart, chart.size = size →
      chart.cells.size = size * (size + 1) / 2 ∧
      (∀ start stop, ¬ chart.HasSpan start stop →
        chart.cell start stop = .error (.span start stop size)) ∧
      (∀ start stop, chart.HasSpan start stop →
        ∃ cell, chart.cells[slot size start stop]? = some cell ∧
          chart.cell start stop = .ok cell) ∧
      ∀ start stop, chart.HasSpan start stop → ∀ new start' stop',
        (chart.set start stop new).cell start' stop' =
          if (start', stop') = (start, stop) then .ok new else chart.cell start' stop' := by
  refine ⟨fun hfits => ⟨ofSize_of_fits hfits, fun _ _ => slot?_eq_some hfits⟩, ofSize_of_not_fits,
    strictMonoOn_slotOf size, bijOn_slotOf size, ?_⟩
  rintro chart rfl
  exact ⟨chart.size_cells, fun _ _ => cell_eq_error, fun _ _ => exists_getElem?_slot,
    fun _ _ => cell_set⟩

/-- The last row but one of four tokens. -/
theorem slotOf_strictMonoOn_bijOn_four :
    Fits 4 ∧ ofSize 4 = .ok (blank 4) ∧ slot? 4 2 2 = some 7 ∧ slot? 4 2 3 = some 8 := by
  have hfits : Fits 4 := by decide
  obtain ⟨hmade, hplace⟩ := (slotOf_strictMonoOn_bijOn 4).1 hfits
  exact ⟨hfits, hmade, hplace 2 2 (by decide) (by decide), hplace 2 3 (by decide) (by decide)⟩

/-- For a thousand million tokens there is no chart, so that none of its cells can be read. -/
theorem not_forall_exists_cell :
    ¬ ∀ size start stop, size < UInt64.size → start ≤ stop → stop < size →
      ∃ chart cell, ofSize size = .ok chart ∧ chart.cell start stop = .ok cell := by
  intro h
  obtain ⟨chart, cell, hchart, -⟩ := h 1000000000 0 0 (by decide) (by decide) (by decide)
  rw [ofSize_of_not_fits (by decide) (by decide)] at hchart
  cases hchart

/-- The rows of four tokens, one after the other. -/
example : ((List.range 4).flatMap fun start =>
    (List.range' start (4 - start)).map (slot 4 start)) = List.range 10 := by
  decide

end PhraseStructure.Chart
