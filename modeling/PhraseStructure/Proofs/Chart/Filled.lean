import Mathlib.Data.List.Basic
import Mathlib.Data.List.Induction
import PhraseStructure.Chart.Filling
import PhraseStructure.Proofs.Chart.Spans

/-!
# Filled charts

When a span is filled all narrower ones are there already and none of them changes later. So every
cell of a filled chart is what the chart itself offers for its span. On the way no cell is read or
written that the chart does not have.
-/

namespace PhraseStructure.Chart

variable {g : Grammar} {tokens : List String}

/-- A cell is filled from the cells of narrower spans alone. -/
theorem spanCell_congr {chart chart' : Chart} {start stop : Nat}
    (h : ∀ i j, extra (i, j) < extra (start, stop) → chart.cellAt i j = chart'.cellAt i j) :
    spanCell g tokens chart start stop = spanCell g tokens chart' start stop := by
  have hoffers : spanOffers g chart start stop = spanOffers g chart' start stop := by
    apply List.flatMap_congr
    intro position hposition
    obtain ⟨hle, hlt⟩ := List.mem_range'_1.1 hposition
    have hleft : extra (start, position) < extra (start, stop) := by
      simp only [extra]
      omega
    have hright : extra (position + 1, stop) < extra (start, stop) := by
      simp only [extra]
      omega
    rw [h _ _ hleft, h _ _ hright]
  unfold spanCell
  rw [hoffers]

theorem cellAt_fillSpan_of_ne {chart : Chart} {span : Nat × Nat} {start stop : Nat}
    (h : (start, stop) ≠ span) :
    (fillSpan g tokens chart span).cellAt start stop = chart.cellAt start stop :=
  cellAt_set_of_ne h _

theorem cellAt_fillSpan_self {chart : Chart} {start stop : Nat} (h : chart.HasSpan start stop) :
    (fillSpan g tokens chart (start, stop)).cellAt start stop =
      spanCell g tokens chart start stop :=
  cellAt_set_self h _

/-- A span that is no narrower than another leaves what is offered for the other. -/
theorem spanCell_fillSpan {chart : Chart} {span : Nat × Nat} {start stop : Nat}
    (h : extra (start, stop) ≤ extra span) :
    spanCell g tokens (fillSpan g tokens chart span) start stop =
      spanCell g tokens chart start stop := by
  apply spanCell_congr
  intro i j hij
  apply cellAt_fillSpan_of_ne
  rintro rfl
  exact absurd h (Nat.not_le.2 hij)

/-- After spans in order of width each of their cells is what the chart offers for it. -/
theorem cellAt_foldl_fillSpan {size : Nat} {l : List (Nat × Nat)}
    (hspan : ∀ span ∈ l, span.1 ≤ span.2 ∧ span.2 < size)
    (horder : l.Pairwise fun a b => a ≠ b ∧ extra a ≤ extra b) :
    ∀ span ∈ l, (l.foldl (fillSpan g tokens) (blank size)).cellAt span.1 span.2 =
      spanCell g tokens (l.foldl (fillSpan g tokens) (blank size)) span.1 span.2 := by
  induction l using List.reverseRecOn with
  | nil => simp
  | append_singleton l last ih =>
    obtain ⟨hl, -, hlast⟩ := List.pairwise_append.1 horder
    have hold := ih (fun span hs => hspan span (List.mem_append_left _ hs)) hl
    rw [List.foldl_append, List.foldl_cons, List.foldl_nil]
    intro span hs
    rcases List.mem_append.1 hs with hs | hs
    · obtain ⟨hne, hwidth⟩ := hlast span hs last (List.mem_singleton_self last)
      rw [cellAt_fillSpan_of_ne hne, spanCell_fillSpan hwidth]
      exact hold span hs
    · rw [List.mem_singleton.1 hs]
      have hhas : (l.foldl (fillSpan g tokens) (blank size)).HasSpan last.1 last.2 := by
        rw [HasSpan, size_foldl_fillSpan]
        exact hspan last (by simp)
      rw [cellAt_fillSpan_self hhas, spanCell_fillSpan le_rfl]

/-! ## Accesses -/

/-- Filling a span writes its cell and reads those of the two sides of its splits. -/
theorem hasSpan_of_mem_spans {chart : Chart} {start stop : Nat}
    (h : (start, stop) ∈ spans chart.size) :
    chart.HasSpan start stop ∧ ∀ position ∈ List.range' start (stop - start),
      chart.HasSpan start position ∧ chart.HasSpan (position + 1) stop := by
  obtain ⟨hle, hlt⟩ := mem_spans.1 h
  refine ⟨⟨hle, hlt⟩, ?_⟩
  intro position hposition
  obtain ⟨hstart, hstop⟩ := List.mem_range'_1.1 hposition
  exact ⟨⟨hstart, by omega⟩, ⟨by omega, hlt⟩⟩

/-- Every cell that is read or written while a chart is filled is a cell of the chart, so that
nothing is read in place of a missing cell and nothing that is written is lost. -/
theorem hasSpan_while_filling {before after : List (Nat × Nat)} {start stop : Nat}
    (h : spans tokens.length = before ++ (start, stop) :: after) :
    let chart := before.foldl (fillSpan g tokens) (blank tokens.length)
    chart.HasSpan start stop ∧ ∀ position ∈ List.range' start (stop - start),
      chart.HasSpan start position ∧ chart.HasSpan (position + 1) stop := by
  apply hasSpan_of_mem_spans
  rw [size_foldl_fillSpan, size_blank, h]
  exact List.mem_append_right before List.mem_cons_self

/-! ## Cells -/

theorem hasSpan_fill {start stop : Nat} :
    (fill g tokens).HasSpan start stop ↔ start ≤ stop ∧ stop < tokens.length := by
  rw [HasSpan, size_fill]

theorem cell_fill {start stop : Nat} (hle : start ≤ stop) (hlt : stop < tokens.length) :
    (fill g tokens).cell start stop = .ok ((fill g tokens).cellAt start stop) :=
  if_pos (hasSpan_fill.2 ⟨hle, hlt⟩)

theorem cell_fill_eq_ok_iff {start stop : Nat} {cell : Cell} :
    (fill g tokens).cell start stop = .ok cell ↔
      (start ≤ stop ∧ stop < tokens.length) ∧ (fill g tokens).cellAt start stop = cell := by
  rw [Chart.cell, ← hasSpan_fill (g := g)]
  by_cases h : (fill g tokens).HasSpan start stop <;> simp [h]

theorem cellAt_fill {start stop : Nat} (hle : start ≤ stop) (hlt : stop < tokens.length) :
    (fill g tokens).cellAt start stop = spanCell g tokens (fill g tokens) start stop :=
  cellAt_foldl_fillSpan (fun _ hs => mem_spans.1 hs) (pairwise_spans tokens.length) (start, stop)
    (mem_spans.2 ⟨hle, hlt⟩)

theorem cellAt_fill_word {i : Nat} (h : i < tokens.length) :
    (fill g tokens).cellAt i i = Cell.ofOffers (some tokens[i]) (lexicalOffers g tokens[i]) := by
  rw [cellAt_fill le_rfl h, spanCell, if_pos rfl, List.getElem?_eq_getElem h]

theorem word_cellAt_fill {i : Nat} (h : i < tokens.length) :
    ((fill g tokens).cellAt i i).word = some tokens[i] := by
  rw [cellAt_fill_word h, Cell.word_ofOffers]

theorem cellAt_fill_split {start stop : Nat} (hlt : start < stop) (hstop : stop < tokens.length) :
    (fill g tokens).cellAt start stop =
      Cell.ofOffers none (spanOffers g (fill g tokens) start stop) := by
  rw [cellAt_fill hlt.le hstop, spanCell, if_neg hlt.ne]

end PhraseStructure.Chart
