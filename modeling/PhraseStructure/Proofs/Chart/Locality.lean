import PhraseStructure.Proofs.Chart.Contents

/-!
# Locality

The cell of a span depends on the tokens of the span alone, wherever these stand. Tokens before
the span move its splits to the right and change nothing else, and tokens after it change nothing
at all.
-/

namespace PhraseStructure

/-! ## More tokens in front -/

/-- The origin with some more tokens in front. -/
def Origin.shift (origin : Origin) (offset : Nat) : Origin :=
  match origin with
  | .word => .word
  | .split rule position => .split rule (offset + position)

def Entry.shift (e : Entry) (offset : Nat) : Entry :=
  { e with origin := e.origin.shift offset }

def Cell.shift (cell : Cell) (offset : Nat) : Cell :=
  { cell with entries := cell.entries.map (·.shift offset) }

variable (offset : Nat)

@[simp] theorem Origin.shift_shift (origin : Origin) (first : Nat) :
    (origin.shift first).shift offset = origin.shift (offset + first) := by
  cases origin with
  | word => rfl
  | split rule position => rw [shift, shift, shift, Nat.add_assoc]

@[simp] theorem Cell.shift_shift (cell : Cell) (first : Nat) :
    (cell.shift first).shift offset = cell.shift (offset + first) := by
  simp [shift, Entry.shift]

namespace Entry

theorem best_shift (e new : Entry) :
    best (some (e.shift offset)) (new.shift offset) = (best (some e) new).shift offset := by
  by_cases h : e.prob < new.prob
  · simp [best, shift, h]
  · simp [best, shift, h]

theorem improved_shift (new : Entry) (entries : List Entry) :
    (new.shift offset).improved (entries.map (·.shift offset)) =
      (new.improved entries).map (·.shift offset) := by
  induction entries with
  | nil => rfl
  | cons e rest ih =>
    have hsymbols : (e.shift offset).symbol = (new.shift offset).symbol ↔ e.symbol = new.symbol :=
      Iff.rfl
    simp only [List.map_cons, improved_cons, hsymbols]
    split
    · rw [best_shift, List.map_cons]
    · rw [ih, List.map_cons]

end Entry

namespace Cell

theorem offer_shift (cell : Cell) (new : Entry) :
    (cell.shift offset).offer (new.shift offset) = (cell.offer new).shift offset := by
  have hword : ((cell.shift offset).offer (new.shift offset)).word = (cell.offer new).word := by
    rw [word_offer, word_offer, shift]
  have hentries : ((cell.shift offset).offer (new.shift offset)).entries =
      (cell.offer new).entries.map (·.shift offset) := by
    rw [entries_offer, entries_offer, shift, Entry.improved_shift]
  exact congr (congrArg Cell.mk hword) hentries

theorem ofOffers_shift (word : Option String) (offers : List Entry) :
    ofOffers word (offers.map (·.shift offset)) = (ofOffers word offers).shift offset := by
  induction offers using List.reverseRecOn with
  | nil => rfl
  | append_singleton offers new ih =>
    rw [List.map_append, List.map_singleton, ofOffers_append_singleton, ih, offer_shift,
      ofOffers_append_singleton]

end Cell

namespace Chart

/-! ## What is offered -/

theorem lexicalOffers_shift (g : Grammar) (word : String) :
    (lexicalOffers g word).map (·.shift offset) = lexicalOffers g word := by
  rw [lexicalOffers, List.map_map]
  rfl

theorem pairOffers_shift (g : Grammar) (position : Nat) (left right : Entry) :
    pairOffers g (offset + position) (left.shift offset) (right.shift offset) =
      (pairOffers g position left right).map (·.shift offset) := by
  rw [pairOffers, pairOffers, List.map_map]
  rfl

theorem splitOffers_shift (g : Grammar) (position : Nat) (left right : Cell) :
    splitOffers g (offset + position) (left.shift offset) (right.shift offset) =
      (splitOffers g position left right).map (·.shift offset) := by
  simp only [splitOffers, Cell.shift, List.flatMap_map, List.map_flatMap, pairOffers_shift]

variable {offset} {g : Grammar} {tokens tokens' : List String} {start stop : Nat}

/-- Two charts whose narrower cells are the same but for the tokens in front offer the same. -/
theorem spanOffers_shift {chart chart' : Chart}
    (h : ∀ i j, start ≤ i → j ≤ stop → i ≤ j → j - i < stop - start →
      chart'.cellAt (offset + i) (offset + j) = (chart.cellAt i j).shift offset) :
    spanOffers g chart' (offset + start) (offset + stop) =
      (spanOffers g chart start stop).map (·.shift offset) := by
  rw [spanOffers, Nat.add_sub_add_left, ← List.map_add_range', List.flatMap_map, spanOffers,
    List.map_flatMap]
  apply List.flatMap_congr
  intro position hposition
  obtain ⟨hle, hlt⟩ := List.mem_range'_1.1 hposition
  rw [h start position le_rfl (by omega) hle (by omega), Nat.add_assoc,
    h (position + 1) stop (by omega) le_rfl (by omega) (by omega), splitOffers_shift]

/-! ## The cell of a span -/

/-- Two token lists with the same tokens in a span, which may stand elsewhere, have the same cell
there. -/
theorem cellAt_fill_shift (hle : start ≤ stop) (hlt : stop < tokens.length)
    (h : ∀ i, start ≤ i → i ≤ stop → tokens'[offset + i]? = tokens[i]?) :
    (fill g tokens').cellAt (offset + start) (offset + stop) =
      ((fill g tokens).cellAt start stop).shift offset := by
  -- by induction on the width, as a cell is filled from the cells of narrower spans
  induction hwidth : stop - start using Nat.strong_induction_on generalizing start stop with
  | _ width ih =>
    have hstop := h stop hle le_rfl
    rw [List.getElem?_eq_getElem hlt] at hstop
    obtain ⟨hlt', hword⟩ := List.getElem?_eq_some_iff.1 hstop
    rcases hle.eq_or_lt with rfl | hsplit
    · rw [cellAt_fill_word hlt', cellAt_fill_word hlt, hword, ← Cell.ofOffers_shift,
        lexicalOffers_shift]
    · rw [cellAt_fill_split (Nat.add_lt_add_left hsplit offset) hlt', cellAt_fill_split hsplit hlt,
        ← Cell.ofOffers_shift]
      congr 1
      apply spanOffers_shift
      intro i j hi hj hij hnarrow
      exact ih _ (hwidth ▸ hnarrow) hij (hj.trans_lt hlt)
        (fun k hik hkj => h k (hi.trans hik) (hkj.trans hj)) rfl

theorem cellAt_fill_append (before after : List String) (hle : start ≤ stop)
    (hlt : stop < tokens.length) :
    (fill g (before ++ tokens ++ after)).cellAt (before.length + start) (before.length + stop) =
      ((fill g tokens).cellAt start stop).shift before.length := by
  apply cellAt_fill_shift hle hlt
  intro i _ hi
  rw [List.append_assoc, List.getElem?_append_right (Nat.le_add_right _ _),
    Nat.add_sub_cancel_left, List.getElem?_append_left (hi.trans_lt hlt)]

theorem cellAt_fill_extract {first last : Nat} (hfirst : first ≤ start) (hle : start ≤ stop)
    (hlast : stop ≤ last) (hlt : last < tokens.length) :
    (fill g tokens).cellAt start stop =
      ((fill g (tokens.extract first (last + 1))).cellAt (start - first) (stop - first)).shift
        first := by
  have hlength := length_extract_span (hfirst.trans (hle.trans hlast)) hlt
  have hcell := @cellAt_fill_shift first g (tokens.extract first (last + 1)) tokens (start - first)
    (stop - first) (Nat.sub_le_sub_right hle first) (by omega)
    (fun i _ hi => (getElem?_extract_span (by omega)).symm)
  rwa [Nat.add_sub_of_le hfirst, Nat.add_sub_of_le (hfirst.trans hle)] at hcell

/-- The cell of a span within a part of some tokens is known from the part: the chart of all tokens
has the same cell, but for the tokens before the part. Nor do more tokens before or after them
change it otherwise. -/
theorem cell_fill_extract (g : Grammar) (tokens : List String) {first start stop last : Nat}
    (hfirst : first ≤ start) (hle : start ≤ stop) (hlast : stop ≤ last)
    (hlt : last < tokens.length) :
    ∃ cell, (fill g (tokens.extract first (last + 1))).cell (start - first) (stop - first) =
        .ok cell ∧
      (fill g tokens).cell start stop = .ok (cell.shift first) ∧
      ∀ before after, (fill g (before ++ tokens ++ after)).cell (before.length + start)
        (before.length + stop) = .ok (cell.shift (before.length + first)) := by
  have hlength := length_extract_span (hfirst.trans (hle.trans hlast)) hlt
  have hstop := hlast.trans_lt hlt
  have hcell := @cellAt_fill_extract g tokens start stop first last hfirst hle hlast hlt
  refine ⟨_, cell_fill (Nat.sub_le_sub_right hle first) (by omega), ?_, ?_⟩
  · rw [cell_fill hle hstop, hcell]
  · intro before after
    have hlength' : before.length + stop < (before ++ tokens ++ after).length := by
      simp only [List.length_append]
      omega
    rw [cell_fill (Nat.add_le_add_left hle _) hlength', cellAt_fill_append before after hle hstop,
      hcell, Cell.shift_shift]

/-- A pair of words on its own, at the end of three words, and among five. -/
theorem cell_fill_extract_repeatedWord :
    (1 ≤ 1 ∧ 1 ≤ 2 ∧ 2 ≤ 2 ∧ 2 < ["x", "x", "x"].length) ∧
      ∃ cell, (fill repeatedWord ["x", "x"]).cell 0 1 = .ok cell ∧
        cell.shift 1 = ⟨none, [⟨"S", 0.5 * (0.5 * 0.5), .split 0 1⟩]⟩ ∧
        (fill repeatedWord ["y", "x", "x", "x", "z"]).cell 2 3 =
          .ok ⟨none, [⟨"S", 0.5 * (0.5 * 0.5), .split 0 2⟩]⟩ := by
  refine ⟨by decide, ?_⟩
  obtain ⟨cell, hpart, hcell, hall⟩ := @cell_fill_extract repeatedWord ["x", "x", "x"] 1 1 2 2
    (by decide) (by decide) (by decide) (by decide)
  rw [cell_fill (by decide) (by decide), cellAt_pair_repeatedWord (by decide)] at hcell
  have hshift := (Except.ok.inj hcell).symm
  refine ⟨cell, hpart, hshift, ?_⟩
  have hmore := hall ["y"] ["z"]
  rw [← Cell.shift_shift, hshift] at hmore
  exact hmore

end Chart

end PhraseStructure
