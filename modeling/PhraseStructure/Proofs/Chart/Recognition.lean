import PhraseStructure.Proofs.Chart.Justified

/-!
# Recognition

A filled chart has an entry for a symbol over a span exactly if the symbol derives the tokens of
the span. The weights of the rules do not matter.
-/

namespace PhraseStructure

/-! ## The tokens of a span -/

section

variable {tokens : List String} {start stop : Nat}

theorem length_extract_span (hle : start ≤ stop) (hlt : stop < tokens.length) :
    (tokens.extract start (stop + 1)).length = stop + 1 - start := by
  rw [List.extract_eq_take_drop, List.length_take, List.length_drop]
  omega

theorem getElem?_extract_span {i : Nat} (h : start + i ≤ stop) :
    (tokens.extract start (stop + 1))[i]? = tokens[start + i]? := by
  rw [List.extract_eq_take_drop, List.getElem?_take_of_lt (by omega), List.getElem?_drop]

theorem extract_one (h : start < tokens.length) :
    tokens.extract start (start + 1) = [tokens[start]] := by
  rw [List.extract_eq_take_drop, Nat.add_sub_cancel_left, List.take_one_drop_eq_of_lt_length h]
  rfl

theorem eq_of_singleton_eq_extract {word : String} (hstart : start < tokens.length)
    (hle : start ≤ stop) (hlt : stop < tokens.length)
    (h : [word] = tokens.extract start (stop + 1)) : start = stop ∧ word = tokens[start] := by
  have hlength := congrArg List.length h
  rw [length_extract_span hle hlt, List.length_singleton] at hlength
  obtain rfl : start = stop := by omega
  rw [extract_one hstart] at h
  exact ⟨rfl, List.head_eq_of_cons_eq h⟩

theorem extract_append_extract {position : Nat} (hstart : start ≤ position)
    (hstop : position < stop) :
    tokens.extract start (position + 1) ++ tokens.extract (position + 1) (stop + 1) =
      tokens.extract start (stop + 1) := by
  have hsum : stop + 1 - start = (position + 1 - start) + (stop + 1 - (position + 1)) := by omega
  have hdrop : start + (position + 1 - start) = position + 1 := by omega
  simp only [List.extract_eq_take_drop]
  rw [hsum, List.take_add, List.drop_drop, hdrop]

/-- Two parts of the tokens of a span, neither of them empty, are those of the two sides of a
split. -/
theorem exists_split_of_append {us vs : List String} (hle : start ≤ stop)
    (hlt : stop < tokens.length) (hus : us ≠ []) (hvs : vs ≠ [])
    (h : us ++ vs = tokens.extract start (stop + 1)) :
    ∃ position, start ≤ position ∧ position < stop ∧ us = tokens.extract start (position + 1) ∧
      vs = tokens.extract (position + 1) (stop + 1) := by
  have hlength := congrArg List.length h
  have hpos := List.length_pos_iff.2 hus
  have hpos' := List.length_pos_iff.2 hvs
  rw [List.length_append, length_extract_span hle hlt] at hlength
  have hstart : start ≤ start + us.length - 1 := by omega
  have hstop : start + us.length - 1 < stop := by omega
  have hparts := h.trans (extract_append_extract hstart hstop).symm
  have hleft : us.length = (tokens.extract start (start + us.length - 1 + 1)).length := by
    rw [length_extract_span hstart (hstop.trans hlt)]
    omega
  obtain ⟨heq, heq'⟩ := List.append_inj hparts hleft
  exact ⟨_, hstart, hstop, heq, heq'⟩

theorem extract_all (h : tokens ≠ []) : tokens.extract 0 (tokens.length - 1 + 1) = tokens := by
  have hpos := List.length_pos_iff.2 h
  rw [List.extract_eq_take_drop, List.drop_zero, List.take_of_length_le]
  omega

end

namespace Chart

variable {g : Grammar} {tokens : List String}

theorem derives_of_get?_fill {start stop : Nat} (hle : start ≤ stop) (hlt : stop < tokens.length)
    {symbol : String} {e : Entry} (h : ((fill g tokens).cellAt start stop).get? symbol = some e) :
    g.Derives symbol (tokens.extract start (stop + 1)) := by
  -- by induction on the width: the two sides of a split are narrower
  induction hwidth : stop - start using Nat.strong_induction_on
    generalizing start stop symbol e with
  | _ width ih =>
    obtain rfl := Cell.symbol_of_get? h
    cases justifies_of_get? hle hlt h with
    | word hi rule =>
      rw [extract_one hi]
      exact .word rule
    | split hstart hstop hrule hrhs hleft hright =>
      have hhas := Grammar.hasRule_of_rule hrule
      rw [hrhs] at hhas
      rw [← extract_append_extract hstart hstop]
      exact .split hhas (ih _ (by omega) hstart (hstop.trans hlt) hleft rfl)
        (ih _ (by omega) hstop hlt hright rfl)

theorem exists_get?_fill_of_derives {symbol : String} {words : List String}
    (h : g.Derives symbol words) {start stop : Nat} (hle : start ≤ stop)
    (hlt : stop < tokens.length) (hwords : words = tokens.extract start (stop + 1)) :
    ∃ e, ((fill g tokens).cellAt start stop).get? symbol = some e := by
  induction h generalizing start stop with
  | word rule =>
    obtain ⟨rfl, rfl⟩ := eq_of_singleton_eq_extract (hle.trans_lt hlt) hle hlt hwords
    obtain ⟨e, he, -⟩ := exists_get?_fill_word hlt rule
    exact ⟨e, he⟩
  | split rule hleft hright ihl ihr =>
    obtain ⟨position, hstart, hstop, hus, hvs⟩ :=
      exists_split_of_append hle hlt hleft.ne_nil hright.ne_nil hwords
    obtain ⟨l, hl⟩ := ihl hstart (hstop.trans hlt) hus
    obtain ⟨r, hr⟩ := ihr hstop hlt hvs
    obtain ⟨e, he, -⟩ := exists_get?_fill_split hstart hstop hlt rule hl hr
    exact ⟨e, he⟩

/-- The cell of every span has an entry for exactly the symbols that derive its tokens. -/
theorem mem_cell_fill_iff_derives (g : Grammar) (tokens : List String) {start stop : Nat}
    (hle : start ≤ stop) (hlt : stop < tokens.length) (symbol : String) :
    ∃ cell, (fill g tokens).cell start stop = .ok cell ∧
      ((∃ e ∈ cell.entries, e.symbol = symbol) ↔
        g.Derives symbol (tokens.extract start (stop + 1))) := by
  refine ⟨_, cell_fill hle hlt, ?_, ?_⟩
  · rintro ⟨e, he, rfl⟩
    exact derives_of_get?_fill hle hlt (get?_fill_of_mem hle hlt he)
  · intro h
    obtain ⟨e, he⟩ := exists_get?_fill_of_derives h hle hlt rfl
    exact ⟨e, Cell.mem_of_get? he, Cell.symbol_of_get? he⟩

/-- A part of a sentence, by rules whose weights are negative, no number and zero. -/
theorem mem_cell_fill_iff_derives_inner :
    (1 ≤ 2 ∧ 2 < ["a", "a", "a", "a"].length) ∧
      ∃ cell, (fill (.ofRules [⟨"S", .binary "S" "S", -1⟩, ⟨"S", .unary "a", 0.0 / 0.0⟩,
          ⟨"S", .unary "a", 0⟩]) ["a", "a", "a", "a"]).cell 1 2 = .ok cell ∧
        ((∃ e ∈ cell.entries, e.symbol = "S") ↔
          (Grammar.ofRules [⟨"S", .binary "S" "S", -1⟩, ⟨"S", .unary "a", 0.0 / 0.0⟩,
            ⟨"S", .unary "a", 0⟩]).Derives "S" ["a", "a"]) :=
  ⟨by decide, mem_cell_fill_iff_derives _ ["a", "a", "a", "a"] (by decide) (by decide) "S"⟩

end Chart

end PhraseStructure
