import PhraseStructure.Proofs.Chart.Filled
import PhraseStructure.Proofs.Chart.Offers
import PhraseStructure.Proofs.Grammar.Lookup

/-!
# Justified entries

An entry is justified by a rule that emits the one word of its span, or by a rule and two entries
over the sides of a split. A filled chart has justified entries only, and where an entry could be
justified it has one for this symbol that is no less probable.
-/

namespace PhraseStructure

theorem Grammar.hasRule_of_rule {g : Grammar} {index : Nat} {rule : Rule}
    (h : g.rule index = .ok rule) : g.HasRule rule.lhs rule.rhs := by
  unfold Grammar.rule at h
  split at h
  · next found =>
    cases h
    exact ⟨rule, Array.mem_toList_iff.2 (Array.mem_of_getElem? found), rfl, rfl⟩
  · cases h

namespace Chart

/-- The grounds on which a chart has an entry over a span. -/
inductive Justifies (g : Grammar) (tokens : List String) (chart : Chart) :
    (start stop : Nat) → Entry → Prop where
  | word {i : Nat} {symbol : String} (hi : i < tokens.length)
      (rule : g.HasRule symbol (.unary tokens[i])) :
      Justifies g tokens chart i i ⟨symbol, g.lastProbability symbol (.unary tokens[i]), .word⟩
  | split {start position stop index : Nat} {rule : Rule} {left right : Entry}
      (hstart : start ≤ position) (hstop : position < stop) (hrule : g.rule index = .ok rule)
      (hrhs : rule.rhs = .binary left.symbol right.symbol)
      (hleft : (chart.cellAt start position).get? left.symbol = some left)
      (hright : (chart.cellAt (position + 1) stop).get? right.symbol = some right) :
      Justifies g tokens chart start stop
        ⟨rule.lhs, g.lastProbability rule.lhs rule.rhs * (left.prob * right.prob),
          .split index position⟩

/-! ## What is offered -/

theorem mem_lexicalOffers {g : Grammar} {word : String} {e : Entry} :
    e ∈ lexicalOffers g word ↔
      ∃ d ∈ g.lexicalRules word, e = ⟨d.rule.lhs, g.probability d.rule, .word⟩ := by
  simp only [lexicalOffers, List.mem_map, eq_comm]

theorem mem_spanOffers {g : Grammar} {chart : Chart} {start stop : Nat} {e : Entry} :
    e ∈ spanOffers g chart start stop ↔
      ∃ position, (start ≤ position ∧ position < stop) ∧
        ∃ left ∈ (chart.cellAt start position).entries,
          ∃ right ∈ (chart.cellAt (position + 1) stop).entries,
            ∃ d ∈ g.binaryRules left.symbol right.symbol,
              e = ⟨d.rule.lhs, g.probability d.rule * (left.prob * right.prob),
                .split d.index position⟩ := by
  have hrange : ∀ position, start ≤ position ∧ position < start + (stop - start) ↔
      start ≤ position ∧ position < stop := by
    intro position
    omega
  simp only [spanOffers, splitOffers, pairOffers, List.mem_flatMap, List.mem_map,
    List.mem_range'_1, hrange, eq_comm]

/-! ## Entries of a filled chart -/

section

variable {g : Grammar} {tokens : List String} {start stop : Nat}

theorem exists_offers_of_fill (hle : start ≤ stop) (hlt : stop < tokens.length) :
    ∃ word offers, (fill g tokens).cellAt start stop = Cell.ofOffers word offers := by
  rcases hle.eq_or_lt with rfl | hsplit
  · exact ⟨_, _, cellAt_fill_word hlt⟩
  · exact ⟨_, _, cellAt_fill_split hsplit hlt⟩

theorem get?_fill_of_mem (hle : start ≤ stop) (hlt : stop < tokens.length) {e : Entry}
    (h : e ∈ ((fill g tokens).cellAt start stop).entries) :
    ((fill g tokens).cellAt start stop).get? e.symbol = some e := by
  obtain ⟨word, offers, hcell⟩ := exists_offers_of_fill (g := g) hle hlt
  rw [hcell] at h ⊢
  exact Cell.get?_ofOffers_of_mem h

theorem justifies_of_get? (hle : start ≤ stop) (hlt : stop < tokens.length) {symbol : String}
    {e : Entry} (h : ((fill g tokens).cellAt start stop).get? symbol = some e) :
    Justifies g tokens (fill g tokens) start stop e := by
  rcases hle.eq_or_lt with rfl | hsplit
  · rw [cellAt_fill_word hlt] at h
    obtain ⟨d, hd, rfl⟩ := mem_lexicalOffers.1 (Cell.mem_of_get?_ofOffers h)
    rw [← Grammar.lastProbability_of_mem_rulesWith hd]
    exact .word hlt (Grammar.hasRule_of_mem_rulesWith hd)
  · rw [cellAt_fill_split hsplit hlt] at h
    obtain ⟨position, ⟨hstart, hstop⟩, left, hleft, right, hright, d, hd, rfl⟩ :=
      mem_spanOffers.1 (Cell.mem_of_get?_ofOffers h)
    obtain ⟨hrule, hrhs, -⟩ := Grammar.spec_of_mem_rulesWith hd
    rw [← Grammar.lastProbability_of_mem_rulesWith hd, ← hrhs]
    exact .split hstart hstop hrule hrhs (get?_fill_of_mem hstart (hstop.trans hlt) hleft)
      (get?_fill_of_mem hstop hlt hright)

/-- The entries over one token have its word as origin, and those over more tokens a split within
their span. -/
theorem origin_of_get?_fill (hle : start ≤ stop) (hlt : stop < tokens.length)
    {symbol : String} {e : Entry} (he : ((fill g tokens).cellAt start stop).get? symbol = some e) :
    (start = stop ∧ e.origin = .word) ∨
      ∃ index position, e.origin = .split index position ∧ start ≤ position ∧ position < stop := by
  cases justifies_of_get? hle hlt he with
  | word => exact .inl ⟨rfl, rfl⟩
  | split hstart hstop => exact .inr ⟨_, _, rfl, hstart, hstop⟩

/-- A filled chart has an entry for whatever a rule emits over a word, and none that is less
probable than this rule makes it. -/
theorem exists_get?_fill_word {i : Nat} (hi : i < tokens.length) {symbol : String}
    (rule : g.HasRule symbol (.unary tokens[i])) :
    ∃ kept, ((fill g tokens).cellAt i i).get? symbol = some kept ∧
      ¬ kept.prob < g.lastProbability symbol (.unary tokens[i]) := by
  obtain ⟨d, hd, rfl⟩ := Grammar.exists_mem_rulesWith.2 rule
  rw [cellAt_fill_word hi, Grammar.lastProbability_of_mem_rulesWith hd]
  exact Cell.exists_get?_ofOffers_of_mem (mem_lexicalOffers.2 ⟨d, hd, rfl⟩)

/-- A filled chart has an entry for whatever a rule combines from two entries over the sides of a
split, and none that is less probable than these make it. -/
theorem exists_get?_fill_split {position : Nat} (hstart : start ≤ position)
    (hstop : position < stop) (hlt : stop < tokens.length) {symbol left right : String}
    (rule : g.HasRule symbol (.binary left right)) {l r : Entry}
    (hleft : ((fill g tokens).cellAt start position).get? left = some l)
    (hright : ((fill g tokens).cellAt (position + 1) stop).get? right = some r) :
    ∃ kept, ((fill g tokens).cellAt start stop).get? symbol = some kept ∧
      ¬ kept.prob < g.lastProbability symbol (.binary left right) * (l.prob * r.prob) := by
  obtain ⟨d, hd, rfl⟩ := Grammar.exists_mem_rulesWith.2 rule
  rw [cellAt_fill_split (hstart.trans_lt hstop) hlt, Grammar.lastProbability_of_mem_rulesWith hd]
  obtain rfl := Cell.symbol_of_get? hleft
  obtain rfl := Cell.symbol_of_get? hright
  exact Cell.exists_get?_ofOffers_of_mem (mem_spanOffers.2 ⟨position, ⟨hstart, hstop⟩, l,
    Cell.mem_of_get? hleft, r, Cell.mem_of_get? hright, d, hd, rfl⟩)

end

end Chart

end PhraseStructure
