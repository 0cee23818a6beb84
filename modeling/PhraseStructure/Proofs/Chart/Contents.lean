import PhraseStructure.Proofs.Chart.Optimality

/-!
# What a cell holds

A cell of several tokens is described by its candidates alone: the rules over the pairs of entries
that the finished chart has on the two sides of each split. It has an entry for each of their
symbols, in order of first candidates, none of them beaten by a candidate for its symbol, and in a
weighted grammar each of them the first of the best. The cell of one token holds the rules that emit
its word.
-/

namespace PhraseStructure

/-- A rule over two adjacent entries, the first one ending at token `position`. -/
structure Candidate where
  position : Nat
  left : Entry
  right : Entry
  declared : Declared

namespace Candidate

def symbol (c : Candidate) : String :=
  c.declared.rule.lhs

def prob (g : Grammar) (c : Candidate) : Float :=
  g.probability c.declared.rule * (c.left.prob * c.right.prob)

/-- The entry that a candidate makes. -/
def entry (g : Grammar) (c : Candidate) : Entry :=
  ⟨c.symbol, c.prob g, .split c.declared.index c.position⟩

end Candidate

namespace Chart

/-- The candidates for a span, in order of split, left entry, right entry and rule. -/
def candidates (g : Grammar) (chart : Chart) (start stop : Nat) : List Candidate :=
  (List.range' start (stop - start)).flatMap fun position =>
    (chart.cellAt start position).entries.flatMap fun left =>
      (chart.cellAt (position + 1) stop).entries.flatMap fun right =>
        (g.binaryRules left.symbol right.symbol).map fun d => ⟨position, left, right, d⟩

/-- What the cell of a span of several tokens holds, by what the chart has on the two sides of each
split. -/
structure IsSpanCell (g : Grammar) (chart : Chart) (start stop : Nat) (cell : Cell) : Prop where
  word : cell.word = none
  symbols : cell.entries.map (·.symbol) =
    ((candidates g chart start stop).map (·.symbol)).eraseDups
  origin : ∀ e ∈ cell.entries, ∃ index position rule left right,
    e.origin = .split index position ∧ start ≤ position ∧ position < stop ∧
      g.IsLastAt index rule ∧ rule.lhs = e.symbol ∧ rule.rhs = .binary left.symbol right.symbol ∧
      (chart.cellAt start position).get? left.symbol = some left ∧
      (chart.cellAt (position + 1) stop).get? right.symbol = some right ∧
      e.prob = g.probability rule * (left.prob * right.prob)
  not_lt : ∀ e ∈ cell.entries, ∀ c ∈ candidates g chart start stop, c.symbol = e.symbol →
    ¬ e.prob < c.prob g
  first : g.IsWeighted → ∀ e ∈ cell.entries, ∃ before c after,
    candidates g chart start stop = before ++ c :: after ∧ e = c.entry g ∧
      ∀ b ∈ before, b.symbol = e.symbol → b.prob g < e.prob

variable {g : Grammar} {tokens : List String} {chart : Chart} {start stop : Nat}

theorem spanOffers_eq_map_candidates :
    spanOffers g chart start stop = (candidates g chart start stop).map (Candidate.entry g) := by
  simp only [spanOffers, splitOffers, pairOffers, candidates, List.map_flatMap, List.map_map]
  rfl

/-- A candidate joins two entries on the two sides of a split by a rule for their symbols, the last
one with its two sides. -/
theorem mem_candidates {c : Candidate} :
    c ∈ candidates g chart start stop ↔ start ≤ c.position ∧ c.position < stop ∧
      c.left ∈ (chart.cellAt start c.position).entries ∧
      c.right ∈ (chart.cellAt (c.position + 1) stop).entries ∧
      c.declared ∈ g.binaryRules c.left.symbol c.right.symbol := by
  simp only [candidates, List.mem_flatMap, List.mem_range'_1, List.mem_map]
  constructor
  · rintro ⟨position, hposition, left, hleft, right, hright, d, hd, rfl⟩
    exact ⟨hposition.1, by dsimp only; omega, hleft, hright, hd⟩
  · rintro ⟨hstart, hstop, hleft, hright, hd⟩
    exact ⟨_, ⟨hstart, by omega⟩, _, hleft, _, hright, _, hd, rfl⟩

/-! ## One token -/

theorem nodup_symbol_lexicalOffers (g : Grammar) (word : String) :
    ((lexicalOffers g word).map (·.symbol)).Nodup := by
  rw [lexicalOffers, List.map_map, Grammar.lexicalRules, g.index_eq]
  exact RuleIndex.nodup_lhs_rulesWith g.rules.toList (.unary word)

theorem cellAt_fill_word_eq {i : Nat} (h : i < tokens.length) :
    (fill g tokens).cellAt i i = ⟨some tokens[i], lexicalOffers g tokens[i]⟩ := by
  rw [cellAt_fill_word h]
  generalize hcell : Cell.ofOffers (some tokens[i]) (lexicalOffers g tokens[i]) = cell
  have hword : cell.word = some tokens[i] := by rw [← hcell, Cell.word_ofOffers]
  have hentries : cell.entries = lexicalOffers g tokens[i] := by
    rw [← hcell, Cell.entries_ofOffers_of_nodup (nodup_symbol_lexicalOffers g tokens[i])]
  rw [← hword, ← hentries]

/-! ## Several tokens -/

theorem isShare_prob_of_mem_candidates (hg : g.IsWeighted) (hlt : stop < tokens.length)
    {c : Candidate} (h : c ∈ candidates g (fill g tokens) start stop) :
    Binary64.IsShare (c.prob g) := by
  obtain ⟨hstart, hstop, hleft, hright, hd⟩ := mem_candidates.1 h
  obtain ⟨hrule, -⟩ := Grammar.spec_of_mem_rulesWith hd
  have hmem := Declared.map_rule_ofRules g.rules.toList ▸
    List.mem_map_of_mem (f := Declared.rule) (Grammar.rule_eq_ok_iff.1 hrule)
  exact (hg.isShare_probability hmem).mul
    ((isShare_prob_of_get?_fill hg hstart (hstop.trans hlt)
      (get?_fill_of_mem hstart (hstop.trans hlt) hleft)).mul
    (isShare_prob_of_get?_fill hg hstop hlt (get?_fill_of_mem hstop hlt hright)))

theorem isSpanCell_fill (hsplit : start < stop) (hlt : stop < tokens.length) :
    IsSpanCell g (fill g tokens) start stop ((fill g tokens).cellAt start stop) := by
  have hget : ∀ e ∈ ((fill g tokens).cellAt start stop).entries,
      ((fill g tokens).cellAt start stop).get? e.symbol = some e :=
    fun _ => get?_fill_of_mem hsplit.le hlt
  rw [cellAt_fill_split hsplit hlt, spanOffers_eq_map_candidates] at hget ⊢
  constructor
  · rw [Cell.word_ofOffers]
  · rw [Cell.map_symbol_ofOffers, List.map_map]
    rfl
  · intro e he
    obtain ⟨c, hc, rfl⟩ := List.mem_map.1 (Cell.mem_of_get?_ofOffers (hget e he))
    obtain ⟨hstart, hstop, hleft, hright, hd⟩ := mem_candidates.1 hc
    exact ⟨_, _, _, _, _, rfl, hstart, hstop, Grammar.isLastAt_of_mem_rulesWith hd, rfl,
      (Grammar.spec_of_mem_rulesWith hd).2.1, get?_fill_of_mem hstart (hstop.trans hlt) hleft,
      get?_fill_of_mem hstop hlt hright, rfl⟩
  · intro e he c hc hsymbol
    exact Cell.not_lt_of_get?_ofOffers (hget e he) (c.entry g) (List.mem_map_of_mem hc) hsymbol
  · intro hg e he
    obtain ⟨before, after, hoffers, hbefore⟩ :=
      Cell.exists_append_of_get?_ofOffers (hget e he) fun o ho _ => by
        obtain ⟨c, hc, rfl⟩ := List.mem_map.1 ho
        exact (isShare_prob_of_mem_candidates hg hlt hc).isNaN_eq_false
    obtain ⟨firsts, rest, hcandidates, rfl, hrest⟩ := List.map_eq_append_iff.1 hoffers
    obtain ⟨c, others, rfl, rfl, -⟩ := List.map_eq_cons_iff.1 hrest
    refine ⟨firsts, c, others, hcandidates, rfl, ?_⟩
    intro b hb hsymbol
    exact hbefore (b.entry g) (List.mem_map_of_mem hb) hsymbol

/-- What a finished chart has over a span, for any weights. The symbols are distinct; one token has
the rules that emit it, and several tokens have the best candidates. -/
theorem cell_fill_contents (g : Grammar) (tokens : List String) {start stop : Nat}
    (hle : start ≤ stop) (hlt : stop < tokens.length) :
    ∃ cell, (fill g tokens).cell start stop = .ok cell ∧ (cell.entries.map (·.symbol)).Nodup ∧
      (start = stop → ∃ word, tokens[start]? = some word ∧
        cell = ⟨some word, (g.lexicalRules word).map fun d =>
          ⟨d.rule.lhs, g.probability d.rule, .word⟩⟩) ∧
      (start < stop → IsSpanCell g (fill g tokens) start stop cell) := by
  refine ⟨_, cell_fill hle hlt, ?_, ?_, fun hsplit => isSpanCell_fill hsplit hlt⟩
  · obtain ⟨word, offers, hcell⟩ := exists_offers_of_fill (g := g) hle hlt
    rw [hcell]
    exact Cell.nodup_symbols_ofOffers
  · rintro rfl
    exact ⟨_, List.getElem?_eq_getElem hlt, cellAt_fill_word_eq hlt⟩

/-! ## Equally probable splits -/

/-- A grammar in which a word stands any number of times, in pairs of any shape. -/
def repeatedWord : Grammar :=
  .ofRules [⟨"S", .binary "S" "S", 1⟩, ⟨"S", .unary "x", 1⟩]

theorem probability_repeatedWord :
    repeatedWord.probability ⟨"S", .binary "S" "S", 1⟩ = 0.5 ∧
      repeatedWord.probability ⟨"S", .unary "x", 1⟩ = 0.5 := by
  simp only [Grammar.probability, Grammar.lhsWeight, Grammar.index_eq, RuleIndex.weight_ofRules]
  decide +kernel

theorem binaryRules_repeatedWord :
    repeatedWord.binaryRules "S" "S" = [⟨0, ⟨"S", .binary "S" "S", 1⟩⟩] := by
  rw [Grammar.binaryRules, Grammar.index_eq, RuleIndex.rulesWith_ofRules]
  rfl

theorem cellAt_word_repeatedWord {i : Nat} (hi : i < 3) :
    (fill repeatedWord ["x", "x", "x"]).cellAt i i = ⟨some "x", [⟨"S", 0.5, .word⟩]⟩ := by
  have hx : ∀ i (h : i < 3), ["x", "x", "x"][i] = "x" := by decide
  have hlexical : repeatedWord.lexicalRules "x" = [⟨1, ⟨"S", .unary "x", 1⟩⟩] := by
    rw [Grammar.lexicalRules, Grammar.index_eq, RuleIndex.rulesWith_ofRules]
    rfl
  rw [cellAt_fill_word_eq hi, hx i hi, lexicalOffers, hlexical, List.map_singleton,
    probability_repeatedWord.2]

theorem cellAt_pair_repeatedWord {i : Nat} (hi : i < 2) :
    (fill repeatedWord ["x", "x", "x"]).cellAt i (i + 1) =
      ⟨none, [⟨"S", 0.5 * (0.5 * 0.5), .split 0 i⟩]⟩ := by
  have hoffers : spanOffers repeatedWord (fill repeatedWord ["x", "x", "x"]) i (i + 1) =
      [⟨"S", 0.5 * (0.5 * 0.5), .split 0 i⟩] := by
    simp [spanOffers, splitOffers, pairOffers, cellAt_word_repeatedWord (hi.trans (by decide)),
      cellAt_word_repeatedWord (Nat.succ_lt_succ hi), binaryRules_repeatedWord,
      probability_repeatedWord]
  have hstop : i + 1 < ["x", "x", "x"].length := Nat.succ_lt_succ hi
  rw [cellAt_fill_split (Nat.lt_succ_self i) hstop, hoffers]
  rfl

theorem candidates_repeatedWord :
    candidates repeatedWord (fill repeatedWord ["x", "x", "x"]) 0 2 =
      [⟨0, ⟨"S", 0.5, .word⟩, ⟨"S", 0.5 * (0.5 * 0.5), .split 0 1⟩,
          ⟨0, ⟨"S", .binary "S" "S", 1⟩⟩⟩,
        ⟨1, ⟨"S", 0.5 * (0.5 * 0.5), .split 0 0⟩, ⟨"S", 0.5, .word⟩,
          ⟨0, ⟨"S", .binary "S" "S", 1⟩⟩⟩] := by
  have hranges : List.range' 0 (2 - 0) = [0, 1] := rfl
  have hword := @cellAt_word_repeatedWord
  have hpair := @cellAt_pair_repeatedWord
  simp only [candidates, hranges, List.flatMap_cons, List.flatMap_nil, Nat.zero_add,
    Nat.reduceAdd, hword (i := 0) (by decide), hword (i := 2) (by decide),
    hpair (i := 0) (by decide), hpair (i := 1) (by decide), binaryRules_repeatedWord]
  rfl

theorem isWeighted_repeatedWord : repeatedWord.IsWeighted := by
  rw [Grammar.IsWeighted, repeatedWord, Grammar.rules_ofRules]
  simp only [List.forall_mem_cons, Binary64.IsWeight]
  decide +kernel

/-- Both splits of three words are equally probable, and the first one is kept. -/
theorem cell_fill_contents_repeatedWord :
    (0 ≤ 2 ∧ 2 < ["x", "x", "x"].length) ∧
      ∃ cell, (fill repeatedWord ["x", "x", "x"]).cell 0 2 = .ok cell ∧
        cell.entries = [⟨"S", 0.5 * (0.5 * (0.5 * (0.5 * 0.5))), .split 0 0⟩] := by
  refine ⟨by decide, ?_⟩
  obtain ⟨cell, hcell, -, -, hspan⟩ :=
    @cell_fill_contents repeatedWord ["x", "x", "x"] 0 2 (by decide) (by decide)
  have hspan := hspan (by decide)
  have hsymbols : cell.entries.map (·.symbol) = ["S"] := by
    rw [hspan.symbols, candidates_repeatedWord]
    decide
  obtain ⟨e, hentries, -⟩ := List.map_eq_singleton_iff.1 hsymbols
  obtain ⟨before, c, after, hcandidates, he, hbefore⟩ :=
    hspan.first isWeighted_repeatedWord e (by rw [hentries]; exact List.mem_singleton_self e)
  rw [candidates_repeatedWord] at hcandidates
  rcases before with _ | ⟨first, _ | ⟨second, before⟩⟩
  · obtain ⟨rfl, -⟩ := List.cons_eq_cons.1 hcandidates
    exact ⟨cell, hcell, by rw [hentries, he, Candidate.entry, Candidate.prob,
      probability_repeatedWord.1]; rfl⟩
  · -- the second split would have to be more probable than the first
    obtain ⟨rfl, hrest⟩ := List.cons_eq_cons.1 hcandidates
    obtain ⟨rfl, -⟩ := List.cons_eq_cons.1 hrest
    have hlt := hbefore _ (List.mem_singleton_self _) (by rw [he]; rfl)
    rw [he] at hlt
    simp only [Candidate.entry, Candidate.prob, probability_repeatedWord.1] at hlt
    exact absurd hlt (by decide +kernel)
  · simp at hcandidates

end Chart

end PhraseStructure
