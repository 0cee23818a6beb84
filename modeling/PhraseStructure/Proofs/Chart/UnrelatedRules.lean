import PhraseStructure.Proofs.Chart.Contents
import PhraseStructure.Proofs.Grammar.UnrelatedRules

/-!
# Charts without unrelated rules

Rules whose left-hand sides the other rules do not use add entries to the cells of a chart and
change none of the old ones: what they offer is for hidden symbols only, and what hidden entries are
combined to is hidden as well. So the entries of the old symbols stay the same, in the same order,
and so do the best trees.
-/

namespace PhraseStructure

variable {hidden : List String}

/-! ## Hidden symbols in a cell -/

namespace Entry

theorem filter_improved_of_mem {new : Entry} (h : new.symbol ∈ hidden) (entries : List Entry) :
    (new.improved entries).filter (·.symbol ∉ hidden) = entries.filter (·.symbol ∉ hidden) := by
  induction entries with
  | nil => simp [h]
  | cons e rest ih =>
    rw [improved_cons]
    by_cases heq : e.symbol = new.symbol
    · simp [heq, symbol_best heq, h]
    · rw [if_neg heq, List.filter_cons, List.filter_cons, ih]

theorem filter_improved_of_notMem {new : Entry} (h : new.symbol ∉ hidden) (entries : List Entry) :
    (new.improved entries).filter (·.symbol ∉ hidden) =
      new.improved (entries.filter (·.symbol ∉ hidden)) := by
  induction entries with
  | nil => simp [h]
  | cons e rest ih =>
    rw [improved_cons]
    by_cases heq : e.symbol = new.symbol
    · simp [heq, symbol_best heq, h, improved_cons]
    · rw [if_neg heq, List.filter_cons, List.filter_cons, ih]
      split
      · rw [improved_cons, if_neg heq]
      · rfl

end Entry

namespace Cell

/-- The cell without the entries of some symbols. -/
def without (cell : Cell) (hidden : List String) : Cell :=
  { cell with entries := cell.entries.filter (·.symbol ∉ hidden) }

theorem without_offer_of_mem {new : Entry} (h : new.symbol ∈ hidden) (cell : Cell) :
    (cell.offer new).without hidden = cell.without hidden := by
  rw [without, without, word_offer, entries_offer, Entry.filter_improved_of_mem h]

theorem without_offer_of_notMem {new : Entry} (h : new.symbol ∉ hidden) (cell : Cell) :
    (cell.offer new).without hidden = (cell.without hidden).offer new := by
  have hword : ((cell.offer new).without hidden).word = ((cell.without hidden).offer new).word := by
    rw [without, word_offer, word_offer, without]
  have hentries : ((cell.offer new).without hidden).entries =
      ((cell.without hidden).offer new).entries := by
    rw [without, entries_offer, entries_offer, without, Entry.filter_improved_of_notMem h]
  exact congr (congrArg Cell.mk hword) hentries

theorem without_ofOffers (word : Option String) (offers : List Entry) :
    (ofOffers word offers).without hidden =
      ofOffers word (offers.filter (·.symbol ∉ hidden)) := by
  induction offers using List.reverseRecOn with
  | nil => rfl
  | append_singleton offers new ih =>
    rw [ofOffers_append_singleton, List.filter_append]
    by_cases h : new.symbol ∈ hidden
    · rw [without_offer_of_mem h, ih, List.filter_cons_of_neg (by simp [h]), List.filter_nil,
        List.append_nil]
    · rw [without_offer_of_notMem h, ih, List.filter_cons_of_pos (by simp [h]), List.filter_nil,
        ofOffers_append_singleton]

theorem get?_without {symbol : String} (h : symbol ∉ hidden) (cell : Cell) :
    (cell.without hidden).get? symbol = cell.get? symbol := by
  rw [get?, get?, without, List.find?_filter]
  congr 1
  funext e
  rw [decide_eq_decide, decide_eq_true_eq, decide_eq_true_eq, and_iff_right_iff_imp]
  rintro rfl
  exact h

end Cell

namespace Chart

variable {g h : Grammar} {tokens : List String}

/-! ## What is offered -/

theorem filter_map_rulesWith (hpart : g.IsPart hidden h) {entry entry' : Declared → Entry}
    (hsymbol : ∀ d, (entry d).symbol = d.rule.lhs)
    (heq : ∀ d, d.rule.lhs ∉ hidden → entry d = entry' d) (rhs : Rhs) :
    ((h.index.rulesWith rhs).map entry).filter (·.symbol ∉ hidden) =
      (g.index.rulesWith rhs).map entry' := by
  have hsymbols : ((fun e : Entry => decide (e.symbol ∉ hidden)) ∘ entry) =
      fun d => decide (d.rule.lhs ∉ hidden) := by
    funext d
    rw [Function.comp_apply, hsymbol]
  rw [List.filter_map, hsymbols, hpart.rulesWith]
  apply List.map_congr_left
  intro d hd
  rw [← hpart.rulesWith] at hd
  exact heq d (of_decide_eq_true (List.mem_filter.1 hd).2)

theorem filter_lexicalOffers (hpart : g.IsPart hidden h) (word : String) :
    (lexicalOffers h word).filter (·.symbol ∉ hidden) = lexicalOffers g word := by
  apply filter_map_rulesWith hpart (fun _ => rfl)
  intro d hd
  rw [hpart.probability d.rule hd]

theorem filter_pairOffers (hpart : g.IsPart hidden h) (position : Nat) (left right : Entry) :
    (pairOffers h position left right).filter (·.symbol ∉ hidden) =
      pairOffers g position left right := by
  apply filter_map_rulesWith hpart (fun _ => rfl)
  intro d hd
  rw [hpart.probability d.rule hd]

theorem pairOffers_eq_nil (hpart : g.IsPart hidden h) (position : Nat) {left right : Entry}
    (hmem : left.symbol ∈ hidden ∨ right.symbol ∈ hidden) :
    pairOffers g position left right = [] := by
  have hnone : g.binaryRules left.symbol right.symbol = [] := by
    rw [List.eq_nil_iff_forall_not_mem]
    intro d hd
    obtain ⟨hleft, hright⟩ := hpart.notMem _ _ _ (Grammar.hasRule_of_mem_rulesWith hd)
    exact hmem.elim hleft hright
  rw [pairOffers, hnone, List.map_nil]

theorem flatMap_filter_eq {α β : Type} {p : α → Bool} {f : α → List β} {l : List α}
    (hf : ∀ a, p a = false → f a = []) : (l.filter p).flatMap f = l.flatMap f := by
  induction l with
  | nil => rfl
  | cons a rest ih =>
    cases ha : p a with
    | false => rw [List.filter_cons_of_neg (by simp [ha]), ih, List.flatMap_cons, hf a ha,
        List.nil_append]
    | true => rw [List.filter_cons_of_pos ha, List.flatMap_cons, List.flatMap_cons, ih]

theorem filter_splitOffers (hpart : g.IsPart hidden h) (position : Nat) (left right : Cell) :
    (splitOffers h position left right).filter (·.symbol ∉ hidden) =
      splitOffers g position (left.without hidden) (right.without hidden) := by
  simp only [splitOffers, Cell.without, List.filter_flatMap, filter_pairOffers hpart]
  rw [flatMap_filter_eq]
  · apply List.flatMap_congr
    intro l _
    rw [flatMap_filter_eq]
    intro r hr
    exact pairOffers_eq_nil hpart position (.inr (by simpa using hr))
  · intro l hl
    rw [List.flatMap_eq_nil_iff]
    intro r _
    exact pairOffers_eq_nil hpart position (.inl (by simpa using hl))

/-- Charts with the same narrower cells but for hidden symbols offer the same but for hidden
symbols. -/
theorem filter_spanOffers (hpart : g.IsPart hidden h) {chart chart' : Chart} {start stop : Nat}
    (hcell : ∀ i j, extra (i, j) < extra (start, stop) →
      (chart'.cellAt i j).without hidden = chart.cellAt i j) :
    (spanOffers h chart' start stop).filter (·.symbol ∉ hidden) =
      spanOffers g chart start stop := by
  rw [spanOffers, List.filter_flatMap, spanOffers]
  apply List.flatMap_congr
  intro position hposition
  obtain ⟨hstart, hstop⟩ := List.mem_range'_1.1 hposition
  have hleft : extra (start, position) < extra (start, stop) := by
    simp only [extra]
    omega
  have hright : extra (position + 1, stop) < extra (start, stop) := by
    simp only [extra]
    omega
  rw [filter_splitOffers hpart, hcell _ _ hleft, hcell _ _ hright]

/-! ## Cells and trees -/

/-- Without hidden symbols the chart of a grammar is that of its part. -/
theorem cellAt_fill_without (hpart : g.IsPart hidden h) (start stop : Nat) :
    ((fill h tokens).cellAt start stop).without hidden = (fill g tokens).cellAt start stop := by
  by_cases hspan : start ≤ stop ∧ stop < tokens.length
  · -- by induction on the width, as a cell is filled from the cells of narrower spans
    induction hwidth : extra (start, stop) using Nat.strong_induction_on
      generalizing start stop with
    | _ width ih =>
      obtain ⟨hle, hlt⟩ := hspan
      rcases hle.eq_or_lt with rfl | hsplit
      · rw [cellAt_fill_word hlt, cellAt_fill_word hlt, Cell.without_ofOffers,
          filter_lexicalOffers hpart]
      · rw [cellAt_fill_split hsplit hlt, cellAt_fill_split hsplit hlt, Cell.without_ofOffers,
          filter_spanOffers hpart]
        intro i j hnarrow
        by_cases hspan' : i ≤ j ∧ j < tokens.length
        · exact ih _ (hwidth ▸ hnarrow) i j hspan' rfl
        · rw [cellAt_of_not_hasSpan (mt hasSpan_fill.1 hspan'),
            cellAt_of_not_hasSpan (mt hasSpan_fill.1 hspan')]
          rfl
  · rw [cellAt_of_not_hasSpan (mt hasSpan_fill.1 hspan),
      cellAt_of_not_hasSpan (mt hasSpan_fill.1 hspan)]
    rfl

theorem get?_cellAt_fill_of_isPart (hpart : g.IsPart hidden h) (start stop : Nat) {symbol : String}
    (hsymbol : symbol ∉ hidden) :
    ((fill h tokens).cellAt start stop).get? symbol =
      ((fill g tokens).cellAt start stop).get? symbol := by
  rw [← cellAt_fill_without hpart, Cell.get?_without hsymbol]

theorem treeOf_fill_of_isPart (hpart : g.IsPart hidden h) {start stop : Nat} (hle : start ≤ stop)
    (hlt : stop < tokens.length) {symbol : String} (hsymbol : symbol ∉ hidden) :
    (fill h tokens).treeOf h start stop symbol = (fill g tokens).treeOf g start stop symbol := by
  -- by induction on the width, as the trees below come from narrower spans
  induction hwidth : stop - start using Nat.strong_induction_on
    generalizing start stop symbol with
  | _ width ih =>
    have hspan := (hasSpan_fill (g := g)).2 ⟨hle, hlt⟩
    have hspan' := (hasSpan_fill (g := h)).2 ⟨hle, hlt⟩
    have hsame : ((fill h tokens).cellAt start stop).get? symbol =
        ((fill g tokens).cellAt start stop).get? symbol :=
      get?_cellAt_fill_of_isPart hpart start stop hsymbol
    cases he : ((fill g tokens).cellAt start stop).get? symbol with
    | none => rw [treeOf_of_none hspan he, treeOf_of_none hspan' (hsame.trans he)]
    | some e =>
      cases justifies_of_get? hle hlt he with
      | word =>
        rw [treeOf_of_word hspan he rfl (word_cellAt_fill hlt),
          treeOf_of_word hspan' (hsame.trans he) rfl (word_cellAt_fill hlt)]
      | split hstart hstop hrule hrhs =>
        have hhas := Grammar.hasRule_of_rule hrule
        rw [hrhs] at hhas
        obtain ⟨hleft, hright⟩ := hpart.notMem _ _ _ hhas
        rw [treeOf_eq_of_split hspan he rfl hstart hstop,
          treeOf_eq_of_split hspan' (hsame.trans he) rfl hstart hstop, hrule,
          hpart.rule _ _ hrule]
        dsimp only
        rw [hrhs]
        dsimp only
        rw [ih _ (by omega) hstart (hstop.trans hlt) hleft rfl,
          ih _ (by omega) hstop hlt hright rfl]

/-- More rules whose left-hand sides the others do not use leave the chart of these as it was, but
for entries of the new left-hand sides, and leave the best tree from every other root. -/
theorem fill_append_unrelated {rules more : List Rule}
    (hunused : ∀ new ∈ more, ∀ rule ∈ rules, rule.lhs ≠ new.lhs ∧ new.lhs ∉ rule.rhs.symbols)
    (tokens : List String) :
    (∀ start stop, ((fill (.ofRules (rules ++ more)) tokens).cell start stop).map
        (·.without (more.map (·.lhs))) = (fill (.ofRules rules) tokens).cell start stop) ∧
      ∀ root ∉ more.map (·.lhs),
        (fill (.ofRules (rules ++ more)) tokens).bestTree (.ofRules (rules ++ more)) root =
          (fill (.ofRules rules) tokens).bestTree (.ofRules rules) root := by
  have hpart := Grammar.isPart_append hunused
  constructor
  · intro start stop
    by_cases hspan : start ≤ stop ∧ stop < tokens.length
    · rw [cell_fill hspan.1 hspan.2, cell_fill hspan.1 hspan.2, ← cellAt_fill_without hpart]
      rfl
    · rw [cell, cell, if_neg (mt hasSpan_fill.1 hspan), if_neg (mt hasSpan_fill.1 hspan), size_fill,
        size_fill]
      rfl
  · intro root hroot
    rcases eq_or_ne tokens [] with rfl | hne
    · rw [bestTree_fill_nil, bestTree_fill_nil]
    · rw [bestTree_fill_of_ne_nil hne, bestTree_fill_of_ne_nil hne]
      exact treeOf_fill_of_isPart hpart (Nat.zero_le _)
        (Nat.sub_one_lt_of_lt (List.length_pos_iff.2 hne)) hroot

/-! ## A second symbol for the same words -/

def firstSymbol : List Rule :=
  [⟨"S", .binary "S" "S", 1⟩, ⟨"S", .unary "x", 1⟩]

/-- Rules for another symbol that stands for any number of the same words. -/
def secondSymbol : List Rule :=
  [⟨"T", .binary "S" "S", 5⟩, ⟨"T", .unary "x", 1⟩, ⟨"T", .binary "T" "S", 2⟩]

/-- Two words out of three have both symbols, and without the second one they have what they had
before. -/
theorem fill_append_unrelated_secondSymbol :
    (∀ new ∈ secondSymbol, ∀ rule ∈ firstSymbol,
      rule.lhs ≠ new.lhs ∧ new.lhs ∉ rule.rhs.symbols) ∧
    (∃ cell, (fill (.ofRules (firstSymbol ++ secondSymbol)) ["x", "x", "x"]).cell 0 1 = .ok cell ∧
      (cell.get? "T").isSome = true ∧
      cell.without (secondSymbol.map (·.lhs)) = ⟨none, [⟨"S", 0.5 * (0.5 * 0.5), .split 0 0⟩]⟩) ∧
    (fill (.ofRules (firstSymbol ++ secondSymbol)) ["x", "x", "x"]).bestTree
        (.ofRules (firstSymbol ++ secondSymbol)) "S" =
      (fill repeatedWord ["x", "x", "x"]).bestTree repeatedWord "S" := by
  have hunused : ∀ new ∈ secondSymbol, ∀ rule ∈ firstSymbol,
      rule.lhs ≠ new.lhs ∧ new.lhs ∉ rule.rhs.symbols := by
    decide
  obtain ⟨hcells, htrees⟩ := fill_append_unrelated hunused ["x", "x", "x"]
  refine ⟨hunused, ⟨_, cell_fill (by decide) (by decide), ?_, ?_⟩, htrees "S" (by decide)⟩
  · have hrule : ∀ rule ∈ firstSymbol ++ secondSymbol,
        Grammar.HasRule (.ofRules (firstSymbol ++ secondSymbol)) rule.lhs rule.rhs := by
      intro rule hrule
      exact ⟨rule, by rwa [Grammar.rules_ofRules], rfl, rfl⟩
    have hword := Grammar.Derives.word (hrule ⟨"S", .unary "x", 1⟩ (by simp [firstSymbol]))
    have hpair := Grammar.Derives.split
      (hrule ⟨"T", .binary "S" "S", 5⟩ (by simp [secondSymbol])) hword hword
    obtain ⟨e, he⟩ := exists_get?_fill_of_derives hpair (Nat.zero_le 1)
      (show 1 < ["x", "x", "x"].length by decide) rfl
    rw [he]
    rfl
  · have hcell := hcells 0 1
    rw [cell_fill (by decide) (by decide), cell_fill (by decide) (by decide)] at hcell
    exact (Except.ok.inj hcell).trans (cellAt_pair_repeatedWord (by decide))

end Chart

end PhraseStructure
