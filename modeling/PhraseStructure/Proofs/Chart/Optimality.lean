import PhraseStructure.Proofs.Chart.Reconstruction
import PhraseStructure.Proofs.Grammar.Weights

/-!
# Optimality

In a weighted grammar all scores are shares, on which multiplication is monotone. So the entry for
the root of a parse tree is at least as probable as the tree scores, whatever rules and splits the
tree takes, and the best tree is not beaten.
-/

namespace PhraseStructure

open Binary64 (IsShare)

theorem Tree.IsParse.isShare_score {g : Grammar} (hg : g.IsWeighted) {t : Tree}
    (h : t.IsParse g) : IsShare (t.score g) := by
  induction h with
  | word rule =>
    rw [score_word]
    exact hg.isShare_lastProbability _ _
  | split rule _ _ ihl ihr =>
    rw [score_split]
    exact (hg.isShare_lastProbability _ _).mul (ihl.mul ihr)

namespace Chart

variable {g : Grammar} {tokens : List String}

theorem isShare_prob_of_get?_fill (hg : g.IsWeighted) {start stop : Nat} (hle : start ≤ stop)
    (hlt : stop < tokens.length) {symbol : String} {e : Entry}
    (h : ((fill g tokens).cellAt start stop).get? symbol = some e) : IsShare e.prob := by
  obtain ⟨t, -, hparse, -, -, hscore⟩ := exists_treeOf_fill hle hlt h
  rw [← hscore]
  exact hparse.isShare_score hg

/-- No parse tree of a span scores higher than the entry for its root. -/
theorem score_le_prob_fill (hg : g.IsWeighted) {t : Tree} (h : t.IsParse g) {start stop : Nat}
    (hle : start ≤ stop) (hlt : stop < tokens.length)
    (hleaves : t.leaves = tokens.extract start (stop + 1)) :
    ∃ e, ((fill g tokens).cellAt start stop).get? t.symbol = some e ∧ t.score g ≤ e.prob := by
  induction h generalizing start stop with
  | @word label word rule =>
    obtain ⟨rfl, rfl⟩ := eq_of_singleton_eq_extract (hle.trans_lt hlt) hle hlt hleaves
    obtain ⟨e, he, hnot⟩ := exists_get?_fill_word hlt rule
    rw [Tree.score_word]
    exact ⟨e, he, (hg.isShare_lastProbability _ _).le_of_not_lt
      (isShare_prob_of_get?_fill hg hle hlt he) hnot⟩
  | @split label left right rule hleft hright ihl ihr =>
    have happend : left.leaves ++ right.leaves = tokens.extract start (stop + 1) := by
      rw [← hleaves]
      simp [Tree.leaves, Tree.leavesAll]
    obtain ⟨position, hstart, hstop, hus, hvs⟩ := exists_split_of_append hle hlt
      hleft.derives.ne_nil hright.derives.ne_nil happend
    obtain ⟨l, hl, hscore⟩ := ihl hstart (hstop.trans hlt) hus
    obtain ⟨r, hr, hscore'⟩ := ihr hstop hlt hvs
    obtain ⟨e, he, hnot⟩ := exists_get?_fill_split hstart hstop hlt rule hl hr
    -- the entries below are shares, so the product of their probabilities bounds that of the scores
    have hprob := hg.isShare_lastProbability label (.binary left.symbol right.symbol)
    have hshare := isShare_prob_of_get?_fill hg hstart (hstop.trans hlt) hl
    have hshare' := isShare_prob_of_get?_fill hg hstop hlt hr
    have hpair := Binary64.mul_le_mul (hleft.isShare_score hg).1 (hright.isShare_score hg).1
      hshare hshare' hscore hscore'
    have hbound := Binary64.mul_le_mul hprob.1
      ((hleft.isShare_score hg).mul (hright.isShare_score hg)).1 hprob (hshare.mul hshare')
      (Binary64.le_refl hprob.isNaN_eq_false) hpair
    have hkept := (hprob.mul (hshare.mul hshare')).le_of_not_lt
      (isShare_prob_of_get?_fill hg hle hlt he) hnot
    rw [Tree.score_split]
    exact ⟨e, he, Binary64.le_trans hbound hkept⟩

/-- The best tree scores what the chart stores for its root over all tokens, and no other parse
tree of the tokens from this root scores higher. -/
theorem score_bestTree_fill {g : Grammar}
    (hg : (∃ text, Grammar.ofText text = .ok g) ∨ g.IsWeighted) {tokens : List String}
    {root : String} {t : Tree} (h : (fill g tokens).bestTree g root = .ok t) :
    (∃ cell e, (fill g tokens).cell 0 (tokens.length - 1) = .ok cell ∧
        cell.get? root = some e ∧ t.score g = e.prob) ∧
      ∀ u : Tree, u.IsParse g → u.symbol = root → u.leaves = tokens →
        ¬ t.score g < u.score g := by
  have hweighted : g.IsWeighted := hg.elim (fun ⟨_, h⟩ => Grammar.isWeighted_of_ofText h) id
  have hderives : g.Derives root tokens := by
    by_contra hnot
    rw [bestTree_fill_of_not_derives hnot] at h
    cases h
  have hlt := Nat.sub_one_lt_of_lt (List.length_pos_iff.2 hderives.ne_nil)
  obtain ⟨t', e, ht, -, -, -, he, hscore⟩ := exists_bestTree_fill hderives
  obtain rfl := Except.ok.inj (ht.symm.trans h)
  refine ⟨⟨_, e, cell_fill (Nat.zero_le _) hlt, he, hscore⟩, ?_⟩
  intro u hu hsymbol hleaves
  rw [← extract_all hderives.ne_nil] at hleaves
  obtain ⟨e', he', hle⟩ := score_le_prob_fill hweighted hu (Nat.zero_le _) hlt hleaves
  rw [hsymbol] at he'
  obtain rfl := Option.some.inj (he.symm.trans he')
  rw [hscore]
  exact Binary64.not_lt_of_le hle

/-! ## A sentence with two readings -/

def twoReadings : Grammar :=
  .ofRules [⟨"S", .binary "A" "B", 1⟩, ⟨"S", .binary "B" "A", 3⟩, ⟨"A", .unary "x", 1⟩,
    ⟨"B", .unary "x", 1⟩]

theorem probability_twoReadings :
    twoReadings.probability ⟨"A", .unary "x", 1⟩ = 1 ∧
      twoReadings.probability ⟨"B", .unary "x", 1⟩ = 1 ∧
      twoReadings.probability ⟨"S", .binary "A" "B", 1⟩ = 0.25 ∧
      twoReadings.probability ⟨"S", .binary "B" "A", 3⟩ = 0.75 := by
  simp only [Grammar.probability, Grammar.lhsWeight, Grammar.index_eq, RuleIndex.weight_ofRules]
  decide +kernel

theorem cellAt_word_twoReadings {i : Nat} (hi : i < 2) :
    (fill twoReadings ["x", "x"]).cellAt i i =
      ⟨some "x", [⟨"A", 1, .word⟩, ⟨"B", 1, .word⟩]⟩ := by
  have hx : ∀ i (h : i < 2), ["x", "x"][i] = "x" := by decide
  have hlexical : twoReadings.lexicalRules "x" =
      [⟨2, ⟨"A", .unary "x", 1⟩⟩, ⟨3, ⟨"B", .unary "x", 1⟩⟩] := by
    rw [Grammar.lexicalRules, Grammar.index_eq, RuleIndex.rulesWith_ofRules]
    rfl
  obtain ⟨hA, hB, -⟩ := probability_twoReadings
  rw [cellAt_fill_word hi, hx i hi, lexicalOffers, hlexical, List.map_cons, List.map_singleton,
    hA, hB]
  rfl

theorem get?_twoReadings :
    ((fill twoReadings ["x", "x"]).cellAt 0 1).get? "S" =
      some ⟨"S", 0.75 * (1 * 1), .split 1 0⟩ := by
  have hbinary : twoReadings.binaryRules "A" "A" = [] ∧
      twoReadings.binaryRules "A" "B" = [⟨0, ⟨"S", .binary "A" "B", 1⟩⟩] ∧
      twoReadings.binaryRules "B" "A" = [⟨1, ⟨"S", .binary "B" "A", 3⟩⟩] ∧
      twoReadings.binaryRules "B" "B" = [] := by
    simp only [Grammar.binaryRules, Grammar.index_eq, RuleIndex.rulesWith_ofRules]
    exact ⟨rfl, rfl, rfl, rfl⟩
  have hoffers : spanOffers twoReadings (fill twoReadings ["x", "x"]) 0 1 =
      [⟨"S", 0.25 * (1 * 1), .split 0 0⟩, ⟨"S", 0.75 * (1 * 1), .split 1 0⟩] := by
    simp [spanOffers, splitOffers, pairOffers, cellAt_word_twoReadings, hbinary,
      probability_twoReadings]
  have hlt : (0.25 * (1 * 1) : Float) < 0.75 * (1 * 1) := by decide +kernel
  rw [cellAt_fill_split (by decide) (by decide), hoffers]
  simp [Cell.ofOffers, Cell.offer, Cell.offer?, Entry.improve?, Cell.get?, hlt]

theorem bestTree_twoReadings :
    (fill twoReadings ["x", "x"]).bestTree twoReadings "S" =
      .ok (.node "S" [.node "B" [.leaf "x"], .node "A" [.leaf "x"]]) := by
  have hcell := @cellAt_word_twoReadings 0 (by decide)
  have hcell' := @cellAt_word_twoReadings 1 (by decide)
  have hleft : (fill twoReadings ["x", "x"]).treeOf twoReadings 0 0 "B" =
      .ok (.node "B" [.leaf "x"]) :=
    treeOf_of_word (by decide) (by rw [hcell]; rfl) rfl (by rw [hcell])
  have hright : (fill twoReadings ["x", "x"]).treeOf twoReadings 1 1 "A" =
      .ok (.node "A" [.leaf "x"]) :=
    treeOf_of_word (by decide) (by rw [hcell']; rfl) rfl (by rw [hcell'])
  rw [bestTree_fill_of_ne_nil (by simp)]
  exact treeOf_of_split (by decide) get?_twoReadings rfl rfl rfl le_rfl (by decide) hleft hright

theorem isWeighted_twoReadings : twoReadings.IsWeighted := by
  rw [Grammar.IsWeighted, twoReadings, Grammar.rules_ofRules]
  simp only [List.forall_mem_cons, Binary64.IsWeight]
  decide +kernel

/-- Both readings of the sentence, the best one and the other. -/
theorem score_bestTree_fill_two_readings :
    (((∃ text, Grammar.ofText text = .ok twoReadings) ∨ twoReadings.IsWeighted) ∧
      (fill twoReadings ["x", "x"]).bestTree twoReadings "S" =
        .ok (.node "S" [.node "B" [.leaf "x"], .node "A" [.leaf "x"]])) ∧
    (∃ cell e, (fill twoReadings ["x", "x"]).cell 0 1 = .ok cell ∧ cell.get? "S" = some e ∧
      (Tree.node "S" [.node "B" [.leaf "x"], .node "A" [.leaf "x"]]).score twoReadings =
        e.prob) ∧
    ∀ u : Tree, u.IsParse twoReadings → u.symbol = "S" → u.leaves = ["x", "x"] →
      ¬ (Tree.node "S" [.node "B" [.leaf "x"], .node "A" [.leaf "x"]]).score twoReadings <
        u.score twoReadings :=
  ⟨⟨.inr isWeighted_twoReadings, bestTree_twoReadings⟩,
    score_bestTree_fill (.inr isWeighted_twoReadings) bestTree_twoReadings⟩

end Chart

end PhraseStructure
