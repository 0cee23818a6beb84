import PhraseStructure.Proofs.Binary64.Halvings
import PhraseStructure.Proofs.Chart.Optimality
import PhraseStructure.Proofs.Grammar.Written

/-!
# Possible trees

A parse tree is possible if its rules have positive weights. A tree with a positive score is
possible, but the score of a possible tree can round to zero, and then an impossible tree that the
chart meets first is kept. So the best tree is possible if some possible tree of the same tokens
has a positive score, which a tree of few rules has that are not too improbable.
-/

namespace PhraseStructure

open Binary64 (halvings)

namespace Grammar

theorem IsWeighted.weight_pos {g : Grammar} (hg : g.IsWeighted) {rule : Rule}
    (hr : rule ∈ g.rules.toList) (h : 0.0 < g.probability rule) : 0.0 < rule.weight := by
  unfold probability at h
  dsimp only at h
  split at h
  · next htotal => exact (hg rule hr).pos_of_div htotal h
  · exact absurd h (Binary64.lt_irrefl 0.0)

theorem IsWeighted.exists_lastRule? {g : Grammar} (hg : g.IsWeighted) {lhs : String} {rhs : Rhs}
    (h : 0.0 < g.lastProbability lhs rhs) :
    ∃ rule, g.lastRule? lhs rhs = some rule ∧ 0.0 < rule.weight := by
  cases hlast : g.lastRule? lhs rhs with
  | none =>
    rw [lastProbability, hlast] at h
    exact absurd h (Binary64.lt_irrefl 0.0)
  | some rule =>
    rw [lastProbability_of_lastRule? hlast] at h
    exact ⟨rule, rfl, hg.weight_pos (mem_of_lastRule? hlast).1 h⟩

/-- No rule of positive weight is less probable than one, halved `k` times. -/
def IsCoarse (g : Grammar) (k : Nat) : Prop :=
  ∀ rule ∈ g.rules.toList, 0.0 < rule.weight → halvings k ≤ g.probability rule

end Grammar

namespace Tree

variable {g : Grammar}

/-- A parse tree whose rules, the last declared ones with their two sides, have positive
weights. -/
inductive IsPossible (g : Grammar) : Tree → Prop where
  | word {label word : String} {rule : Rule} (last : g.lastRule? label (.unary word) = some rule)
      (weight : 0.0 < rule.weight) : IsPossible g (node label [leaf word])
  | split {label : String} {left right : Tree} {rule : Rule}
      (last : g.lastRule? label (.binary left.symbol right.symbol) = some rule)
      (weight : 0.0 < rule.weight) (hleft : IsPossible g left) (hright : IsPossible g right) :
      IsPossible g (node label [left, right])

theorem IsPossible.isParse {t : Tree} (h : t.IsPossible g) : t.IsParse g := by
  induction h with
  | word last => exact .word (Grammar.hasRule_of_lastRule? last)
  | split last _ _ _ ihl ihr => exact .split (Grammar.hasRule_of_lastRule? last) ihl ihr

theorem IsParse.isPossible (hg : g.IsWeighted) {t : Tree} (h : t.IsParse g)
    (hscore : 0.0 < t.score g) : t.IsPossible g := by
  induction h with
  | word rule =>
    rw [score_word] at hscore
    obtain ⟨rule, hlast, hweight⟩ := hg.exists_lastRule? hscore
    exact .word hlast hweight
  | split rule hleft hright ihl ihr =>
    rw [score_split] at hscore
    have hpair := (hleft.isShare_score hg).mul (hright.isShare_score hg)
    obtain ⟨hrule, hchildren⟩ := (hg.isShare_lastProbability _ _).pos_of_mul hpair hscore
    obtain ⟨hposl, hposr⟩ := (hleft.isShare_score hg).pos_of_mul (hright.isShare_score hg) hchildren
    obtain ⟨rule, hlast, hweight⟩ := hg.exists_lastRule? hrule
    exact .split hlast hweight (ihl hposl) (ihr hposr)

/-- A possible tree with `n` leaves has `2 * n - 1` rules, so it scores at least the product of so
many of the least probabilities. -/
theorem IsPossible.halvings_le_score (hg : g.IsWeighted) {k : Nat} (hk : g.IsCoarse k) {t : Tree}
    (h : t.IsPossible g) (hsize : (2 * t.leaves.length - 1) * k ≤ 1074) :
    halvings ((2 * t.leaves.length - 1) * k) ≤ t.score g := by
  induction h with
  | word last weight =>
    have hleaf := hk _ (Grammar.mem_of_lastRule? last).1 weight
    rw [score_word, Grammar.lastProbability_of_lastRule? last]
    simpa [leaves, leavesAll] using hleaf
  | @split label left right rule last weight hleft hright ihl ihr =>
    have hrule := hk _ (Grammar.mem_of_lastRule? last).1 weight
    have hposl := List.length_pos_iff.2 hleft.isParse.derives.ne_nil
    have hposr := List.length_pos_iff.2 hright.isParse.derives.ne_nil
    have hlength : (node label [left, right]).leaves.length =
        left.leaves.length + right.leaves.length := by
      simp [leaves, leavesAll]
    -- the rule of the root, and the rules of the two children
    have hcount : 2 * (left.leaves.length + right.leaves.length) - 1 =
        1 + ((2 * left.leaves.length - 1) + (2 * right.leaves.length - 1)) := by
      omega
    rw [hlength, hcount, Nat.add_mul, Nat.add_mul, Nat.one_mul] at hsize ⊢
    have hpair := Binary64.halvings_add_le_mul (hleft.isParse.isShare_score hg)
      (hright.isParse.isShare_score hg) (ihl (by omega)) (ihr (by omega)) (by omega)
    rw [score_split, Grammar.lastProbability_of_lastRule? last]
    exact Binary64.halvings_add_le_mul (hg.isShare_probability (Grammar.mem_of_lastRule? last).1)
      ((hleft.isParse.isShare_score hg).mul (hright.isParse.isShare_score hg)) hrule hpair hsize

end Tree

namespace Chart

variable {g : Grammar} {tokens : List String} {root : String}

/-- The best tree scores no less than any parse tree of the same tokens from the same root. -/
theorem exists_bestTree_fill_of_isParse (hg : g.IsWeighted) {u : Tree} (hu : u.IsParse g)
    (hsymbol : u.symbol = root) (hleaves : u.leaves = tokens) :
    ∃ t, (fill g tokens).bestTree g root = .ok t ∧ t.IsParse g ∧ u.score g ≤ t.score g := by
  subst hsymbol hleaves
  have hne := hu.derives.ne_nil
  have hlt := Nat.sub_one_lt_of_lt (List.length_pos_iff.2 hne)
  obtain ⟨t, e, ht, hparse, -, -, he, hscore⟩ := exists_bestTree_fill hu.derives
  obtain ⟨e', he', hle⟩ := score_le_prob_fill hg hu (Nat.zero_le _) hlt (extract_all hne).symm
  obtain rfl := Option.some.inj (he.symm.trans he')
  rw [← hscore] at hle
  exact ⟨t, ht, hparse, hle⟩

/-- If the tokens have a possible tree from the root whose score does not round to zero, the best
tree is possible. The score does not round to zero if the tokens are few and the rules of positive
weight not too improbable. -/
theorem isPossible_bestTree_fill (hg : (∃ text, Grammar.ofText text = .ok g) ∨ g.IsWeighted)
    {u : Tree} (hu : u.IsPossible g) (hsymbol : u.symbol = root) (hleaves : u.leaves = tokens)
    (hscore : 0.0 < u.score g ∨ ∃ k, g.IsCoarse k ∧ (2 * tokens.length - 1) * k ≤ 1074) :
    ∃ t, (fill g tokens).bestTree g root = .ok t ∧ t.IsPossible g ∧ 0.0 < t.score g := by
  have hweighted : g.IsWeighted := hg.elim (fun ⟨_, h⟩ => Grammar.isWeighted_of_ofText h) id
  have hpos : 0.0 < u.score g := by
    rcases hscore with hpos | ⟨k, hk, hsize⟩
    · exact hpos
    · rw [← hleaves] at hsize
      exact Binary64.lt_of_lt_of_le (Binary64.halvings_pos hsize)
        (hu.halvings_le_score hweighted hk hsize)
  obtain ⟨t, ht, hparse, hle⟩ :=
    exists_bestTree_fill_of_isParse hweighted hu.isParse hsymbol hleaves
  have hpos' := Binary64.lt_of_lt_of_le hpos hle
  exact ⟨t, ht, hparse.isPossible hweighted hpos', hpos'⟩

/-! ## A sentence with an impossible reading -/

/-- A grammar with two readings of two words. The first takes a rule of weight zero, and the second
one of this weight twice. -/
def faintReading (weight : Float) : Grammar :=
  .ofRules [⟨"S", .binary "A" "A", 0⟩, ⟨"S", .binary "C" "C", 1⟩, ⟨"A", .unary "x", 1⟩,
    ⟨"C", .unary "x", weight⟩, ⟨"C", .unary "y", 1⟩]

/-- The probability of the rule that the second reading takes twice. -/
def faintShare (weight : Float) : Float :=
  (faintReading weight).probability ⟨"C", .unary "x", weight⟩

section

variable (weight : Float)

theorem probability_faintReading :
    (faintReading weight).probability ⟨"S", .binary "A" "A", 0⟩ = 0 ∧
      (faintReading weight).probability ⟨"S", .binary "C" "C", 1⟩ = 1 ∧
      (faintReading weight).probability ⟨"A", .unary "x", 1⟩ = 1 := by
  have htotal : (faintReading weight).lhsWeight "S" = 0.0 + 0 + 1 ∧
      (faintReading weight).lhsWeight "A" = 0.0 + 1 := by
    simp only [Grammar.lhsWeight, Grammar.index_eq, RuleIndex.weight_ofRules]
    simp [faintReading]
  simp only [Grammar.probability, htotal]
  decide +kernel

theorem cellAt_word_faintReading {i : Nat} (hi : i < 2) :
    (fill (faintReading weight) ["x", "x"]).cellAt i i =
      ⟨some "x", [⟨"A", 1, .word⟩, ⟨"C", faintShare weight, .word⟩]⟩ := by
  have hx : ∀ i (h : i < 2), ["x", "x"][i] = "x" := by decide
  have hlexical : (faintReading weight).lexicalRules "x" =
      [⟨2, ⟨"A", .unary "x", 1⟩⟩, ⟨3, ⟨"C", .unary "x", weight⟩⟩] := by
    rw [Grammar.lexicalRules, Grammar.index_eq, RuleIndex.rulesWith_ofRules]
    rfl
  obtain ⟨-, -, hA⟩ := probability_faintReading weight
  rw [cellAt_fill_word hi, hx i hi, lexicalOffers, hlexical, List.map_cons, List.map_singleton, hA]
  rfl

theorem get?_faintReading :
    ((fill (faintReading weight) ["x", "x"]).cellAt 0 1).get? "S" =
      some (if 0 * (1 * 1) < 1 * (faintShare weight * faintShare weight) then
        ⟨"S", 1 * (faintShare weight * faintShare weight), .split 1 0⟩
      else ⟨"S", 0 * (1 * 1), .split 0 0⟩) := by
  have hbinary : (faintReading weight).binaryRules "A" "A" = [⟨0, ⟨"S", .binary "A" "A", 0⟩⟩] ∧
      (faintReading weight).binaryRules "A" "C" = [] ∧
      (faintReading weight).binaryRules "C" "A" = [] ∧
      (faintReading weight).binaryRules "C" "C" = [⟨1, ⟨"S", .binary "C" "C", 1⟩⟩] := by
    simp only [Grammar.binaryRules, Grammar.index_eq, RuleIndex.rulesWith_ofRules]
    exact ⟨rfl, rfl, rfl, rfl⟩
  have hoffers : spanOffers (faintReading weight) (fill (faintReading weight) ["x", "x"]) 0 1 =
      [⟨"S", 0 * (1 * 1), .split 0 0⟩,
        ⟨"S", 1 * (faintShare weight * faintShare weight), .split 1 0⟩] := by
    simp [spanOffers, splitOffers, pairOffers, cellAt_word_faintReading, hbinary,
      probability_faintReading]
  rw [cellAt_fill_split (by decide) (by decide), hoffers]
  split <;> rename_i h <;>
    simp [Cell.ofOffers, Cell.offer, Cell.offer?, Entry.improve?, Cell.get?, h]

def bothAs (symbol : String) : Tree :=
  .node "S" [.node symbol [.leaf "x"], .node symbol [.leaf "x"]]

theorem treeOf_word_faintReading {i : Nat} (hi : i < 2) {symbol : String}
    (h : symbol = "A" ∨ symbol = "C") :
    (fill (faintReading weight) ["x", "x"]).treeOf (faintReading weight) i i symbol =
      .ok (.node symbol [.leaf "x"]) := by
  have hcell := cellAt_word_faintReading weight hi
  have hspan : (fill (faintReading weight) ["x", "x"]).HasSpan i i := hasSpan_fill.2 ⟨le_rfl, hi⟩
  rcases h with rfl | rfl <;>
    exact treeOf_of_word hspan (by rw [hcell]; rfl) rfl (by rw [hcell])

/-- The best tree is the second reading only if its score is positive. -/
theorem bestTree_faintReading :
    (fill (faintReading weight) ["x", "x"]).bestTree (faintReading weight) "S" =
      .ok (bothAs (if 0 * (1 * 1) < 1 * (faintShare weight * faintShare weight) then "C"
        else "A")) := by
  have hget := get?_faintReading weight
  have hspan : (fill (faintReading weight) ["x", "x"]).HasSpan 0 1 := hasSpan_fill.2 (by decide)
  rw [bestTree_fill_of_ne_nil (by simp)]
  split at hget <;> rename_i h
  · rw [if_pos h]
    exact treeOf_of_split hspan hget rfl rfl rfl le_rfl (by decide)
      (treeOf_word_faintReading weight (by decide) (.inr rfl))
      (treeOf_word_faintReading weight (by decide) (.inr rfl))
  · rw [if_neg h]
    exact treeOf_of_split hspan hget rfl rfl rfl le_rfl (by decide)
      (treeOf_word_faintReading weight (by decide) (.inl rfl))
      (treeOf_word_faintReading weight (by decide) (.inl rfl))

theorem not_isPossible_bothAs : ¬ (bothAs "A").IsPossible (faintReading weight) := by
  intro h
  cases h with
  | split last hweight =>
    cases last
    exact absurd hweight (by decide +kernel)

variable {weight}

theorem isPossible_bothAs (h : 0.0 < weight) : (bothAs "C").IsPossible (faintReading weight) :=
  have hone : (0.0 : Float) < 1 := by decide +kernel
  .split rfl hone (.word rfl h) (.word rfl h)

theorem ofText_faintReading (h : Binary64.IsWeight weight) :
    ∃ text, Grammar.ofText text = .ok (faintReading weight) := by
  have hletters : IsSymbol ['S'] ∧ IsSymbol ['A'] ∧ IsSymbol ['C'] ∧ IsSymbol ['x'] ∧
      IsSymbol ['y'] := by
    decide
  exact ⟨_, Grammar.ofText_text_ofRules (List.cons_ne_nil _ _) (by simp [Rhs.symbols, hletters])
    (by simp [h, Binary64.isWeight_ofNat_zero, Binary64.isWeight_ofNat_one])⟩

end

theorem isCoarse_faintReading : (faintReading 0.001).IsCoarse 10 := by
  rw [Grammar.IsCoarse, faintReading, Grammar.rules_ofRules]
  simp only [List.forall_mem_cons, Grammar.probability, Grammar.lhsWeight, Grammar.index_eq,
    RuleIndex.weight_ofRules, Grammar.rules_ofRules]
  decide +kernel

/-- The second reading is found where its rules are not too improbable. -/
theorem isPossible_bestTree_fill_faintReading :
    (((∃ text, Grammar.ofText text = .ok (faintReading 0.001)) ∨
        (faintReading 0.001).IsWeighted) ∧
      (bothAs "C").IsPossible (faintReading 0.001) ∧ (bothAs "C").symbol = "S" ∧
      (bothAs "C").leaves = ["x", "x"] ∧
      (faintReading 0.001).IsCoarse 10 ∧ (2 * ["x", "x"].length - 1) * 10 ≤ 1074) ∧
    ∃ t, (fill (faintReading 0.001) ["x", "x"]).bestTree (faintReading 0.001) "S" = .ok t ∧
      t.IsPossible (faintReading 0.001) ∧ 0.0 < t.score (faintReading 0.001) := by
  have hweight : Binary64.IsWeight 0.001 ∧ (0.0 : Float) < 0.001 := by
    unfold Binary64.IsWeight
    decide +kernel
  have htext := ofText_faintReading hweight.1
  have hpossible := isPossible_bothAs hweight.2
  have hsize : (2 * ["x", "x"].length - 1) * 10 ≤ 1074 := by decide
  exact ⟨⟨.inl htext, hpossible, rfl, rfl, isCoarse_faintReading, hsize⟩,
    isPossible_bestTree_fill (.inl htext) hpossible rfl rfl
      (.inr ⟨10, isCoarse_faintReading, hsize⟩)⟩

/-- The second reading is lost where the square of its probability rounds to zero: the grammar is
read from text and the second reading is possible, but the best tree is the impossible one. -/
theorem not_isPossible_bestTree_faintReading :
    (∃ text, Grammar.ofText text = .ok (faintReading 1e-200)) ∧
      ((bothAs "C").IsPossible (faintReading 1e-200) ∧ (bothAs "C").symbol = "S" ∧
        (bothAs "C").leaves = ["x", "x"]) ∧
      (fill (faintReading 1e-200) ["x", "x"]).bestTree (faintReading 1e-200) "S" =
        .ok (bothAs "A") ∧
      ¬ (bothAs "A").IsPossible (faintReading 1e-200) := by
  have hweight : Binary64.IsWeight 1e-200 ∧ (0.0 : Float) < 1e-200 := by
    unfold Binary64.IsWeight
    decide +kernel
  have hshare : ¬ (0 * (1 * 1) : Float) < 1 * (faintShare 1e-200 * faintShare 1e-200) := by
    simp only [faintShare, Grammar.probability, Grammar.lhsWeight, Grammar.index_eq,
      RuleIndex.weight_ofRules, faintReading, Grammar.rules_ofRules]
    decide +kernel
  have hbest := bestTree_faintReading 1e-200
  rw [if_neg hshare] at hbest
  exact ⟨ofText_faintReading hweight.1, ⟨isPossible_bothAs hweight.2, rfl, rfl⟩, hbest,
    not_isPossible_bothAs _⟩

end Chart

end PhraseStructure
