import PhraseStructure.Chart.BestTree

/-!
# Grammars with the same offers

Filling a chart asks the grammar for nothing but offers, and reading a tree off it for nothing but
the right-hand sides of rules. Grammars that agree on these have the same charts and trees.
-/

namespace PhraseStructure.Chart

variable {g h : Grammar}

/-- Two grammars make the same offers to every word and to every two adjacent entries. -/
structure SameOffers (g h : Grammar) : Prop where
  lexical_eq : lexicalOffers h = lexicalOffers g
  pair_eq : pairOffers h = pairOffers g

theorem SameOffers.fill_eq (hsame : SameOffers g h) (tokens : List String) :
    fill h tokens = fill g tokens := by
  have hspan : spanOffers h = spanOffers g := by
    funext chart start stop
    unfold spanOffers splitOffers
    rw [hsame.pair_eq]
  have hstep : fillSpan h tokens = fillSpan g tokens := by
    funext chart span
    unfold fillSpan spanCell
    rw [hspan, hsame.lexical_eq]
  rw [fill, hstep]
  rfl

/-- The tree below a symbol is read off alike with rules that have the same right-hand sides. -/
theorem treeOf_congr (hrhs : ∀ index, (h.rule index).map (·.rhs) = (g.rule index).map (·.rhs))
    (chart : Chart) (start stop : Nat) (symbol : String) :
    chart.treeOf h start stop symbol = chart.treeOf g start stop symbol := by
  -- by induction on the width, as the trees below come from narrower spans
  induction hwidth : stop - start using Nat.strongRecOn generalizing start stop symbol with
  | ind width ih =>
    rw [treeOf, treeOf]
    cases chart.cell start stop with
    | error access => rfl
    | ok cell =>
      dsimp only
      cases cell.get? symbol with
      | none => rfl
      | some entry =>
        dsimp only
        cases entry.origin with
        | word => rfl
        | split index position =>
          dsimp only
          have hindex := hrhs index
          cases hg : g.rule index with
          | error access =>
            cases hh : h.rule index with
            | error access' =>
              rw [hg, hh] at hindex
              cases hindex
              rfl
            | ok rule' =>
              rw [hg, hh] at hindex
              cases hindex
          | ok rule =>
            cases hh : h.rule index with
            | error access' =>
              rw [hg, hh] at hindex
              cases hindex
            | ok rule' =>
              rw [hg, hh] at hindex
              have hsides : rule'.rhs = rule.rhs := Except.ok.inj hindex
              dsimp only
              rw [hsides]
              cases rule.rhs with
              | unary word => rfl
              | binary left right =>
                dsimp only
                by_cases hsplit : start ≤ position ∧ position < stop
                · rw [dif_pos hsplit, dif_pos hsplit, ih _ (by omega) _ _ _ rfl,
                    ih _ (by omega) _ _ _ rfl]
                · rw [dif_neg hsplit, dif_neg hsplit]

theorem bestTree_congr (hrhs : ∀ index, (h.rule index).map (·.rhs) = (g.rule index).map (·.rhs))
    (chart : Chart) (root : String) : chart.bestTree h root = chart.bestTree g root := by
  rw [bestTree, bestTree, treeOf_congr hrhs]

end PhraseStructure.Chart
