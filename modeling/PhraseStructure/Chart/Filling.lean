import PhraseStructure.Chart.Basic
import PhraseStructure.Grammar.Basic

/-!
# Filling a chart

The chart of a token list is filled from the narrow spans to the wide ones. A token is offered
every rule that emits it; a wider span is offered every rule over every pair of entries on the
two sides of every split.
-/

namespace PhraseStructure.Chart

def lexicalOffers (g : Grammar) (word : String) : List Entry :=
  (g.lexicalRules word).map fun d => ⟨d.rule.lhs, g.probability d.rule, .word⟩

/-- What the rules offer for two adjacent entries, the first one ending at token `position`. -/
def pairOffers (g : Grammar) (position : Nat) (left right : Entry) : List Entry :=
  let base := left.prob * right.prob
  (g.binaryRules left.symbol right.symbol).map fun d =>
    ⟨d.rule.lhs, g.probability d.rule * base, .split d.index position⟩

def splitOffers (g : Grammar) (position : Nat) (left right : Cell) : List Entry :=
  left.entries.flatMap fun l => right.entries.flatMap fun r => pairOffers g position l r

/-- What the rules offer for a span of several tokens: split after split, then along the left
cell, the right cell and the rules. -/
def spanOffers (g : Grammar) (chart : Chart) (start stop : Nat) : List Entry :=
  (List.range' start (stop - start)).flatMap fun position =>
    splitOffers g position (chart.cellAt start position) (chart.cellAt (position + 1) stop)

/-- The cell of a span, from the cells of narrower spans. -/
def spanCell (g : Grammar) (tokens : List String) (chart : Chart) (start stop : Nat) : Cell :=
  if start = stop then
    match tokens[start]? with
    | none => {}
    | some word => Cell.ofOffers (some word) (lexicalOffers g word)
  else Cell.ofOffers none (spanOffers g chart start stop)

def fillSpan (g : Grammar) (tokens : List String) (chart : Chart) (span : Nat × Nat) : Chart :=
  chart.set span.1 span.2 (spanCell g tokens chart span.1 span.2)

def fill (g : Grammar) (tokens : List String) : Chart :=
  (spans tokens.length).foldl (fillSpan g tokens) (blank tokens.length)

@[simp] theorem size_fillSpan (g : Grammar) (tokens : List String) (chart : Chart)
    (span : Nat × Nat) : (fillSpan g tokens chart span).size = chart.size :=
  size_set _ _ _ _

@[simp] theorem size_foldl_fillSpan (g : Grammar) (tokens : List String) (chart : Chart)
    (l : List (Nat × Nat)) : (l.foldl (fillSpan g tokens) chart).size = chart.size := by
  induction l generalizing chart with
  | nil => rfl
  | cons span rest ih => exact (ih _).trans (size_fillSpan g tokens chart span)

@[simp] theorem size_fill (g : Grammar) (tokens : List String) :
    (fill g tokens).size = tokens.length :=
  size_foldl_fillSpan g tokens _ _

end PhraseStructure.Chart
