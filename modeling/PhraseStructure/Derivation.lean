import PhraseStructure.Grammar.Basic
import PhraseStructure.Tree.Basic

/-!
# Derivations

What a grammar derives, said by its rules alone. Parsing reads a unary rule as the emission of one
word, and a binary rule as the combination of two adjacent spans; generation expands symbols
until only terminals are left. Both give trees, and a parse tree has a score, the product of the
probabilities of its rules.
-/

namespace PhraseStructure

namespace Grammar

/-- Some rule has these two sides. -/
def HasRule (g : Grammar) (lhs : String) (rhs : Rhs) : Prop :=
  ∃ rule ∈ g.rules.toList, rule.lhs = lhs ∧ rule.rhs = rhs

/-- The last declared rule with these two sides. -/
def lastRule? (g : Grammar) (lhs : String) (rhs : Rhs) : Option Rule :=
  g.rules.toList.reverse.find? fun rule => rule.lhs = lhs ∧ rule.rhs = rhs

/-- The probability of the last declared rule with these two sides, or zero without such a
rule. -/
def lastProbability (g : Grammar) (lhs : String) (rhs : Rhs) : Float :=
  match g.lastRule? lhs rhs with
  | none => 0.0
  | some rule => g.probability rule

/-- A symbol derives a list of words: one word by a unary rule, more words by a binary rule whose
symbols derive the two parts of some split. -/
inductive Derives (g : Grammar) : String → List String → Prop where
  | word {lhs word : String} (rule : g.HasRule lhs (.unary word)) : Derives g lhs [word]
  | split {lhs left right : String} {us vs : List String}
      (rule : g.HasRule lhs (.binary left right)) (hleft : Derives g left us)
      (hright : Derives g right vs) : Derives g lhs (us ++ vs)

@[simp] theorem isSome_lastRule? {g : Grammar} {lhs : String} {rhs : Rhs} :
    (g.lastRule? lhs rhs).isSome ↔ g.HasRule lhs rhs := by
  simp [lastRule?, HasRule]

theorem Derives.ne_nil {g : Grammar} {lhs : String} {words : List String}
    (h : g.Derives lhs words) : words ≠ [] := by
  induction h with
  | word => simp
  | split _ _ _ ih _ => simp [ih]

end Grammar

namespace Tree

/-- A parse tree: every node has one leaf below it by a unary rule, or two parse trees by a binary
rule of their labels. -/
inductive IsParse (g : Grammar) : Tree → Prop where
  | word {label word : String} (rule : g.HasRule label (.unary word)) :
      IsParse g (node label [leaf word])
  | split {label : String} {left right : Tree}
      (rule : g.HasRule label (.binary left.symbol right.symbol)) (hleft : IsParse g left)
      (hright : IsParse g right) : IsParse g (node label [left, right])

/-- A generated tree: every leaf is a terminal, and the children of every node are the right-hand
side of some rule of its label. -/
inductive IsDerivation (g : Grammar) : Tree → Prop where
  | leaf {word : String} (terminal : g.isTerminal word = true) : IsDerivation g (leaf word)
  | node {label : String} {children : List Tree} {rhs : Rhs} (rule : g.HasRule label rhs)
      (symbols : children.map symbol = rhs.symbols)
      (hchildren : ∀ t ∈ children, IsDerivation g t) : IsDerivation g (node label children)

/-- The score of a parse tree, from the leaves up: the probability of the last declared rule with
the sides of the root, times the product of the scores of the two children if there are two. -/
def score (g : Grammar) : Tree → Float
  | leaf _ => 1.0
  | node label [leaf word] => g.lastProbability label (.unary word)
  | node label [left, right] =>
    g.lastProbability label (.binary left.symbol right.symbol) * (score g left * score g right)
  | node _ _ => 0.0

theorem score_word (g : Grammar) (label word : String) :
    (node label [leaf word]).score g = g.lastProbability label (.unary word) := by
  rw [score]

theorem score_split (g : Grammar) (label : String) (left right : Tree) :
    (node label [left, right]).score g =
      g.lastProbability label (.binary left.symbol right.symbol) *
        (left.score g * right.score g) := by
  rw [score]

theorem IsParse.derives {g : Grammar} {t : Tree} (h : t.IsParse g) :
    g.Derives t.symbol t.leaves := by
  induction h with
  | word rule => exact .word rule
  | split rule _ _ ihl ihr =>
    simpa [symbol, leaves, leavesAll] using Grammar.Derives.split rule ihl ihr

theorem IsParse.isNode {g : Grammar} {t : Tree} (h : t.IsParse g) : t.isNode = true := by
  cases h <;> rfl

end Tree

/-- What a symbol derives are the leaves of the parse trees that it is the root of. -/
theorem Grammar.derives_iff_exists_isParse {g : Grammar} {lhs : String} {words : List String} :
    g.Derives lhs words ↔ ∃ t : Tree, t.IsParse g ∧ t.symbol = lhs ∧ t.leaves = words := by
  constructor
  · intro h
    induction h with
    | @word lhs word rule => exact ⟨.node lhs [.leaf word], .word rule, rfl, rfl⟩
    | @split lhs left right us vs rule _ _ ihl ihr =>
      obtain ⟨t, ht, rfl, rfl⟩ := ihl
      obtain ⟨u, hu, rfl, rfl⟩ := ihr
      exact ⟨.node lhs [t, u], .split rule ht hu, rfl, by simp [Tree.leaves, Tree.leavesAll]⟩
  · rintro ⟨t, ht, rfl, rfl⟩
    exact ht.derives

end PhraseStructure
