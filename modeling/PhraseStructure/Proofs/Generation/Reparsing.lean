import PhraseStructure.Proofs.Chart.Reconstruction
import PhraseStructure.Proofs.Generation.Derivations

/-!
# Parsing what was sampled

Generation draws among all rules of a symbol, while the chart knows one rule for each pair of
sides. On trees of the shape that the chart builds, with one leaf or two nodes below each node, both
speak of the same derivations, so a sampled tree of this shape has a best tree with its leaves.
-/

namespace PhraseStructure

namespace Tree

/-- Whether every node has one child, a leaf, or two children, both nodes. -/
def isChomsky : Tree → Bool
  | leaf _ => true
  | node _ [leaf _] => true
  | node _ [left, right] => left.isNode && right.isNode && isChomsky left && isChomsky right
  | node _ _ => false

theorem isChomsky_node_iff {label : String} {children : List Tree} :
    (node label children).isChomsky = true ↔ (∃ word, children = [leaf word]) ∨
      ∃ left right, children = [left, right] ∧ left.isNode = true ∧ right.isNode = true ∧
        left.isChomsky = true ∧ right.isChomsky = true := by
  constructor
  · intro h
    unfold isChomsky at h
    split at h
    · cases ‹node _ _ = leaf _›
    · cases ‹node _ _ = node _ _›
      exact .inl ⟨_, rfl⟩
    · cases ‹node _ _ = node _ _›
      simp only [Bool.and_eq_true] at h
      exact .inr ⟨_, _, rfl, h.1.1.1, h.1.1.2, h.1.2, h.2⟩
    · cases h
  · rintro (⟨word, rfl⟩ | ⟨left, right, rfl, hleft, hright, hleft', hright'⟩)
    · rw [isChomsky]
    · simp [isChomsky, hleft, hright, hleft', hright']

theorem IsDerivation.isTerminal_of_mem_leaves {g : Grammar} {t : Tree} (h : t.IsDerivation g) :
    ∀ word ∈ t.leaves, g.isTerminal word = true := by
  induction h with
  | leaf hterminal => simpa [leaves] using hterminal
  | node _ _ _ ih =>
    intro word hword
    rw [leaves, leavesAll_eq_flatMap, List.mem_flatMap] at hword
    obtain ⟨child, hchild, hword⟩ := hword
    exact ih child hchild word hword

theorem IsDerivation.isNode {g : Grammar} {t : Tree} (h : t.IsDerivation g)
    (hsymbol : g.isTerminal t.symbol = false) : t.isNode = true := by
  cases h with
  | leaf hterminal =>
    rw [symbol, hterminal] at hsymbol
    cases hsymbol
  | node => rfl

/-- A derivation of the shape that the chart builds is a parse tree. -/
theorem IsDerivation.isParse {g : Grammar} {t : Tree} (h : t.IsDerivation g)
    (hshape : t.isChomsky = true) (hnode : t.isNode = true) : t.IsParse g := by
  induction h with
  | leaf => cases hnode
  | @node label children rhs hrule hsymbols _ ih =>
    rcases isChomsky_node_iff.1 hshape with
      ⟨word, rfl⟩ | ⟨left, right, rfl, hleft, hright, hleft', hright'⟩
    · rw [← Rhs.ofSymbols?_eq_some_iff] at hsymbols
      cases hsymbols
      exact .word hrule
    · rw [← Rhs.ofSymbols?_eq_some_iff] at hsymbols
      cases hsymbols
      exact .split hrule (ih left (by simp) hleft' hleft) (ih right (by simp) hright' hright)

theorem IsParse.isDerivation {g : Grammar} {t : Tree} (h : t.IsParse g)
    (hleaves : ∀ word ∈ t.leaves, g.isTerminal word = true) :
    t.IsDerivation g ∧ t.isChomsky = true := by
  induction h with
  | @word label word rule =>
    have hterminal : g.isTerminal word = true := hleaves word (by simp [leaves, leavesAll])
    exact ⟨.node rule rfl (by simpa using IsDerivation.leaf hterminal),
      isChomsky_node_iff.2 (.inl ⟨_, rfl⟩)⟩
  | @split label left right rule hleft hright ihl ihr =>
    simp only [leaves, leavesAll, List.append_nil, List.mem_append] at hleaves
    obtain ⟨hderivation, hshape⟩ := ihl fun word hword => hleaves word (.inl hword)
    obtain ⟨hderivation', hshape'⟩ := ihr fun word hword => hleaves word (.inr hword)
    exact ⟨.node rule rfl (by simpa using ⟨hderivation, hderivation'⟩),
      isChomsky_node_iff.2 (.inr ⟨_, _, rfl, hleft.isNode, hright.isNode, hshape, hshape'⟩)⟩

/-- With one right-hand side for each symbol at most, the symbol alone determines a derivation. -/
theorem IsDerivation.eq_of_symbol_eq {g : Grammar}
    (hg : ∀ lhs rhs rhs', g.HasRule lhs rhs → g.HasRule lhs rhs' → rhs = rhs') {t u : Tree}
    (ht : t.IsDerivation g) (hu : u.IsDerivation g) (h : t.symbol = u.symbol) : t = u := by
  induction ht generalizing u with
  | @leaf word hterminal =>
    cases hu with
    | @leaf word' =>
      obtain rfl : word = word' := h
      rfl
    | @node label _ _ hrule =>
      obtain rfl : word = label := h
      rw [hrule.isTerminal_eq_false] at hterminal
      cases hterminal
  | @node label children rhs hrule hsymbols _ ih =>
    cases hu with
    | @leaf word hterminal =>
      obtain rfl : label = word := h
      rw [hrule.isTerminal_eq_false] at hterminal
      cases hterminal
    | @node label' children' rhs' hrule' hsymbols' hchildren' =>
      obtain rfl : label = label' := h
      rw [hg _ _ _ hrule' hrule, ← hsymbols] at hsymbols'
      have hlength : children.length = children'.length := by
        simpa using (congrArg List.length hsymbols').symm
      refine congrArg _ (List.ext_getElem hlength fun i hi hi' => ?_)
      refine ih _ (List.getElem_mem hi) (hchildren' _ (List.getElem_mem hi')) ?_
      simpa [hi, hi'] using (congrArg (·[i]?) hsymbols').symm

end Tree

namespace Chart

/-- The leaves of a derivation of the chart's shape have a best tree, again such a derivation of
these leaves, and the same one if there is no other. -/
theorem exists_bestTree_fill_leaves {g : Grammar} {t : Tree} (h : t.IsDerivation g)
    (hshape : t.isChomsky = true) (hroot : g.isTerminal t.symbol = false) :
    ∃ u, (fill g t.leaves).bestTree g t.symbol = .ok u ∧ u.IsDerivation g ∧ u.isChomsky = true ∧
      u.symbol = t.symbol ∧ u.leaves = t.leaves ∧
      ((∃! v : Tree, v.IsDerivation g ∧ v.isChomsky = true ∧ v.symbol = t.symbol ∧
        v.leaves = t.leaves) → u = t) := by
  have hparse := h.isParse hshape (h.isNode hroot)
  obtain ⟨u, -, hbest, hparse', hsymbol, hleaves, -⟩ := exists_bestTree_fill hparse.derives
  obtain ⟨hderivation, hshape'⟩ := hparse'.isDerivation (hleaves ▸ h.isTerminal_of_mem_leaves)
  refine ⟨u, hbest, hderivation, hshape', hsymbol, hleaves, ?_⟩
  intro hunique
  exact hunique.unique ⟨hderivation, hshape', hsymbol, hleaves⟩ ⟨h, hshape, rfl, rfl⟩

end Chart

namespace Generator

/-- What was sampled from a nonterminal is parsed again, if it has the shape of a parse tree: its
leaves have a best tree, and this is the sampled tree if they have no other derivation of this
shape. -/
theorem bestTree_fill_leaves_expand (gen : Generator) {root : String} {depth : Nat}
    {draws after : Draws} {t : Tree} (hroot : gen.grammar.isTerminal root = false)
    (h : gen.expand root depth draws = (some t, after)) (hshape : t.isChomsky = true) :
    ∃ u, (Chart.fill gen.grammar t.leaves).bestTree gen.grammar root = .ok u ∧
      u.leaves = t.leaves ∧
      ((∃! v : Tree, v.IsDerivation gen.grammar ∧ v.isChomsky = true ∧ v.symbol = root ∧
        v.leaves = t.leaves) → u = t) := by
  obtain ⟨rfl, hderivation⟩ := isDerivation_of_expand h
  obtain ⟨u, hbest, -, -, -, hleaves, hunique⟩ :=
    Chart.exists_bestTree_fill_leaves hderivation hshape hroot
  exact ⟨u, hbest, hleaves, hunique⟩

/-! ## Odd symbols -/

/-- Rules whose symbols are empty, blank or brackets, one of them declared twice. -/
def oddSymbols : Generator where
  grammar := .ofRules [⟨"", .binary "(" "(", -1⟩, ⟨"(", .unary " ", 0⟩, ⟨"(", .unary " ", 2⟩]
  maxDepth := 2

theorem isTerminal_oddSymbols :
    oddSymbols.grammar.isTerminal "" = false ∧ oddSymbols.grammar.isTerminal "(" = false ∧
      oddSymbols.grammar.isTerminal " " = true := by
  rw [Grammar.isTerminal_eq_false_iff, Grammar.isTerminal_eq_false_iff, Grammar.isTerminal_iff]
  simp only [oddSymbols, Grammar.rules_ofRules]
  decide +kernel

theorem hasRule_oddSymbols {lhs : String} {rhs rhs' : Rhs}
    (h : oddSymbols.grammar.HasRule lhs rhs) (h' : oddSymbols.grammar.HasRule lhs rhs') :
    rhs = rhs' := by
  simp only [Grammar.HasRule, oddSymbols, Grammar.rules_ofRules, List.mem_cons, List.not_mem_nil,
    or_false, exists_eq_or_imp, exists_eq_left] at h h'
  aesop

theorem grow_oddSymbols (draws : Draws) :
    grow oddSymbols.grammar 1 "(" draws = (some (.node "(" [.leaf " "]), draws.next.2) := by
  have hrule : oddSymbols.grammar.HasRule "(" (.unary " ") := by
    simp [Grammar.HasRule, oddSymbols]
  refine grow_of_rhs_eq hrule (fun _ h => hasRule_oddSymbols h hrule) ?_
  rw [Rhs.symbols, sampleAll, grow_of_isTerminal isTerminal_oddSymbols.2.2]
  rfl

theorem expand_oddSymbols (draws : Draws) :
    oddSymbols.expand "" 0 draws =
      (some (.node "" [.node "(" [.leaf " "], .node "(" [.leaf " "]]),
        draws.next.2.next.2.next.2) := by
  have hrule : oddSymbols.grammar.HasRule "" (.binary "(" "(") := by
    simp [Grammar.HasRule, oddSymbols]
  refine grow_of_rhs_eq hrule (fun _ h => hasRule_oddSymbols h hrule) ?_
  show sampleAll (grow oddSymbols.grammar 1) ["(", "("] draws.next.2 = _
  simp only [sampleAll, grow_oddSymbols]

/-- Two brackets over two blanks, below the empty symbol: there is no other such derivation. -/
theorem bestTree_fill_leaves_expand_oddSymbols :
    (oddSymbols.grammar.isTerminal "" = false ∧
      oddSymbols.expand "" 0 (.ofList []) =
        (some (.node "" [.node "(" [.leaf " "], .node "(" [.leaf " "]]),
          (Draws.ofList []).next.2.next.2.next.2) ∧
      (Tree.node "" [.node "(" [.leaf " "], .node "(" [.leaf " "]]).isChomsky = true) ∧
    (∃! v : Tree, v.IsDerivation oddSymbols.grammar ∧ v.isChomsky = true ∧ v.symbol = "" ∧
      v.leaves = [" ", " "]) ∧
    (Chart.fill oddSymbols.grammar [" ", " "]).bestTree oddSymbols.grammar "" =
      .ok (.node "" [.node "(" [.leaf " "], .node "(" [.leaf " "]]) := by
  have hexpand := expand_oddSymbols (.ofList [])
  have hunique : ∃! v : Tree, v.IsDerivation oddSymbols.grammar ∧ v.isChomsky = true ∧
      v.symbol = "" ∧ v.leaves = [" ", " "] := by
    obtain ⟨hsymbol, hderivation⟩ := isDerivation_of_expand hexpand
    refine ⟨_, ⟨hderivation, rfl, rfl, rfl⟩, ?_⟩
    rintro v ⟨hv, -, hvsymbol, -⟩
    exact hv.eq_of_symbol_eq (fun _ _ _ => hasRule_oddSymbols) hderivation
      (hvsymbol.trans hsymbol.symm)
  obtain ⟨u, hbest, -, hu⟩ :=
    bestTree_fill_leaves_expand oddSymbols isTerminal_oddSymbols.1 hexpand rfl
  rw [hu hunique] at hbest
  exact ⟨⟨isTerminal_oddSymbols.1, hexpand, rfl⟩, hunique, hbest⟩

end Generator

end PhraseStructure
