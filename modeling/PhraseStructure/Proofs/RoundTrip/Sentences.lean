import PhraseStructure.Proofs.Generation.Reparsing
import PhraseStructure.Proofs.RoundTrip.Tokens

/-!
# Sentences come back

Where names and marks are told apart, the words of a written sentence are its leaves but for the
mark, and the tree above them has the shape that the chart builds. So a generated sentence is
parsed again, and comes back exactly if its words have one derivation only.
-/

namespace PhraseStructure

open Generator (defaultStart)
open Grammar (parseRoot)

/-- The start symbol expands to a sentence and a mark, and nothing else does. The nonterminals are
names, and each other rule emits a name or joins two nonterminals. -/
structure Grammar.IsMarked (g : Grammar) : Prop where
  start : ∃ rhs, g.HasRule defaultStart rhs
  mark : ∀ rhs, g.HasRule defaultStart rhs → ∃ c : Char,
    rhs = .binary parseRoot (String.singleton c) ∧ c.isAlpha = false ∧
      g.isTerminal (String.singleton c) = true
  start_notMem : ∀ lhs rhs, g.HasRule lhs rhs → defaultStart ∉ rhs.symbols
  root : g.isTerminal parseRoot = false
  isName : ∀ symbol, g.isTerminal symbol = false → IsName symbol
  unary : ∀ lhs word, lhs ≠ defaultStart → g.HasRule lhs (.unary word) →
    g.isTerminal word = true ∧ IsName word
  binary : ∀ lhs left right, lhs ≠ defaultStart → g.HasRule lhs (.binary left right) →
    g.isTerminal left = false ∧ g.isTerminal right = false

namespace Tree

theorem IsDerivation.eq_leaf {g : Grammar} {t : Tree} (h : t.IsDerivation g)
    (hterminal : g.isTerminal t.symbol = true) : t = Tree.leaf t.symbol := by
  cases h with
  | leaf => rfl
  | node rule =>
    rw [symbol, rule.isTerminal_eq_false] at hterminal
    cases hterminal

end Tree

namespace Grammar.IsMarked

variable {g : Grammar}

/-- Below a symbol other than the start symbol there are names only. -/
theorem isName_of_mem_symbols (hg : g.IsMarked) {lhs : String} {rhs : Rhs}
    (hlhs : lhs ≠ defaultStart) (rule : g.HasRule lhs rhs) :
    ∀ symbol ∈ rhs.symbols, IsName symbol ∧ symbol ≠ defaultStart := by
  intro symbol hsymbol
  have hne : symbol ≠ defaultStart := by
    rintro rfl
    exact hg.start_notMem lhs rhs rule hsymbol
  refine ⟨?_, hne⟩
  cases rhs with
  | unary word =>
    rw [List.mem_singleton.1 hsymbol]
    exact (hg.unary lhs word hlhs rule).2
  | binary left right =>
    obtain ⟨hleft, hright⟩ := hg.binary lhs left right hlhs rule
    rcases List.mem_cons.1 hsymbol with rfl | hsymbol
    · exact hg.isName _ hleft
    · rw [List.mem_singleton.1 hsymbol]
      exact hg.isName _ hright

theorem sentenceTokens_text (hg : g.IsMarked) {t : Tree} (h : t.IsDerivation g)
    (hname : IsName t.symbol) (hstart : t.symbol ≠ defaultStart) :
    RoundTrip.sentenceTokens g t.text = t.leaves := by
  induction h with
  | @leaf word hterminal =>
    have hname : IsName word := hname
    rw [Tree.text, RoundTrip.sentenceTokens_of_isName hname, if_pos hterminal, Tree.leaves]
  | @node label children rhs rule hsymbols _ ih =>
    have hname : IsName label := hname
    rw [RoundTrip.sentenceTokens_node,
      RoundTrip.sentenceTokens_of_nonterminal rule.isTerminal_eq_false hname.2, List.nil_append,
      Tree.leaves,
      Tree.leavesAll_eq_flatMap]
    apply List.flatMap_congr
    intro child hchild
    have hmem : child.symbol ∈ rhs.symbols := hsymbols ▸ List.mem_map_of_mem hchild
    obtain ⟨hname', hstart'⟩ := hg.isName_of_mem_symbols hstart rule _ hmem
    exact ih child hchild hname' hstart'

/-- Derivations have the shape that the chart builds. -/
theorem isChomsky (hg : g.IsMarked) {t : Tree} (h : t.IsDerivation g)
    (hstart : t.symbol ≠ defaultStart) : t.isChomsky = true := by
  induction h with
  | leaf => rfl
  | @node label children rhs rule hsymbols hchildren ih =>
    rw [Tree.isChomsky_node_iff]
    have hbelow : ∀ child ∈ children, child.isChomsky = true := by
      intro child hchild
      have hmem : child.symbol ∈ rhs.symbols := hsymbols ▸ List.mem_map_of_mem hchild
      exact ih child hchild (hg.isName_of_mem_symbols hstart rule _ hmem).2
    cases rhs with
    | unary word =>
      obtain ⟨child, rfl, rfl⟩ := List.map_eq_singleton_iff.1 hsymbols
      have hterminal := (hg.unary label child.symbol hstart rule).1
      exact .inl ⟨child.symbol, congrArg ([·]) ((hchildren child (by simp)).eq_leaf hterminal)⟩
    | binary left right =>
      obtain ⟨leftTree, others, rfl, rfl, hothers⟩ := List.map_eq_cons_iff.1 hsymbols
      obtain ⟨rightTree, rfl, rfl⟩ := List.map_eq_singleton_iff.1 hothers
      obtain ⟨hleft, hright⟩ := hg.binary label _ _ hstart rule
      exact .inr ⟨_, _, rfl, (hchildren _ (by simp)).isNode hleft,
        (hchildren _ (by simp)).isNode hright, hbelow _ (by simp), hbelow _ (by simp)⟩

/-- A derivation from the start symbol is one of a sentence with a mark behind it. -/
theorem exists_of_isDerivation (hg : g.IsMarked) {t : Tree} (h : t.IsDerivation g)
    (hstart : t.symbol = defaultStart) :
    ∃ s c, t = .node defaultStart [s, .leaf (String.singleton c)] ∧ c.isAlpha = false ∧
      s.IsDerivation g ∧ s.symbol = parseRoot := by
  obtain ⟨rhs, hrule⟩ := hg.start
  cases h with
  | @leaf word hterminal =>
    obtain rfl : word = defaultStart := hstart
    rw [hrule.isTerminal_eq_false] at hterminal
    cases hterminal
  | @node label children rhs' rule hsymbols hchildren =>
    obtain rfl : label = defaultStart := hstart
    obtain ⟨c, rfl, halpha, hterminal⟩ := hg.mark rhs' rule
    obtain ⟨s, others, rfl, hsymbol, hothers⟩ := List.map_eq_cons_iff.1 hsymbols
    obtain ⟨m, rfl, hm⟩ := List.map_eq_singleton_iff.1 hothers
    have hleaf := (hchildren m (by simp)).eq_leaf (hm ▸ hterminal)
    rw [hleaf, hm]
    exact ⟨s, c, rfl, halpha, hchildren s (by simp), hsymbol⟩

theorem sentenceTokens_sentence (hg : g.IsMarked) {s : Tree} (h : s.IsDerivation g)
    (hsymbol : s.symbol = parseRoot) {c : Char} (halpha : c.isAlpha = false) :
    RoundTrip.sentenceTokens g (Tree.node defaultStart [s, .leaf (String.singleton c)]).text =
      s.leaves := by
  obtain ⟨rhs, hrule⟩ := hg.start
  have hname : IsName s.symbol := hg.isName _ (hsymbol ▸ hg.root)
  rw [RoundTrip.sentenceTokens_node_mark hrule.isTerminal_eq_false s halpha]
  exact hg.sentenceTokens_text h hname (by rw [hsymbol]; decide)

end Grammar.IsMarked

namespace RoundTrip

theorem wrap_some (tree : Tree) (c : Char) :
    wrap tree (some c) = "(ROOT " ++ tree.text ++ " " ++ String.singleton c ++ ")" := by
  have hstart : "(" ++ defaultStart ++ " " = "(ROOT " := by decide
  rw [wrap, hstart]
  simp only [String.append_assoc]

/-- A sentence in brackets is the writing of a tree with the mark as its last leaf. -/
theorem wrap_eq_text (tree : Tree) (c : Char) :
    wrap tree (some c) = (Tree.node defaultStart [tree, .leaf (String.singleton c)]).text := by
  simp [wrap, Tree.text, Tree.textAll, String.append_assoc]

theorem sentenceMark_wrap (tree : Tree) (c : Char) :
    sentenceMark (wrap tree (some c)) = some c := by
  rw [wrap_some]
  exact sentenceMark_append _ c

/-- A line that comes back exactly is counted as correct. -/
theorem record_of_reparse {g : Grammar} {line : String} (h : reparse g line = .ok line)
    (tally : RoundTrip) : tally.record g line = ⟨tally.total + 1, tally.correct + 1⟩ := by
  simp [record, isExact, h]

end RoundTrip

/-- Every generated sentence is parsed again: what comes back is a derivation of the same words in
brackets with the sentence's own mark. It is the sentence itself, and counts as correct, if its
words have no other derivation. -/
theorem Generator.reparse_of_mem_sentences {gen : Generator} (hg : gen.grammar.IsMarked)
    (hstart : gen.start = defaultStart) {fuel count : Nat} {draws after : Draws}
    {lines : List String} (h : gen.sentences fuel count draws = (some (.ok lines), after)) :
    ∀ line ∈ lines, ∃ s c,
      line = (Tree.node defaultStart [s, .leaf (String.singleton c)]).text ∧
      s.IsDerivation gen.grammar ∧ s.symbol = parseRoot ∧
      RoundTrip.sentenceMark line = some c ∧
      (∃ t : Tree, t.IsDerivation gen.grammar ∧ t.symbol = parseRoot ∧ t.leaves = s.leaves ∧
        RoundTrip.reparse gen.grammar line =
          .ok ("(ROOT " ++ t.text ++ " " ++ String.singleton c ++ ")")) ∧
      ((∃! t : Tree, t.IsDerivation gen.grammar ∧ t.symbol = parseRoot ∧ t.leaves = s.leaves) →
        RoundTrip.reparse gen.grammar line = .ok line ∧
        ∀ tally : RoundTrip, tally.record gen.grammar line =
          ⟨tally.total + 1, tally.correct + 1⟩) := by
  intro line hline
  obtain ⟨tree, before, after', rfl, hexpand⟩ := exists_expand_of_sentences h line hline
  obtain ⟨hsymbol, hderivation⟩ := isDerivation_of_expand hexpand
  obtain ⟨s, c, rfl, halpha, hs, hroot⟩ :=
    hg.exists_of_isDerivation hderivation (hsymbol.trans hstart)
  have htokens := hg.sentenceTokens_sentence hs hroot halpha
  have hmark : RoundTrip.sentenceMark
      (Tree.node defaultStart [s, .leaf (String.singleton c)]).text = some c := by
    rw [← RoundTrip.wrap_eq_text]
    exact RoundTrip.sentenceMark_wrap s c
  obtain ⟨t, hbest, ht, -, htsymbol, hleaves, -⟩ := Chart.exists_bestTree_fill_leaves hs
    (hg.isChomsky hs (by rw [hroot]; decide)) (hroot ▸ hg.root)
  have hreparse : RoundTrip.reparse gen.grammar
      (Tree.node defaultStart [s, .leaf (String.singleton c)]).text =
        .ok (RoundTrip.wrap t (some c)) := by
    rw [RoundTrip.reparse, htokens, hmark, Grammar.parse, ← hroot, hbest]
  refine ⟨s, c, rfl, hs, hroot, hmark, ⟨t, ht, htsymbol.trans hroot, hleaves, ?_⟩, ?_⟩
  · rw [hreparse, RoundTrip.wrap_some]
  · intro hunique
    obtain rfl : t = s := hunique.unique ⟨ht, htsymbol.trans hroot, hleaves⟩ ⟨hs, hroot, rfl⟩
    rw [RoundTrip.wrap_eq_text] at hreparse
    exact ⟨hreparse, RoundTrip.record_of_reparse hreparse⟩

/-! ## A language of one sentence -/

namespace Generator

def barkingDogs : Generator where
  grammar := .ofRules [⟨"ROOT", .binary "S" ".", 3⟩, ⟨"S", .binary "NP" "VP", 1⟩,
    ⟨"NP", .unary "dogs", 1⟩, ⟨"VP", .unary "bark", 2⟩]
  maxDepth := 3

theorem hasRule_barkingDogs {lhs : String} {rhs : Rhs} :
    barkingDogs.grammar.HasRule lhs rhs ↔
      (lhs = "ROOT" ∧ rhs = .binary "S" ".") ∨ (lhs = "S" ∧ rhs = .binary "NP" "VP") ∨
        (lhs = "NP" ∧ rhs = .unary "dogs") ∨ (lhs = "VP" ∧ rhs = .unary "bark") := by
  simp only [Grammar.HasRule, barkingDogs, Grammar.rules_ofRules, List.mem_cons, List.not_mem_nil,
    or_false, exists_eq_or_imp, exists_eq_left, eq_comm]

theorem isTerminal_barkingDogs {symbol : String} :
    barkingDogs.grammar.isTerminal symbol = false ↔ symbol ∈ ["ROOT", "S", "NP", "VP"] := by
  rw [Grammar.isTerminal_eq_false_iff, barkingDogs, Grammar.rules_ofRules, ← List.mem_map]
  rfl

theorem isTerminal_words_barkingDogs :
    ∀ word ∈ [".", "dogs", "bark"], barkingDogs.grammar.isTerminal word = true := by
  intro word hword
  rw [← Bool.not_eq_false, isTerminal_barkingDogs]
  revert word
  decide +kernel

theorem eq_of_hasRule_barkingDogs {lhs : String} {rhs rhs' : Rhs}
    (h : barkingDogs.grammar.HasRule lhs rhs) (h' : barkingDogs.grammar.HasRule lhs rhs') :
    rhs = rhs' := by
  rw [hasRule_barkingDogs] at h h'
  rcases h with ⟨rfl, rfl⟩ | ⟨rfl, rfl⟩ | ⟨rfl, rfl⟩ | ⟨rfl, rfl⟩ <;> simpa [eq_comm] using h'

theorem isMarked_barkingDogs : barkingDogs.grammar.IsMarked where
  start := ⟨_, hasRule_barkingDogs.2 (.inl ⟨rfl, rfl⟩)⟩
  mark := by
    intro rhs h
    obtain rfl := eq_of_hasRule_barkingDogs h (hasRule_barkingDogs.2 (.inl ⟨rfl, rfl⟩))
    exact ⟨'.', rfl, by decide, isTerminal_words_barkingDogs "." (by decide)⟩
  start_notMem := by
    intro lhs rhs h
    rcases hasRule_barkingDogs.1 h with ⟨-, rfl⟩ | ⟨-, rfl⟩ | ⟨-, rfl⟩ | ⟨-, rfl⟩ <;> decide
  root := isTerminal_barkingDogs.2 (by decide)
  isName := by
    intro symbol h
    have hnames : ∀ s ∈ ["ROOT", "S", "NP", "VP"], IsName s := by simp [IsName]
    exact hnames symbol (isTerminal_barkingDogs.1 h)
  unary := by
    intro lhs word _ h
    simp only [hasRule_barkingDogs, Rhs.unary.injEq, reduceCtorEq, and_false, false_or] at h
    have hwords : ∀ s ∈ ["dogs", "bark"], IsName s := by simp [IsName]
    have hmem : word ∈ ["dogs", "bark"] := by
      rcases h with ⟨-, rfl⟩ | ⟨-, rfl⟩ <;> decide
    exact ⟨isTerminal_words_barkingDogs word (List.mem_cons_of_mem _ hmem), hwords word hmem⟩
  binary := by
    intro lhs left right hne h
    simp only [hasRule_barkingDogs, Rhs.binary.injEq, reduceCtorEq, and_false, or_false] at h
    rcases h with ⟨rfl, -⟩ | ⟨-, rfl, rfl⟩
    · exact absurd rfl hne
    · exact ⟨isTerminal_barkingDogs.2 (by decide), isTerminal_barkingDogs.2 (by decide)⟩

theorem grow_barkingDogs {symbol word : String}
    (h : barkingDogs.grammar.HasRule symbol (.unary word))
    (hterminal : barkingDogs.grammar.isTerminal word = true) (draws : Draws) :
    grow barkingDogs.grammar 1 symbol draws = (some (.node symbol [.leaf word]), draws.next.2) := by
  refine grow_of_rhs_eq h (fun _ h' => eq_of_hasRule_barkingDogs h' h) ?_
  rw [Rhs.symbols, sampleAll, grow_of_isTerminal hterminal]
  rfl

theorem expand_barkingDogs (draws : Draws) :
    barkingDogs.expand "ROOT" 0 draws =
      (some (.node "ROOT" [.node "S" [.node "NP" [.leaf "dogs"], .node "VP" [.leaf "bark"]],
        .leaf "."]), draws.next.2.next.2.next.2.next.2) := by
  have hroot := hasRule_barkingDogs.2 (.inl ⟨rfl, rfl⟩)
  have hs := hasRule_barkingDogs.2 (.inr (.inl ⟨rfl, rfl⟩))
  have hnp := hasRule_barkingDogs.2 (.inr (.inr (.inl ⟨rfl, rfl⟩)))
  have hvp := hasRule_barkingDogs.2 (.inr (.inr (.inr ⟨rfl, rfl⟩)))
  have hsentence : ∀ draws, grow barkingDogs.grammar 2 "S" draws =
      (some (.node "S" [.node "NP" [.leaf "dogs"], .node "VP" [.leaf "bark"]]),
        draws.next.2.next.2.next.2) := by
    intro draws
    refine grow_of_rhs_eq hs (fun _ h => eq_of_hasRule_barkingDogs h hs) ?_
    simp only [Rhs.symbols, sampleAll,
      grow_barkingDogs hnp (isTerminal_words_barkingDogs _ (by decide)),
      grow_barkingDogs hvp (isTerminal_words_barkingDogs _ (by decide))]
  refine grow_of_rhs_eq hroot (fun _ h => eq_of_hasRule_barkingDogs h hroot) ?_
  simp only [Rhs.symbols, sampleAll, hsentence,
    grow_of_isTerminal (isTerminal_words_barkingDogs "." (by decide))]

theorem sentences_barkingDogs (draws : Draws) :
    barkingDogs.sentences 1 1 draws = (some (.ok ["(ROOT (S (NP dogs) (VP bark)) .)"]),
      draws.next.2.next.2.next.2.next.2) := by
  have hcap : barkingDogs.maxAttempts.getD 1 = 1 := rfl
  have hstart : barkingDogs.start = "ROOT" := rfl
  have htrees : barkingDogs.trees 1 1 draws =
      (some (.ok [.node "ROOT" [.node "S" [.node "NP" [.leaf "dogs"], .node "VP" [.leaf "bark"]],
        .leaf "."]]), draws.next.2.next.2.next.2.next.2) := by
    rw [trees, hcap, collect, hstart, expand_barkingDogs]
    rfl
  rw [sentences, generate_eq_ok_iff.2 ⟨by decide, htrees⟩]
  rfl

/-- The one sentence comes back as it was. -/
theorem reparse_of_mem_sentences_barkingDogs :
    (barkingDogs.grammar.IsMarked ∧ barkingDogs.start = defaultStart ∧
      barkingDogs.sentences 1 1 (.ofList []) =
        (some (.ok ["(ROOT (S (NP dogs) (VP bark)) .)"]),
          (Draws.ofList []).next.2.next.2.next.2.next.2)) ∧
    RoundTrip.reparse barkingDogs.grammar "(ROOT (S (NP dogs) (VP bark)) .)" =
      .ok "(ROOT (S (NP dogs) (VP bark)) .)" := by
  have hsentences := sentences_barkingDogs (.ofList [])
  refine ⟨⟨isMarked_barkingDogs, rfl, hsentences⟩, ?_⟩
  obtain ⟨s, c, -, hs, hsymbol, -, -, hexact⟩ :=
    reparse_of_mem_sentences isMarked_barkingDogs rfl hsentences _ (List.mem_singleton_self _)
  refine (hexact ⟨s, ⟨hs, hsymbol, rfl⟩, ?_⟩).1
  rintro t ⟨ht, htsymbol, -⟩
  exact ht.eq_of_symbol_eq (fun _ _ _ => eq_of_hasRule_barkingDogs) hs (htsymbol.trans hsymbol.symm)

end Generator

end PhraseStructure
