import PhraseStructure.Proofs.RoundTrip.Sentences

/-!
# Leaves of letters

A written tree may have nodes with any number of children, and leaves that are names, marks or any
other text without letters. If its labels are nonterminals made of letters, its words are the names
among its leaves.
-/

namespace PhraseStructure.RoundTrip

variable {g : Grammar}

/-- What a leaf adds to the words is the leaf itself if it is a name, and nothing otherwise. -/
theorem sentenceTokens_leaf {word : String}
    (h : (IsName word ∧ g.isTerminal word = true) ∨ ∀ c ∈ word.toList, c.isAlpha = false) :
    sentenceTokens g word = [word].filter (IsName ·) := by
  rcases h with ⟨hname, hterminal⟩ | hnone
  · rw [sentenceTokens_of_isName hname, if_pos hterminal, List.filter_singleton]
    simp [hname]
  · have hname : ¬ IsName word := by
      rintro ⟨hne, hletters⟩
      obtain ⟨c, hc⟩ := List.exists_mem_of_ne_nil _ (mt String.toList_eq_nil_iff.1 hne)
      exact absurd (hletters c hc) (by simp [hnone c hc])
    rw [sentenceTokens_eq_nil hnone, List.filter_singleton]
    simp [hname]

/-- The words of a written tree are the names among its leaves, in order, if its labels are
nonterminals made of letters and each of its leaves is a terminal that is a name, or has no letters
at all. -/
theorem sentenceTokens_text_eq_filter_leaves {t : Tree}
    (hlabels : ∀ node ∈ t.nodes,
      g.isTerminal node.1 = false ∧ ∀ c ∈ node.1.toList, c.isAlpha = true)
    (hleaves : ∀ word ∈ t.leaves,
      (IsName word ∧ g.isTerminal word = true) ∨ ∀ c ∈ word.toList, c.isAlpha = false) :
    sentenceTokens g t.text = t.leaves.filter (IsName ·) := by
  have hnone : ∀ node ∈ t.nodes, sentenceTokens g node.1 = [] := by
    intro node hnode
    obtain ⟨hnonterminal, hletters⟩ := hlabels node hnode
    exact sentenceTokens_of_nonterminal hnonterminal hletters
  have hword : ∀ word ∈ t.leaves, sentenceTokens g word = [word].filter (IsName ·) :=
    fun word hmem => sentenceTokens_leaf (hleaves word hmem)
  rw [sentenceTokens_text t hnone, List.flatMap_congr hword, ← List.filter_flatMap,
    List.flatMap_singleton']

/-- A node without children, a leaf with spaces and brackets, and three children in a row. -/
def hoarseDogs : Tree :=
  .node "ROOT" [.node "S" [.node "NP" [.leaf "dogs", .leaf "(2) ["], .node "NP" [],
    .node "VP" [.node "VP" [.leaf "bark"]]], .leaf "."]

/-- The two words of a tree that is no derivation. -/
theorem sentenceTokens_text_hoarseDogs :
    ((∀ node ∈ hoarseDogs.nodes, Generator.barkingDogs.grammar.isTerminal node.1 = false ∧
        ∀ c ∈ node.1.toList, c.isAlpha = true) ∧
      ∀ word ∈ hoarseDogs.leaves,
        (IsName word ∧ Generator.barkingDogs.grammar.isTerminal word = true) ∨
          ∀ c ∈ word.toList, c.isAlpha = false) ∧
    sentenceTokens Generator.barkingDogs.grammar
      "(ROOT (S (NP dogs (2) [) (NP) (VP (VP bark))) .)" = ["dogs", "bark"] := by
  have hlabels : ∀ node ∈ hoarseDogs.nodes,
      Generator.barkingDogs.grammar.isTerminal node.1 = false ∧
        ∀ c ∈ node.1.toList, c.isAlpha = true := by
    simp [Generator.isTerminal_barkingDogs, hoarseDogs, Tree.nodes, Tree.nodesAll]
  have hwords : ∀ word ∈ hoarseDogs.leaves,
      (IsName word ∧ word ∈ [".", "dogs", "bark"]) ∨ ∀ c ∈ word.toList, c.isAlpha = false := by
    simp [hoarseDogs, Tree.leaves, Tree.leavesAll, IsName]
  have hleaves : ∀ word ∈ hoarseDogs.leaves,
      (IsName word ∧ Generator.barkingDogs.grammar.isTerminal word = true) ∨
        ∀ c ∈ word.toList, c.isAlpha = false :=
    fun word hmem => (hwords word hmem).imp_left
      (And.imp_right (Generator.isTerminal_words_barkingDogs word))
  have htext : hoarseDogs.text = "(ROOT (S (NP dogs (2) [) (NP) (VP (VP bark))) .)" := by decide
  have hnames : hoarseDogs.leaves.filter (IsName ·) = ["dogs", "bark"] := by
    simp [hoarseDogs, Tree.leaves, Tree.leavesAll, IsName]
  rw [← htext, ← hnames]
  exact ⟨⟨hlabels, hleaves⟩, sentenceTokens_text_eq_filter_leaves hlabels hleaves⟩

end PhraseStructure.RoundTrip
