import PhraseStructure.Proofs.RoundTrip.Sentences

/-!
# Lines that came back

What comes back from a line is a tree of its words in brackets with its mark, whatever else the line
was made of. The words and the mark of that are the same again, so it comes back as it is.
-/

namespace PhraseStructure

open Generator (defaultStart)
open Grammar (parseRoot)

/-- The words of a written parse tree of names are its leaves, if nonterminals are made of
letters. -/
theorem Tree.IsParse.sentenceTokens_text {g : Grammar}
    (hletters : ∀ symbol, g.isTerminal symbol = false → ∀ c ∈ symbol.toList, c.isAlpha = true)
    {t : Tree} (h : t.IsParse g)
    (hleaves : ∀ word ∈ t.leaves, IsName word ∧ g.isTerminal word = true) :
    RoundTrip.sentenceTokens g t.text = t.leaves := by
  have hderivation := (h.isDerivation fun word hword => (hleaves word hword).2).1
  have hnone : ∀ node ∈ t.nodes, RoundTrip.sentenceTokens g node.1 = [] := by
    intro node hnode
    have hnonterminal := hderivation.isTerminal_label node hnode
    exact RoundTrip.sentenceTokens_of_nonterminal hnonterminal (hletters node.1 hnonterminal)
  have hword : ∀ word ∈ t.leaves, RoundTrip.sentenceTokens g word = [word] := by
    intro word hmem
    obtain ⟨hname, hterminal⟩ := hleaves word hmem
    rw [RoundTrip.sentenceTokens_of_isName hname, if_pos hterminal]
  rw [RoundTrip.sentenceTokens_text t hnone, List.flatMap_congr hword, List.flatMap_singleton']

namespace RoundTrip

variable {g : Grammar} {line again : String}

/-- What comes back from a line is the best tree of its words in brackets, with its mark. -/
theorem exists_tree_of_reparse (h : reparse g line = .ok again) :
    ∃ t : Tree, g.parse (sentenceTokens g line) = .ok t ∧
      again = wrap t (sentenceMark line) := by
  unfold reparse at h
  split at h
  · cases h
  · next t hparse =>
    cases h
    exact ⟨t, hparse, rfl⟩

/-- What came back from a line with a mark that is no letter has the words and the mark of the line.
So it comes back from itself, and counts as correct. -/
theorem reparse_of_reparse (hstart : g.isTerminal defaultStart = false)
    (hletters : ∀ symbol, g.isTerminal symbol = false → ∀ c ∈ symbol.toList, c.isAlpha = true)
    (h : reparse g line = .ok again) {mark : Char} (hmark : sentenceMark line = some mark)
    (halpha : mark.isAlpha = false) :
    sentenceTokens g again = sentenceTokens g line ∧ sentenceMark again = sentenceMark line ∧
      reparse g again = .ok again ∧
      ∀ tally : RoundTrip, tally.record g again = ⟨tally.total + 1, tally.correct + 1⟩ := by
  obtain ⟨t, hparse, rfl⟩ := exists_tree_of_reparse h
  obtain ⟨htree, -, hleaves⟩ := Chart.isParse_of_bestTree_fill hparse
  have htokens : sentenceTokens g (wrap t (sentenceMark line)) = sentenceTokens g line := by
    rw [hmark, wrap_eq_text, sentenceTokens_node_mark hstart t halpha, ← hleaves]
    apply htree.sentenceTokens_text hletters
    rw [hleaves]
    exact fun _ hword => isName_of_mem_sentenceTokens hword
  have hsame : sentenceMark (wrap t (sentenceMark line)) = sentenceMark line := by
    rw [hmark, sentenceMark_wrap]
  have hagain : reparse g (wrap t (sentenceMark line)) = .ok (wrap t (sentenceMark line)) := by
    rw [reparse, htokens, hparse, hsame]
  exact ⟨htokens, hsame, hagain, record_of_reparse hagain⟩

/-! ## A line out of order -/

theorem parse_barkingDogs :
    Generator.barkingDogs.grammar.parse ["dogs", "bark"] =
      .ok (.node "S" [.node "NP" [.leaf "dogs"], .node "VP" [.leaf "bark"]]) := by
  have hs := Generator.hasRule_barkingDogs.2 (.inr (.inl ⟨rfl, rfl⟩))
  have hnp := Generator.hasRule_barkingDogs.2 (.inr (.inr (.inl ⟨rfl, rfl⟩)))
  have hvp := Generator.hasRule_barkingDogs.2 (.inr (.inr (.inr ⟨rfl, rfl⟩)))
  have hterminal : ∀ word ∈ ["dogs", "bark"],
      Generator.barkingDogs.grammar.isTerminal word = true := by
    intro word hword
    exact Generator.isTerminal_words_barkingDogs word (List.mem_cons_of_mem _ hword)
  have htree : Tree.IsParse Generator.barkingDogs.grammar
      (.node "S" [.node "NP" [.leaf "dogs"], .node "VP" [.leaf "bark"]]) :=
    .split hs (.word hnp) (.word hvp)
  obtain ⟨t, -, hbest, ht, hsymbol, hleaves, -⟩ := Chart.exists_bestTree_fill htree.derives
  have heq := (ht.isDerivation (by rw [hleaves]; exact hterminal)).1.eq_of_symbol_eq
    (fun _ _ _ => Generator.eq_of_hasRule_barkingDogs) (htree.isDerivation hterminal).1 hsymbol
  rw [← heq]
  exact hbest

theorem sentenceTokens_spacedDogs :
    sentenceTokens Generator.barkingDogs.grammar "dogs,  [S bark] ( )" = ["dogs", "bark"] := by
  have hwords : ((Text.pieces ' ' "dogs,  [S bark] ( )".toList).map fun piece =>
      String.ofList (piece.filter Char.isAlpha)) = ["dogs", "", "S", "bark", "", ""] := by
    decide
  have hdogs := Generator.isTerminal_words_barkingDogs "dogs" (by decide)
  have hbark := Generator.isTerminal_words_barkingDogs "bark" (by decide)
  have hs := Generator.isTerminal_barkingDogs.2 (show "S" ∈ ["ROOT", "S", "NP", "VP"] by decide)
  rw [sentenceTokens, hwords]
  simp [hdogs, hbark, hs, sentenceMarks]

/-- A line with a space as its mark, and what comes back from it with the same mark. -/
theorem reparse_of_reparse_spacedDogs :
    (Generator.barkingDogs.grammar.isTerminal defaultStart = false ∧
      (∀ symbol, Generator.barkingDogs.grammar.isTerminal symbol = false →
        ∀ c ∈ symbol.toList, c.isAlpha = true) ∧
      reparse Generator.barkingDogs.grammar "dogs,  [S bark] ( )" =
        .ok "(ROOT (S (NP dogs) (VP bark))  )" ∧
      sentenceMark "dogs,  [S bark] ( )" = some ' ') ∧
    reparse Generator.barkingDogs.grammar "(ROOT (S (NP dogs) (VP bark))  )" =
      .ok "(ROOT (S (NP dogs) (VP bark))  )" := by
  have hstart := Generator.isTerminal_barkingDogs.2
    (show defaultStart ∈ ["ROOT", "S", "NP", "VP"] by decide)
  have hletters : ∀ symbol, Generator.barkingDogs.grammar.isTerminal symbol = false →
      ∀ c ∈ symbol.toList, c.isAlpha = true :=
    fun symbol h => (Generator.isMarked_barkingDogs.isName symbol h).2
  have hmark : sentenceMark "dogs,  [S bark] ( )" = some ' ' := by decide
  have hreparse : reparse Generator.barkingDogs.grammar "dogs,  [S bark] ( )" =
      .ok "(ROOT (S (NP dogs) (VP bark))  )" := by
    rw [reparse, sentenceTokens_spacedDogs, parse_barkingDogs, hmark]
    rfl
  exact ⟨⟨hstart, hletters, hreparse, hmark⟩,
    (reparse_of_reparse hstart hletters hreparse hmark (by decide)).2.2.1⟩

end RoundTrip

end PhraseStructure
