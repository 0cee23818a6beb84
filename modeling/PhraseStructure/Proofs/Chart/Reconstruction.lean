import PhraseStructure.Chart.BestTree
import PhraseStructure.Proofs.Chart.Recognition

/-!
# Reconstruction

Along the origins of a filled chart every entry leads to a parse tree of its span, whose score is
the probability of the entry. So there is a best tree exactly if the root derives the tokens, and
without one the error names the root and the span of all tokens.
-/

namespace PhraseStructure.Chart

/-! ## One step down -/

section

variable {chart : Chart} {g : Grammar} {start stop : Nat} {symbol : String}

theorem treeOf_of_none (hspan : chart.HasSpan start stop)
    (h : (chart.cellAt start stop).get? symbol = none) :
    chart.treeOf g start stop symbol = .error (.noParse symbol start stop) := by
  rw [treeOf, cell, if_pos hspan]
  dsimp only
  rw [h]

theorem treeOf_of_word (hspan : chart.HasSpan start stop) {e : Entry} {word : String}
    (h : (chart.cellAt start stop).get? symbol = some e) (horigin : e.origin = .word)
    (hword : (chart.cellAt start stop).word = some word) :
    chart.treeOf g start stop symbol = .ok (.node symbol [.leaf word]) := by
  rw [treeOf, cell, if_pos hspan]
  dsimp only
  rw [h]
  dsimp only
  rw [horigin]
  dsimp only
  rw [hword]

/-- One step down along a split within the span: the rule is looked up, and its symbols are followed
on the two sides. -/
theorem treeOf_eq_of_split (hspan : chart.HasSpan start stop) {e : Entry} {index position : Nat}
    (h : (chart.cellAt start stop).get? symbol = some e)
    (horigin : e.origin = .split index position) (hstart : start ≤ position)
    (hstop : position < stop) :
    chart.treeOf g start stop symbol =
      match g.rule index with
      | .error access => .error (.outOfRange access)
      | .ok rule =>
        match rule.rhs with
        | .unary _ => .error (.noParse symbol start stop)
        | .binary left right =>
          match chart.treeOf g start position left with
          | .error e => .error e
          | .ok leftTree =>
            match chart.treeOf g (position + 1) stop right with
            | .error e => .error e
            | .ok rightTree => .ok (.node symbol [leftTree, rightTree]) := by
  rw [treeOf, cell, if_pos hspan]
  dsimp only
  rw [h]
  dsimp only
  rw [horigin]
  dsimp only
  cases g.rule index with
  | error access => rfl
  | ok rule =>
    dsimp only
    cases rule.rhs with
    | unary word => rfl
    | binary left right => exact dif_pos ⟨hstart, hstop⟩

theorem treeOf_of_split (hspan : chart.HasSpan start stop) {e : Entry} {index position : Nat}
    {rule : Rule} {left right : String} {leftTree rightTree : Tree}
    (h : (chart.cellAt start stop).get? symbol = some e)
    (horigin : e.origin = .split index position) (hrule : g.rule index = .ok rule)
    (hrhs : rule.rhs = .binary left right) (hstart : start ≤ position) (hstop : position < stop)
    (hleft : chart.treeOf g start position left = .ok leftTree)
    (hright : chart.treeOf g (position + 1) stop right = .ok rightTree) :
    chart.treeOf g start stop symbol = .ok (.node symbol [leftTree, rightTree]) := by
  rw [treeOf_eq_of_split hspan h horigin hstart hstop, hrule]
  dsimp only
  rw [hrhs]
  dsimp only
  rw [hleft]
  dsimp only
  rw [hright]

end

/-! ## The tree of an entry -/

variable {g : Grammar} {tokens : List String}

/-- Every entry of a filled chart leads to a parse tree of its span with its probability as
score. -/
theorem exists_treeOf_fill {start stop : Nat} (hle : start ≤ stop) (hlt : stop < tokens.length)
    {symbol : String} {e : Entry} (h : ((fill g tokens).cellAt start stop).get? symbol = some e) :
    ∃ t, (fill g tokens).treeOf g start stop symbol = .ok t ∧ t.IsParse g ∧ t.symbol = symbol ∧
      t.leaves = tokens.extract start (stop + 1) ∧ t.score g = e.prob := by
  -- by induction on the width, as the trees below come from narrower spans
  induction hwidth : stop - start using Nat.strong_induction_on
    generalizing start stop symbol e with
  | _ width ih =>
    obtain rfl := Cell.symbol_of_get? h
    have hspan := (hasSpan_fill (g := g)).2 ⟨hle, hlt⟩
    cases justifies_of_get? hle hlt h with
    | word hi rule =>
      exact ⟨_, treeOf_of_word hspan h rfl (word_cellAt_fill hi), .word rule, rfl,
        (extract_one hi).symm, rfl⟩
    | split hstart hstop hrule hrhs hleft hright =>
      obtain ⟨t, ht, hparse, hsymbol, hleaves, hscore⟩ :=
        ih _ (by omega) hstart (hstop.trans hlt) hleft rfl
      obtain ⟨u, hu, hparse', hsymbol', hleaves', hscore'⟩ := ih _ (by omega) hstop hlt hright rfl
      have hhas := Grammar.hasRule_of_rule hrule
      rw [hrhs, ← hsymbol, ← hsymbol'] at hhas
      refine ⟨_, treeOf_of_split hspan h rfl hrule hrhs hstart hstop ht hu,
        .split hhas hparse hparse', rfl, ?_, ?_⟩
      · rw [← extract_append_extract hstart hstop, ← hleaves, ← hleaves']
        simp [Tree.leaves, Tree.leavesAll]
      · rw [Tree.score_split, hsymbol, hsymbol', hscore, hscore', hrhs]

/-! ## The tree of a sentence -/

theorem bestTree_fill_nil (g : Grammar) (root : String) :
    (fill g []).bestTree g root = .error (.noParse root 0 0) := rfl

theorem bestTree_fill_of_ne_nil (h : tokens ≠ []) (root : String) :
    (fill g tokens).bestTree g root = (fill g tokens).treeOf g 0 (tokens.length - 1) root := by
  rw [bestTree, isEmpty, size_fill, if_neg]
  simpa using h

theorem exists_bestTree_fill {root : String} (h : g.Derives root tokens) :
    ∃ t e, (fill g tokens).bestTree g root = .ok t ∧ t.IsParse g ∧ t.symbol = root ∧
      t.leaves = tokens ∧ ((fill g tokens).cellAt 0 (tokens.length - 1)).get? root = some e ∧
      t.score g = e.prob := by
  have hne := h.ne_nil
  have hlt := Nat.sub_one_lt_of_lt (List.length_pos_iff.2 hne)
  obtain ⟨e, he⟩ := exists_get?_fill_of_derives h (Nat.zero_le _) hlt (extract_all hne).symm
  obtain ⟨t, ht, hparse, hsymbol, hleaves, hscore⟩ := exists_treeOf_fill (Nat.zero_le _) hlt he
  rw [extract_all hne] at hleaves
  rw [bestTree_fill_of_ne_nil hne]
  exact ⟨t, e, ht, hparse, hsymbol, hleaves, he, hscore⟩

/-- Without a derivation the error names the root and the span of all tokens. -/
theorem bestTree_fill_of_not_derives {root : String} (h : ¬ g.Derives root tokens) :
    (fill g tokens).bestTree g root = .error (.noParse root 0 (tokens.length - 1)) := by
  rcases eq_or_ne tokens [] with rfl | hne
  · exact bestTree_fill_nil g root
  have hlt := Nat.sub_one_lt_of_lt (List.length_pos_iff.2 hne)
  rw [bestTree_fill_of_ne_nil hne]
  refine treeOf_of_none (hasSpan_fill.2 ⟨Nat.zero_le _, hlt⟩) ?_
  rw [Option.eq_none_iff_forall_ne_some]
  intro e he
  have hderives := derives_of_get?_fill (Nat.zero_le _) hlt he
  rw [extract_all hne] at hderives
  exact h hderives

theorem isParse_of_bestTree_fill {root : String} {t : Tree}
    (h : (fill g tokens).bestTree g root = .ok t) :
    t.IsParse g ∧ t.symbol = root ∧ t.leaves = tokens := by
  by_cases hderives : g.Derives root tokens
  · obtain ⟨t', -, ht, hparse, hsymbol, hleaves, -⟩ := exists_bestTree_fill hderives
    obtain rfl := Except.ok.inj (ht.symm.trans h)
    exact ⟨hparse, hsymbol, hleaves⟩
  · rw [bestTree_fill_of_not_derives hderives] at h
    cases h

theorem bestTree_fill_singleton {root word : String} (h : g.HasRule root (.unary word)) :
    (fill g [word]).bestTree g root = .ok (.node root [.leaf word]) := by
  obtain ⟨t, -, ht, hparse, hsymbol, hleaves, -⟩ := exists_bestTree_fill (.word h)
  rw [ht]
  cases hparse with
  | word rule =>
    obtain rfl := hsymbol
    obtain rfl := (List.cons.inj hleaves).1
    rfl
  | split rule hleft hright =>
    have hlength := congrArg List.length hleaves
    have hleft' := List.length_pos_iff.2 hleft.derives.ne_nil
    have hright' := List.length_pos_iff.2 hright.derives.ne_nil
    simp only [Tree.leaves, Tree.leavesAll, List.append_nil, List.length_append,
      List.length_singleton] at hlength
    omega

/-- No entry of a filled chart leads to an error. -/
theorem treeOf_fill_of_get? {start stop : Nat} {symbol : String} {e : Entry}
    (h : ((fill g tokens).cellAt start stop).get? symbol = some e) :
    ∃ t, (fill g tokens).treeOf g start stop symbol = .ok t := by
  by_cases hspan : (fill g tokens).HasSpan start stop
  · obtain ⟨hle, hlt⟩ := hasSpan_fill.1 hspan
    obtain ⟨t, ht, -⟩ := exists_treeOf_fill hle hlt h
    exact ⟨t, ht⟩
  · rw [cellAt_of_not_hasSpan hspan] at h
    cases h

/-- The best tree of a sentence is a parse tree of its tokens if the root derives them, and else
the error is about the root and all tokens. Wherever the chart has an entry it has a tree, so no
origin points to a rule, a word or an entry that is not there. -/
theorem bestTree_fill_ok_or_noParse (g : Grammar) (tokens : List String) (root : String) :
    (g.Derives root tokens ∧ (∃ t, (fill g tokens).bestTree g root = .ok t ∧ t.IsParse g ∧
        t.symbol = root ∧ t.leaves = tokens) ∨
      ¬ g.Derives root tokens ∧
        (fill g tokens).bestTree g root = .error (.noParse root 0 (tokens.length - 1))) ∧
      ∀ start stop symbol, ((fill g tokens).cellAt start stop).get? symbol = none ∨
        ∃ t, (fill g tokens).treeOf g start stop symbol = .ok t := by
  constructor
  · by_cases h : g.Derives root tokens
    · obtain ⟨t, -, ht, hparse, hsymbol, hleaves, -⟩ := exists_bestTree_fill h
      exact .inl ⟨h, t, ht, hparse, hsymbol, hleaves⟩
    · exact .inr ⟨h, bestTree_fill_of_not_derives h⟩
  · intro start stop symbol
    cases hentry : ((fill g tokens).cellAt start stop).get? symbol with
    | none => exact .inl rfl
    | some e => exact .inr (treeOf_fill_of_get? hentry)

end PhraseStructure.Chart
