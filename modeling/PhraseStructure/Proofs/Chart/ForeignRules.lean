import PhraseStructure.Proofs.Chart.Reconstruction
import PhraseStructure.Proofs.Generation.Reparsing

/-!
# Charts under foreign rules

A filled chart may be followed by the rules of another grammar, so that the symbols on the way down
have nothing to do with its entries. Its splits alone keep every step inside the chart: what comes
of it is a tree with the right leaves, a symbol that is not found over some span of the chart, or a
number that the other grammar has no rule for.
-/

namespace PhraseStructure.Chart

variable {g h : Grammar} {tokens : List String}

/-- The chart has an entry that was built by the rule with this number. -/
def StoresRule (chart : Chart) (index : Nat) : Prop :=
  ∃ start stop position, ∃ e ∈ (chart.cellAt start stop).entries, e.origin = .split index position

/-- What may come of following the chart of some tokens from a symbol over a span by the rules of
`h`, whatever they are. -/
inductive Outcome (g h : Grammar) (tokens : List String) (start stop : Nat) (symbol : String) :
    Except ParseError Tree → Prop where
  | tree {t : Tree} (symbol_eq : t.symbol = symbol) (isNode : t.isNode = true)
      (isChomsky : t.isChomsky = true) (leaves_eq : t.leaves = tokens.extract start (stop + 1)) :
      Outcome g h tokens start stop symbol (.ok t)
  | noParse {missing : String} {i j : Nat} (hstart : start ≤ i) (hle : i ≤ j) (hstop : j ≤ stop) :
      Outcome g h tokens start stop symbol (.error (.noParse missing i j))
  | noRule {index : Nat} (stored : (fill g tokens).StoresRule index)
      (size_le : h.rules.size ≤ index) :
      Outcome g h tokens start stop symbol (.error (.outOfRange (.rule index h.rules.size)))

/-! ## One step down -/

theorem Outcome.widen {start stop start' stop' : Nat} {symbol symbol' : String} {error : ParseError}
    (ho : Outcome g h tokens start stop symbol (.error error)) (hstart : start' ≤ start)
    (hstop : stop ≤ stop') : Outcome g h tokens start' stop' symbol' (.error error) := by
  cases ho with
  | noParse hi hle hj => exact .noParse (hstart.trans hi) hle (hj.trans hstop)
  | noRule stored size_le => exact .noRule stored size_le

theorem Outcome.node {start position stop : Nat} {left right symbol : String} {t u : Tree}
    (hstart : start ≤ position) (hstop : position < stop)
    (ht : Outcome g h tokens start position left (.ok t))
    (hu : Outcome g h tokens (position + 1) stop right (.ok u)) :
    Outcome g h tokens start stop symbol (.ok (.node symbol [t, u])) := by
  cases ht with
  | tree _ hnode hshape hleaves =>
    cases hu with
    | tree _ hnode' hshape' hleaves' =>
      refine .tree rfl rfl ?_ ?_
      · exact Tree.isChomsky_node_iff.2 (.inr ⟨t, u, rfl, hnode, hnode', hshape, hshape'⟩)
      · rw [← extract_append_extract hstart hstop, ← hleaves, ← hleaves']
        simp [Tree.leaves, Tree.leavesAll]

/-! ## All the way down -/

/-- Following a filled chart from an entry or a missing one never leaves the chart. -/
theorem outcome_treeOf_fill (g h : Grammar) {start stop : Nat} (hle : start ≤ stop)
    (hlt : stop < tokens.length) (symbol : String) :
    Outcome g h tokens start stop symbol ((fill g tokens).treeOf h start stop symbol) := by
  -- by induction on the width: the splits of the chart narrow the span, whatever the rules say
  induction hwidth : stop - start using Nat.strong_induction_on
    generalizing start stop symbol with
  | _ width ih =>
    have hspan := (hasSpan_fill (g := g)).2 ⟨hle, hlt⟩
    cases he : ((fill g tokens).cellAt start stop).get? symbol with
    | none =>
      rw [treeOf_of_none hspan he]
      exact .noParse le_rfl hle le_rfl
    | some e =>
      rcases origin_of_get?_fill hle hlt he with
        ⟨rfl, horigin⟩ | ⟨index, position, horigin, hstart, hstop⟩
      · rw [treeOf_of_word hspan he horigin (word_cellAt_fill hlt)]
        exact .tree rfl rfl (Tree.isChomsky_node_iff.2 (.inl ⟨_, rfl⟩)) (extract_one hlt).symm
      · rw [treeOf_eq_of_split hspan he horigin hstart hstop, Grammar.rule]
        cases hrule : h.rules[index]? with
        | none =>
          exact .noRule ⟨start, stop, position, e, Cell.mem_of_get? he, horigin⟩
            (Array.getElem?_eq_none_iff.1 hrule)
        | some rule =>
          dsimp only
          cases rule.rhs with
          | unary word => exact .noParse le_rfl hle le_rfl
          | binary left right =>
            have hleft := ih _ (by omega) hstart (hstop.trans hlt) left rfl
            have hright := ih _ (by omega) hstop hlt right rfl
            dsimp only
            cases hleftTree : (fill g tokens).treeOf h start position left with
            | error e => exact (hleftTree ▸ hleft).widen le_rfl hstop.le
            | ok leftTree =>
              dsimp only
              cases hrightTree : (fill g tokens).treeOf h (position + 1) stop right with
              | error e => exact (hrightTree ▸ hright).widen (by omega) le_rfl
              | ok rightTree =>
                exact .node hstart hstop (hleftTree ▸ hleft) (hrightTree ▸ hright)

theorem bestTree_blank (size : Nat) (g : Grammar) (root : String) :
    (blank size).bestTree g root = .error (.noParse root 0 (size - 1)) := by
  cases size with
  | zero => rfl
  | succ size =>
    refine treeOf_of_none ⟨Nat.zero_le _, Nat.lt_succ_self size⟩ ?_
    rw [cellAt_blank]
    rfl

/-- Following a filled chart by the rules of any grammar ends in a tree from the root whose leaves
are the tokens, in a missing symbol over a span of the chart, or at the number of a rule that filled
the chart and is not in the other grammar. All splits lie within their spans, so each step is to a
narrower span of the chart. In a blank chart it is the root that is missing, if the chart can be
made at all. -/
theorem bestTree_fill_foreign (g h : Grammar) (tokens : List String) (root : String) :
    ((∃ t, (fill g tokens).bestTree h root = .ok t ∧ t.symbol = root ∧ t.isNode = true ∧
        t.isChomsky = true ∧ t.leaves = tokens) ∨
      (∃ symbol start stop,
        (fill g tokens).bestTree h root = .error (.noParse symbol start stop) ∧
          (start ≤ stop ∧ stop < tokens.length ∨
            tokens = [] ∧ symbol = root ∧ start = 0 ∧ stop = 0)) ∨
      ∃ index, (fill g tokens).bestTree h root =
          .error (.outOfRange (.rule index h.rules.size)) ∧
        (fill g tokens).StoresRule index ∧ h.rules.size ≤ index) ∧
    (∀ start stop, ∀ e ∈ ((fill g tokens).cellAt start stop).entries, ∀ index position,
      e.origin = .split index position → start ≤ position ∧ position < stop) ∧
    (∀ size, Fits size → ∃ chart, ofSize size = .ok chart ∧ chart.size = size ∧
      chart.bestTree h root = .error (.noParse root 0 (size - 1))) ∧
    ∀ size, ¬ Fits size → size * (size + 1) < UInt64.size → ofSize size = .error .list := by
  refine ⟨?_, ?_, ?_, fun _ => ofSize_of_not_fits⟩
  · rcases eq_or_ne tokens [] with rfl | hne
    · exact .inr (.inl ⟨root, 0, 0, rfl, .inr ⟨rfl, rfl, rfl, rfl⟩⟩)
    have hlt := Nat.sub_one_lt_of_lt (List.length_pos_iff.2 hne)
    have houtcome := outcome_treeOf_fill g h (Nat.zero_le _) hlt root
    rw [bestTree, isEmpty, size_fill, if_neg (by simpa using hne)]
    cases hresult : (fill g tokens).treeOf h 0 (tokens.length - 1) root with
    | ok t =>
      cases hresult ▸ houtcome with
      | tree hsymbol hnode hshape hleaves =>
        rw [extract_all hne] at hleaves
        exact .inl ⟨t, rfl, hsymbol, hnode, hshape, hleaves⟩
    | error e =>
      cases hresult ▸ houtcome with
      | noParse _ hle hstop => exact .inr (.inl ⟨_, _, _, rfl, .inl ⟨hle, hstop.trans_lt hlt⟩⟩)
      | noRule stored size_le => exact .inr (.inr ⟨_, rfl, stored, size_le⟩)
  · intro start stop e he index position horigin
    by_cases hspan : (fill g tokens).HasSpan start stop
    · obtain ⟨hle, hlt⟩ := hasSpan_fill.1 hspan
      rcases origin_of_get?_fill hle hlt (get?_fill_of_mem hle hlt he) with
        ⟨-, hword⟩ | ⟨_, _, hsplit, hstart, hstop⟩
      · rw [hword] at horigin
        cases horigin
      · rw [hsplit] at horigin
        cases horigin
        exact ⟨hstart, hstop⟩
    · rw [cellAt_of_not_hasSpan hspan] at he
      cases he
  · intro size hfits
    exact ⟨blank size, ofSize_of_fits hfits, rfl, bestTree_blank size h root⟩

/-- In a blank chart of three tokens the root is missing over all of them. -/
theorem bestTree_fill_foreign_three :
    Fits 3 ∧ ∃ chart, ofSize 3 = .ok chart ∧ chart.size = 3 ∧
      chart.bestTree (.ofRules []) "S" = .error (.noParse "S" 0 2) :=
  ⟨by decide, (bestTree_fill_foreign (.ofRules []) (.ofRules []) [] "S").2.2.1 3 (by decide)⟩

/-- For a thousand million tokens there is no blank chart, so that no symbol is missing in it. -/
theorem not_forall_bestTree_ofSize :
    ¬ ∀ size (g : Grammar) root, size < UInt64.size → ∃ chart, ofSize size = .ok chart ∧
      chart.bestTree g root = .error (.noParse root 0 (size - 1)) := by
  intro h
  obtain ⟨chart, hchart, -⟩ := h 1000000000 (.ofRules []) "S" (by decide)
  rw [ofSize_of_not_fits (by decide) (by decide)] at hchart
  cases hchart

end PhraseStructure.Chart
