import Mathlib.Data.List.Forall2
import Mathlib.Tactic.Choose
import PhraseStructure.Proofs.Generation.Derivations

/-!
# Every derivation can be sampled

An expansion makes its choices in the order of the tree's nodes, each of them by the next value of
the source. So a derivation within the bound on its height is sampled as soon as the source goes on
with values that choose the rules of its nodes one after another.
-/

namespace PhraseStructure

/-- The value makes the choice of a node: of the rules of its label it draws one with the symbols of
its children on the right-hand side. -/
def Grammar.Chooses (g : Grammar) (value : UInt64) (node : String × List Tree) : Prop :=
  ∃ chosen, (Rule.choose (g.rulesFor node.1) (.ofList [value])).1 = some chosen ∧
    chosen.rule.rhs.symbols = node.2.map Tree.symbol

theorem Grammar.chooses_of_getElem? {g : Grammar} {value : UInt64} {node : String × List Tree}
    {rule : Rule}
    (h : (g.rulesFor node.1)[Rule.drawnPosition (g.rulesFor node.1) value]? = some rule)
    (hsymbols : rule.rhs.symbols = node.2.map Tree.symbol) : g.Chooses value node := by
  have hnext : (Draws.ofList [value]).next.1 = value := rfl
  rw [← hnext] at h
  exact ⟨_, congrArg Prod.fst (Rule.choose_of_getElem? h), hsymbols⟩

theorem Rule.fst_choose_eq (rules : List Rule) (draws : Draws) :
    (Rule.choose rules draws).1 = (Rule.choose rules (.ofList [draws.next.1])).1 := by
  unfold Rule.choose
  split <;> rfl

theorem Grammar.Chooses.exists_choose {g : Grammar} {draws : Draws} {node : String × List Tree}
    (h : g.Chooses draws.next.1 node) :
    ∃ chosen, Rule.choose (g.rulesFor node.1) draws = (some chosen, draws.next.2) ∧
      chosen.rule.rhs.symbols = node.2.map Tree.symbol := by
  obtain ⟨chosen, hchosen, hsymbols⟩ := h
  rw [← Rule.fst_choose_eq] at hchosen
  have hchoose : Rule.choose (g.rulesFor node.1) draws =
      (some chosen, (Rule.choose (g.rulesFor node.1) draws).2) := Prod.ext hchosen rfl
  rw [Rule.eq_next_of_choose hchoose] at hchoose
  exact ⟨chosen, hchoose, hsymbols⟩

namespace Generator

variable {g : Grammar} {draws : Draws}

/-- The next values choose some nodes and then others if the first of them choose the former and
those that come after these the latter. -/
theorem forall₂_upcoming_append (before after : List (String × List Tree))
    (h : List.Forall₂ g.Chooses (draws.upcoming (before ++ after).length) (before ++ after)) :
    List.Forall₂ g.Chooses (draws.upcoming before.length) before ∧
      List.Forall₂ g.Chooses ((draws.advance before.length).upcoming after.length) after := by
  rw [List.length_append, Draws.upcoming_add] at h
  have hlength := draws.length_upcoming before.length
  constructor
  · have hbefore := List.forall₂_take_append _ _ _ h
    rwa [List.take_left' hlength] at hbefore
  · have hafter := List.forall₂_drop_append _ _ _ h
    rwa [List.drop_left' hlength] at hafter

theorem sampleAll_of_chooses {sample : String → Draws → Option Tree × Draws} {ts : List Tree}
    (hsample : ∀ t ∈ ts, ∀ draws : Draws,
      List.Forall₂ g.Chooses (draws.upcoming t.nodes.length) t.nodes →
        sample t.symbol draws = (some t, draws.advance t.nodes.length))
    (h : List.Forall₂ g.Chooses (draws.upcoming (Tree.nodesAll ts).length) (Tree.nodesAll ts)) :
    sampleAll sample (ts.map Tree.symbol) draws =
      (some ts, draws.advance (Tree.nodesAll ts).length) := by
  induction ts generalizing draws with
  | nil => rfl
  | cons t ts ih =>
    obtain ⟨hsample, hrest⟩ := List.forall_mem_cons.1 hsample
    obtain ⟨hfirst, hafter⟩ := forall₂_upcoming_append t.nodes _ h
    refine sampleAll_cons_eq_some.2 ⟨t, ts, _, hsample draws hfirst, ?_, rfl⟩
    rw [ih hrest hafter, Draws.advance_advance, Tree.nodesAll, List.length_append]

/-- A derivation is sampled from values that choose its nodes, if it may be as high as it is. -/
theorem grow_of_chooses {t : Tree} (ht : t.IsDerivation g) {height : Nat}
    (hheight : t.height ≤ height)
    (h : List.Forall₂ g.Chooses (draws.upcoming t.nodes.length) t.nodes) :
    grow g height t.symbol draws = (some t, draws.advance t.nodes.length) := by
  -- by induction on the derivation: its children may be one lower, and their nodes follow its root
  induction ht generalizing height draws with
  | leaf hterminal => exact grow_of_isTerminal hterminal height draws
  | @node label children _ hrule _ _ ih =>
    cases height with
    | zero =>
      rw [Tree.height] at hheight
      omega
    | succ height =>
      have hchildren : Tree.heightAll children ≤ height := by
        rw [Tree.height] at hheight
        omega
      obtain ⟨hroot, hbelow⟩ := forall₂_upcoming_append [(label, children)] _ h
      obtain ⟨chosen, hchoose, hchosen⟩ := (List.forall₂_cons.1 hroot).1.exists_choose
      have hsample : sampleAll (grow g height) chosen.rule.rhs.symbols draws.next.2 =
          (some children, (draws.advance 1).advance (Tree.nodesAll children).length) := by
        rw [hchosen]
        refine sampleAll_of_chooses ?_ hbelow
        intro child hchild _ hnodes
        exact ih child hchild (Tree.heightAll_le_iff.1 hchildren child hchild) hnodes
      rw [Tree.symbol, grow_succ hrule.isTerminal_eq_false hchoose hsample, Draws.advance_advance,
        Tree.nodes, List.length_cons, Nat.add_comm]

/-- Every derivation from a symbol that is no higher than its depth leaves room for, and whose rules
can be drawn, is sampled from some values, one for each of its nodes in order, whatever the source
goes on with. -/
theorem exists_draws_expand_eq (gen : Generator) {symbol : String} {depth : Nat} {t : Tree}
    (hsymbol : t.symbol = symbol) (ht : t.IsDerivation gen.grammar)
    (hheight : t.height ≤ gen.maxDepth - depth)
    (hchoices : ∀ node ∈ t.nodes, ∃ value, gen.grammar.Chooses value node) :
    ∃ values : List UInt64, List.Forall₂ gen.grammar.Chooses values t.nodes ∧
      ∀ draws : Draws, draws.upcoming values.length = values →
        gen.expand symbol depth draws = (some t, draws.advance values.length) := by
  choose! value hvalue using hchoices
  have hvalues : List.Forall₂ gen.grammar.Chooses (t.nodes.map value) t.nodes :=
    List.forall₂_map_left_iff.2 (List.forall₂_same.2 hvalue)
  refine ⟨t.nodes.map value, hvalues, ?_⟩
  intro draws hdraws
  rw [← hdraws, List.length_map] at hvalues
  rw [← hsymbol, List.length_map]
  exact grow_of_chooses ht hheight hvalues

/-! ## Words in pairs -/

/-- A word stands alone or in a pair, and both are equally likely. -/
def pairs : Generator where
  grammar := .ofRules [⟨"S", .binary "S" "S", 1⟩, ⟨"S", .unary "x", 1⟩]
  start := "S"
  maxDepth := 2

def wordPair : Tree :=
  .node "S" [.node "S" [.leaf "x"], .node "S" [.leaf "x"]]

theorem rulesFor_pairs :
    pairs.grammar.rulesFor "S" = [⟨"S", .binary "S" "S", 1⟩, ⟨"S", .unary "x", 1⟩] := by
  rw [Grammar.rulesFor_eq, pairs, Grammar.rules_ofRules]
  rfl

theorem isTerminal_pairs :
    pairs.grammar.isTerminal "S" = false ∧ pairs.grammar.isTerminal "x" = true := by
  rw [Grammar.isTerminal_eq_false_iff, Grammar.isTerminal_iff]
  simp only [pairs, Grammar.rules_ofRules]
  decide +kernel

theorem getElem?_drawnPosition_pairs :
    (pairs.grammar.rulesFor "S")[Rule.drawnPosition (pairs.grammar.rulesFor "S") 0]? =
        some ⟨"S", .binary "S" "S", 1⟩ ∧
      (pairs.grammar.rulesFor "S")[Rule.drawnPosition (pairs.grammar.rulesFor "S")
        0xFFFFFFFFFFFFFFFF]? = some ⟨"S", .unary "x", 1⟩ := by
  rw [rulesFor_pairs]
  have hleast : Rule.drawnPosition [⟨"S", .binary "S" "S", 1⟩, ⟨"S", .unary "x", 1⟩] 0 = 0 := by
    decide +kernel
  have hgreatest : Rule.drawnPosition [⟨"S", .binary "S" "S", 1⟩, ⟨"S", .unary "x", 1⟩]
      0xFFFFFFFFFFFFFFFF = 1 := by
    decide +kernel
  rw [hleast, hgreatest]
  exact ⟨rfl, rfl⟩

theorem chooses_pairs :
    pairs.grammar.Chooses 0 ("S", [.node "S" [.leaf "x"], .node "S" [.leaf "x"]]) ∧
      pairs.grammar.Chooses 0xFFFFFFFFFFFFFFFF ("S", [.leaf "x"]) :=
  ⟨Grammar.chooses_of_getElem? getElem?_drawnPosition_pairs.1 rfl,
    Grammar.chooses_of_getElem? getElem?_drawnPosition_pairs.2 rfl⟩

theorem isDerivation_wordPair : wordPair.IsDerivation pairs.grammar := by
  have hword : pairs.grammar.HasRule "S" (.unary "x") := by
    simp [Grammar.HasRule, pairs]
  have hpair : pairs.grammar.HasRule "S" (.binary "S" "S") := by
    simp [Grammar.HasRule, pairs]
  have hone : (Tree.node "S" [.leaf "x"]).IsDerivation pairs.grammar :=
    .node hword rfl (by simpa using .leaf isTerminal_pairs.2)
  exact .node hpair rfl (by simpa using hone)

/-- The pair is as high as it may be, and both rules are drawn for it. -/
theorem exists_draws_expand_eq_wordPair :
    (wordPair.symbol = "S" ∧ wordPair.IsDerivation pairs.grammar ∧
      wordPair.height ≤ pairs.maxDepth - 0 ∧
      ∀ node ∈ wordPair.nodes, ∃ value, pairs.grammar.Chooses value node) ∧
    ∃ values : List UInt64, values.length = 3 ∧ ∀ draws : Draws,
      draws.upcoming values.length = values →
        pairs.expand "S" 0 draws = (some wordPair, draws.advance 3) := by
  have hheight : wordPair.height ≤ pairs.maxDepth - 0 := by decide
  have hchoices : ∀ node ∈ wordPair.nodes, ∃ value, pairs.grammar.Chooses value node := by
    simp only [wordPair, Tree.nodes, Tree.nodesAll, List.append_nil, List.singleton_append,
      List.forall_mem_cons]
    exact ⟨⟨_, chooses_pairs.1⟩, ⟨_, chooses_pairs.2⟩, ⟨_, chooses_pairs.2⟩, by simp⟩
  obtain ⟨values, hvalues, hexpand⟩ :=
    exists_draws_expand_eq pairs rfl isDerivation_wordPair hheight hchoices
  have hlength : values.length = 3 := hvalues.length_eq
  refine ⟨⟨rfl, isDerivation_wordPair, hheight, hchoices⟩, values, hlength, ?_⟩
  intro draws hdraws
  rw [← hlength]
  exact hexpand draws hdraws

end Generator

end PhraseStructure
