import Mathlib.Algebra.Order.Ring.Nat
import PhraseStructure.Proofs.Generation.Derivations

/-!
# What an expansion costs

A sampled tree is no higher than the bound that its expansion starts with, and each of its nodes
costs one draw. A failed expansion keeps its draws, and there are never more of them than nodes in
a tree of full height with two nodes below each.
-/

namespace PhraseStructure

theorem Rhs.length_symbols_le (rhs : Rhs) : rhs.symbols.length ≤ 2 := by
  cases rhs <;> simp [Rhs.symbols]

namespace Rule

theorem exists_advance_choose (rules : List Rule) (draws : Draws) :
    ∃ count ≤ 1, (choose rules draws).2 = draws.advance count := by
  unfold choose
  split
  · exact ⟨0, Nat.zero_le 1, draws.advance_zero⟩
  · exact ⟨1, le_rfl, draws.next_eq_advance⟩

end Rule

namespace Generator

/-! ## Trees -/

theorem height_le_of_grow {g : Grammar} {height : Nat} {symbol : String} {draws after : Draws}
    {t : Tree} (h : grow g height symbol draws = (some t, after)) : t.height ≤ height := by
  induction height generalizing symbol draws after t with
  | zero =>
    rcases grow_cases h with ⟨-, rfl, -⟩ | ⟨_, _, _, _, hheight, -⟩
    · exact le_rfl
    · cases hheight
  | succ height ih =>
    rcases grow_cases h with ⟨-, rfl, -⟩ | ⟨_, _, _, children, hheight, -, -, hsample, rfl⟩
    · exact Nat.zero_le _
    cases hheight
    have hchildren := (map_eq_of_sampleAll (P := fun t => t.height ≤ height)
      (fun _ _ _ _ hgrow => ⟨(isDerivation_of_grow hgrow).1, ih hgrow⟩) hsample).2
    rw [Tree.height, Nat.add_comm]
    exact Nat.succ_le_succ (Tree.heightAll_le_iff.2 hchildren)

/-- If every single tree costs a draw for each of its nodes, so do several trees. -/
theorem advance_of_sampleAll {sample : String → Draws → Option Tree × Draws}
    (hsample : ∀ symbol draws t after, sample symbol draws = (some t, after) →
      after = draws.advance t.nodeCount)
    {symbols : List String} {ts : List Tree} {draws after : Draws}
    (h : sampleAll sample symbols draws = (some ts, after)) :
    after = draws.advance (Tree.nodeCountAll ts) := by
  induction symbols generalizing ts draws with
  | nil =>
    cases h
    rfl
  | cons symbol symbols ih =>
    obtain ⟨t, rest, between, hfirst, hrest, rfl⟩ := sampleAll_cons_eq_some.1 h
    rw [ih hrest, hsample _ _ _ _ hfirst, Draws.advance_advance, Tree.nodeCountAll]

theorem advance_of_grow {g : Grammar} {height : Nat} {symbol : String} {draws after : Draws}
    {t : Tree} (h : grow g height symbol draws = (some t, after)) :
    after = draws.advance t.nodeCount := by
  induction height generalizing symbol draws after t with
  | zero =>
    rcases grow_cases h with ⟨-, rfl, rfl⟩ | ⟨_, _, _, _, hheight, -⟩
    · rfl
    · cases hheight
  | succ height ih =>
    rcases grow_cases h with ⟨-, rfl, rfl⟩ |
      ⟨_, chosen, between, children, hheight, -, hchoose, hsample, rfl⟩
    · rfl
    cases hheight
    rw [advance_of_sampleAll (fun _ _ _ _ hgrow => ih hgrow) hsample,
      Rule.eq_next_of_choose hchoose, Draws.next_eq_advance, Draws.advance_advance, Tree.nodeCount]

/-! ## Attempts that may fail -/

/-- Sampling a list stops after its first element or goes on with the rest. -/
theorem draws_sampleAll_cons {α β : Type} (sample : α → Draws → Option β × Draws) (a : α)
    (as : List α) (draws : Draws) :
    (sampleAll sample (a :: as) draws).2 = (sample a draws).2 ∨
      (sampleAll sample (a :: as) draws).2 = (sampleAll sample as (sample a draws).2).2 := by
  rw [sampleAll]
  split
  · next hfirst =>
    rw [hfirst]
    exact .inl rfl
  · next hfirst =>
    right
    rw [hfirst]
    split <;> simp [*]

/-- Growing takes nothing for a terminal and at height zero, and else what the choice of a rule
takes and, if there is a rule, what its symbols take. -/
theorem draws_grow_succ (g : Grammar) (height : Nat) (symbol : String) (draws : Draws) :
    (grow g (height + 1) symbol draws).2 = draws ∨
      ∃ symbols : List String, symbols.length ≤ 2 ∧ (grow g (height + 1) symbol draws).2 =
        (sampleAll (grow g height) symbols (Rule.choose (g.rulesFor symbol) draws).2).2 := by
  rw [grow]
  split
  · exact .inl rfl
  · right
    split
    · next hchoose =>
      exact ⟨[], Nat.zero_le 2, by rw [hchoose]; rfl⟩
    · next chosen between hchoose =>
      refine ⟨chosen.rule.rhs.symbols, chosen.rule.rhs.length_symbols_le, ?_⟩
      rw [hchoose]
      split <;> simp [*]

/-- Several attempts cost no more than each of them may. -/
theorem exists_advance_sampleAll {α β : Type} {sample : α → Draws → Option β × Draws} {bound : Nat}
    (hsample : ∀ a draws, ∃ count ≤ bound, (sample a draws).2 = draws.advance count)
    (as : List α) (draws : Draws) :
    ∃ count ≤ as.length * bound, (sampleAll sample as draws).2 = draws.advance count := by
  induction as generalizing draws with
  | nil => exact ⟨0, Nat.zero_le _, rfl⟩
  | cons a as ih =>
    obtain ⟨first, hle, hfirst⟩ := hsample a draws
    rw [List.length_cons, Nat.succ_mul]
    rcases draws_sampleAll_cons sample a as draws with hstop | hon
    · exact ⟨first, by omega, hstop.trans hfirst⟩
    · obtain ⟨rest, hle', hrest⟩ := ih (draws.advance first)
      refine ⟨first + rest, by omega, ?_⟩
      rw [hon, hfirst, hrest, Draws.advance_advance]

/-- An attempt costs at most as many draws as a tree of full height with two nodes below each node
has nodes. -/
theorem exists_advance_grow (g : Grammar) (height : Nat) (symbol : String) (draws : Draws) :
    ∃ count ≤ 2 ^ height - 1, (grow g height symbol draws).2 = draws.advance count := by
  induction height generalizing symbol draws with
  | zero =>
    refine ⟨0, Nat.zero_le _, ?_⟩
    rw [grow]
    split <;> rfl
  | succ height ih =>
    rcases draws_grow_succ g height symbol draws with hnone | ⟨symbols, hsymbols, hsome⟩
    · exact ⟨0, Nat.zero_le _, hnone⟩
    obtain ⟨choice, hchoice, hchosen⟩ := Rule.exists_advance_choose (g.rulesFor symbol) draws
    obtain ⟨below, hbelow, hsample⟩ :=
      exists_advance_sampleAll ih symbols (Rule.choose (g.rulesFor symbol) draws).2
    refine ⟨choice + below, ?_, ?_⟩
    · have hpos := Nat.two_pow_pos height
      have hsides := Nat.mul_le_mul_right (2 ^ height - 1) hsymbols
      rw [pow_succ]
      omega
    · rw [hsome, hsample, hchosen, Draws.advance_advance]

/-! ## Every attempt -/

/-- An expansion gives a derivation from its symbol, no higher than the depth leaves room for, at
the cost of one draw for each node, or it fails at the cost of fewer draws than there may be nodes
in a tree of that height. -/
theorem expand_derivation_or_none (gen : Generator) (symbol : String) (depth : Nat)
    (draws : Draws) :
    match gen.expand symbol depth draws with
    | (some t, after) =>
      (if gen.grammar.isTerminal symbol then t = .leaf symbol
        else ∃ children, t = .node symbol children) ∧
      t.IsDerivation gen.grammar ∧ (∀ node ∈ t.nodes, gen.grammar.isTerminal node.1 = false) ∧
      t.height ≤ gen.maxDepth - depth ∧ after = draws.advance t.nodeCount
    | (none, after) => ∃ count ≤ 2 ^ (gen.maxDepth - depth) - 1, after = draws.advance count := by
  split
  · next t after hexpand =>
    obtain ⟨-, hderivation⟩ := isDerivation_of_expand hexpand
    refine ⟨?_, hderivation, hderivation.isTerminal_label, height_le_of_grow hexpand,
      advance_of_grow hexpand⟩
    rcases grow_cases hexpand with ⟨hterminal, rfl, -⟩ |
      ⟨_, _, _, children, -, hterminal, -, -, rfl⟩
    · rw [if_pos hterminal]
    · rw [if_neg (by simp [hterminal])]
      exact ⟨children, rfl⟩
  · next after hexpand =>
    obtain ⟨count, hle, hdraws⟩ :=
      exists_advance_grow gen.grammar (gen.maxDepth - depth) symbol draws
    exact ⟨count, hle, (congrArg Prod.snd hexpand).symm.trans hdraws⟩

end Generator

end PhraseStructure
