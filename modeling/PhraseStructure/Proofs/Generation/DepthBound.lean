import Mathlib.Data.List.Chain
import PhraseStructure.Proofs.Generation.Attempts

/-!
# Failures at the depth bound

Every nonterminal has a rule to choose, so an expansion fails only where a nonterminal stands at the
depth bound. The symbols on the way down to it are nonterminals, each on the right-hand side of some
rule of the one above (`exists_isDescent_of_grow`). Where no such way is long enough every attempt
gives a tree, and there are as many attempts as trees, if there is room for these.
-/

namespace PhraseStructure

namespace Grammar

/-- Some rule of the first symbol has the second one on its right-hand side. -/
def LeadsTo (g : Grammar) (symbol below : String) : Prop :=
  ∃ rhs, g.HasRule symbol rhs ∧ below ∈ rhs.symbols

/-- Nonterminals from a symbol on, each of which leads to the next. -/
structure IsDescent (g : Grammar) (symbol : String) (chain : List String) : Prop where
  head : chain.head? = some symbol
  nonterminal : ∀ a ∈ chain, g.isTerminal a = false
  leads : chain.IsChain g.LeadsTo

namespace IsDescent

variable {g : Grammar} {symbol below : String} {chain : List String}

theorem singleton (h : g.isTerminal symbol = false) : g.IsDescent symbol [symbol] where
  head := rfl
  nonterminal := by simpa using h
  leads := .singleton symbol

theorem cons (hsymbol : g.isTerminal symbol = false) (hleads : g.LeadsTo symbol below)
    (h : g.IsDescent below chain) : g.IsDescent symbol (symbol :: chain) where
  head := rfl
  nonterminal := List.forall_mem_cons.2 ⟨hsymbol, h.nonterminal⟩
  leads := by
    refine h.leads.cons ?_
    rw [h.head]
    intro next hnext
    rwa [← Option.mem_some_iff.1 hnext]

/-- Where nonterminals have ranks and lead to nonterminals of lower rank only, no descent is longer
than the rank of its first symbol allows. -/
theorem length_le (rank : String → Nat)
    (hrank : ∀ a b, g.LeadsTo a b → g.isTerminal b = false → rank b < rank a)
    (h : g.IsDescent symbol chain) : chain.length ≤ rank symbol + 1 := by
  induction chain generalizing symbol with
  | nil => exact Nat.zero_le _
  | cons a rest ih =>
    obtain rfl : a = symbol := Option.some.inj h.head
    cases rest with
    | nil => exact Nat.le_add_left _ _
    | cons b rest =>
      obtain ⟨-, hrest⟩ := List.forall_mem_cons.1 h.nonterminal
      obtain ⟨hleads, hdown⟩ := List.isChain_cons_cons.1 h.leads
      have hlength := ih ⟨rfl, hrest, hdown⟩
      have hlower := hrank a b hleads (hrest b List.mem_cons_self)
      rw [List.length_cons]
      omega

end IsDescent

end Grammar

namespace Generator

variable {g : Grammar}

/-! ## Failures -/

theorem exists_mem_of_sampleAll_eq_none {α β : Type} {sample : α → Draws → Option β × Draws}
    {as : List α} {draws : Draws} (h : (sampleAll sample as draws).1 = none) :
    ∃ a ∈ as, ∃ before, (sample a before).1 = none := by
  induction as generalizing draws with
  | nil => cases h
  | cons a as ih =>
    unfold sampleAll at h
    split at h
    · next hfirst => exact ⟨a, List.mem_cons_self, draws, congrArg Prod.fst hfirst⟩
    · split at h
      · next hrest =>
        obtain ⟨b, hb, before, hnone⟩ := ih (congrArg Prod.fst hrest)
        exact ⟨b, List.mem_cons_of_mem a hb, before, hnone⟩
      · cases h

/-- Growing fails only for a nonterminal. Unless no height is left, a rule is chosen for it, and
what fails is one of the symbols on the right-hand side. -/
theorem grow_eq_none_cases {height : Nat} {symbol : String} {draws : Draws}
    (h : (grow g height symbol draws).1 = none) :
    g.isTerminal symbol = false ∧ (height = 0 ∨ ∃ lower below before, height = lower + 1 ∧
      g.LeadsTo symbol below ∧ (grow g lower below before).1 = none) := by
  cases height with
  | zero =>
    unfold grow at h
    split at h
    · cases h
    · next hterminal => exact ⟨eq_false_of_ne_true hterminal, .inl rfl⟩
  | succ lower =>
    unfold grow at h
    split at h
    · cases h
    next hterminal =>
      have hnonterminal := eq_false_of_ne_true hterminal
      obtain ⟨chosen, hchoose, hchosen⟩ :=
        Rule.exists_choose_eq (Grammar.rulesFor_ne_nil hnonterminal) draws
      rw [hchoose] at h
      dsimp only at h
      split at h
      · next hsample =>
        obtain ⟨below, hbelow, before, hnone⟩ :=
          exists_mem_of_sampleAll_eq_none (congrArg Prod.fst hsample)
        have hrule := Grammar.hasRule_of_mem_rulesFor hchosen
        exact ⟨hnonterminal, .inr ⟨lower, below, before, rfl, ⟨_, hrule, hbelow⟩, hnone⟩⟩
      · cases h

/-- A failure comes with a descent to the bound on the height. -/
theorem exists_isDescent_of_grow {height : Nat} {symbol : String} {draws : Draws}
    (h : (grow g height symbol draws).1 = none) :
    ∃ chain, g.IsDescent symbol chain ∧ chain.length = height + 1 := by
  induction height generalizing symbol draws with
  | zero => exact ⟨[symbol], .singleton (grow_eq_none_cases h).1, rfl⟩
  | succ height ih =>
    obtain ⟨hsymbol, hzero | ⟨lower, below, before, hheight, hleads, hnone⟩⟩ :=
      grow_eq_none_cases h
    · cases hzero
    cases hheight
    obtain ⟨chain, hchain, hlength⟩ := ih hnone
    exact ⟨symbol :: chain, hchain.cons hsymbol hleads, congrArg Nat.succ hlength⟩

/-! ## Attempts that cannot fail -/

variable {gen : Generator} {draws : Draws}

theorem length_successes_eq (h : ∀ n, gen.attempt draws n ≠ none) (n : Nat) :
    (gen.successes draws n).length = n := by
  induction n with
  | zero => rfl
  | succ n ih =>
    obtain ⟨t, ht⟩ := Option.ne_none_iff_exists'.1 (h n)
    rw [successes_succ, List.length_append, ih, ht]
    rfl

theorem completedAt_of_attempt_ne_none (h : ∀ n, gen.attempt draws n ≠ none) (count : Nat) :
    gen.CompletedAt draws count count where
  length := length_successes_eq h count
  earlier := by
    intro m hm
    rwa [length_successes_eq h]

/-- Where no descent from the start symbol reaches the depth bound every attempt gives a tree. -/
theorem completedAt_of_forall_isDescent
    (h : ∀ chain, gen.grammar.IsDescent gen.start chain → chain.length ≠ gen.maxDepth + 1)
    (draws : Draws) (count : Nat) : gen.CompletedAt draws count count := by
  apply completedAt_of_attempt_ne_none
  intro n hnone
  obtain ⟨chain, hchain, hlength⟩ := exists_isDescent_of_grow hnone
  exact h chain hchain hlength

/-- An expansion that fails does so at the depth bound: there is a descent from its symbol with a
nonterminal for each level that is left and one more, while a rule is found for every nonterminal.
If there is no such descent from the start symbol, trees for which there is room are sampled by as
many attempts as trees are wanted, unless fewer are allowed; without room no attempt is made. -/
theorem exists_isDescent_of_expand (gen : Generator) :
    (∀ symbol depth draws after, gen.expand symbol depth draws = (none, after) →
      ∃ chain, gen.grammar.IsDescent symbol chain ∧
        chain.length = (gen.maxDepth - depth) + 1) ∧
    (∀ symbol draws, gen.grammar.isTerminal symbol = false →
      ∃ chosen, Rule.choose (gen.grammar.rulesFor symbol) draws = (some chosen, draws.next.2)) ∧
    ((∀ chain, gen.grammar.IsDescent gen.start chain → chain.length ≠ gen.maxDepth + 1) →
      ∀ draws count, gen.CompletedAt draws count count ∧
        ∀ fuel,
          (HasRoom treeBytes count → count ≤ gen.maxAttempts.getD fuel →
            gen.generate fuel count draws =
              (some (.ok (gen.successes draws count)), gen.sourceAfter draws count)) ∧
          (¬ HasRoom treeBytes count →
            gen.generate fuel count draws = (some (.error (.oversize .list)), draws))) := by
  refine ⟨?_, ?_, ?_⟩
  · intro symbol depth draws after hexpand
    exact exists_isDescent_of_grow (congrArg Prod.fst hexpand)
  · intro symbol draws hsymbol
    obtain ⟨chosen, hchoose, -⟩ :=
      Rule.exists_choose_eq (Grammar.rulesFor_ne_nil hsymbol) draws
    exact ⟨chosen, hchoose⟩
  · intro hshallow draws count
    have hcompleted := completedAt_of_forall_isDescent hshallow draws count
    exact ⟨hcompleted, fun fuel => ⟨fun hroom => generate_of_completedAt hroom hcompleted,
      fun hnone => generate_of_not_hasRoom hnone gen fuel draws⟩⟩

/-! ## Just deep enough -/

/-- Sentences of two words, with no depth and no attempts to spare. -/
def twoWords : Generator where
  grammar := .ofRules [⟨"S", .binary "A" "A", 1⟩, ⟨"A", .unary "x", 1⟩, ⟨"A", .unary "y", 1⟩]
  start := "S"
  maxDepth := 2
  maxAttempts := some 3

theorem length_descent_twoWords {chain : List String}
    (h : twoWords.grammar.IsDescent "S" chain) : chain.length ≤ 2 := by
  refine h.length_le (fun symbol => if symbol = "S" then 1 else 0) ?_
  rintro a b ⟨rhs, ⟨rule, hrule, rfl, rfl⟩, hbelow⟩ hb
  have hwords : ∀ word ∈ ["x", "y"], twoWords.grammar.isTerminal word = true := by
    simp [Grammar.isTerminal_iff, twoWords]
  simp only [twoWords, Grammar.rules_ofRules, List.mem_cons, List.not_mem_nil, or_false] at hrule
  rcases hrule with rfl | rfl | rfl
  · simp only [Rhs.symbols, List.mem_cons, List.not_mem_nil, or_false, or_self] at hbelow
    subst hbelow
    decide
  · obtain rfl := List.mem_singleton.1 hbelow
    simp [hwords] at hb
  · obtain rfl := List.mem_singleton.1 hbelow
    simp [hwords] at hb

/-- An attempt at a single word fails at its depth bound if it draws a pair. Where the bound leaves
room for all rules, three attempts give three sentences, whatever is drawn. -/
theorem exists_isDescent_of_expand_words :
    ((singles.expand "S" 0 alternating).1 = none ∧
      ∃ chain, singles.grammar.IsDescent "S" chain ∧ chain.length = 2) ∧
    (∀ chain, twoWords.grammar.IsDescent twoWords.start chain →
      chain.length ≠ twoWords.maxDepth + 1) ∧
    HasRoom treeBytes 3 ∧
    ∀ draws, ∃ ts after, twoWords.generate 0 3 draws = (some (.ok ts), after) ∧
      ts.length = 3 := by
  have hfail : singles.expand "S" 0 alternating = (none, alternating.advance 1) :=
    expand_alternating 0
  have hshallow : ∀ chain, twoWords.grammar.IsDescent twoWords.start chain →
      chain.length ≠ twoWords.maxDepth + 1 := by
    intro chain hchain
    exact Nat.ne_of_lt (Nat.lt_succ_of_le (length_descent_twoWords hchain))
  have hroom : HasRoom treeBytes 3 := by decide
  refine ⟨⟨congrArg Prod.fst hfail, ?_⟩, hshallow, hroom, ?_⟩
  · exact (exists_isDescent_of_expand singles).1 "S" 0 _ _ hfail
  · intro draws
    obtain ⟨hcompleted, hgenerate⟩ :=
      (exists_isDescent_of_expand twoWords).2.2 hshallow draws 3
    exact ⟨_, _, (hgenerate 0).1 hroom le_rfl, hcompleted.length⟩

/-- Sentences of one word, with an attempt for each of as many as can be asked for. -/
def rootWord : Generator where
  grammar := .ofRules [⟨"ROOT", .unary "a", 1⟩]
  maxAttempts := some 18446744073709551615

/-- No attempt fails and none is lacking, but there is no room for so many sentences. -/
theorem generate_rootWord_eq_oversize :
    (∀ chain, rootWord.grammar.IsDescent rootWord.start chain →
      chain.length ≠ rootWord.maxDepth + 1) ∧
    rootWord.maxAttempts = some 18446744073709551615 ∧
    rootWord.generate 0 18446744073709551615 (.ofList []) =
      (some (.error (.oversize .list)), .ofList []) := by
  refine ⟨?_, rfl, generate_of_not_hasRoom (by decide) _ _ _⟩
  intro chain hchain
  refine Nat.ne_of_lt ((hchain.length_le (fun _ => 0) ?_).trans_lt (by decide))
  rintro a b ⟨rhs, ⟨rule, hrule, rfl, rfl⟩, hbelow⟩ hb
  have hword : rootWord.grammar.isTerminal "a" = true := by
    simp [Grammar.isTerminal_iff, rootWord]
  simp only [rootWord, Grammar.rules_ofRules, List.mem_singleton] at hrule
  obtain rfl := hrule
  obtain rfl := List.mem_singleton.1 hbelow
  simp [hword] at hb

end Generator

end PhraseStructure
