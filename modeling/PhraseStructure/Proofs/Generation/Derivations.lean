import PhraseStructure.Derivation
import PhraseStructure.Generator
import PhraseStructure.Proofs.Grammar.Nonterminals

/-!
# Sampled trees are derivations

A sampled tree is a leaf for a terminal, and otherwise a node over what was sampled from the
right-hand side of a chosen rule. So it is a derivation from its symbol, whatever the draws are.
-/

namespace PhraseStructure

theorem Tree.IsDerivation.isTerminal_label {g : Grammar} {t : Tree} (h : t.IsDerivation g) :
    ∀ node ∈ t.nodes, g.isTerminal node.1 = false := by
  induction h with
  | leaf => simp [Tree.nodes]
  | @node label children rhs hrule _ _ ih =>
    rw [Tree.nodes, Tree.nodesAll_eq_flatMap, List.forall_mem_cons]
    refine ⟨hrule.isTerminal_eq_false, ?_⟩
    intro node hnode
    obtain ⟨child, hchild, hnode⟩ := List.mem_flatMap.1 hnode
    exact ih child hchild node hnode

theorem Rule.getElem?_of_choose {rules : List Rule} {draws after : Draws} {chosen : Declared}
    (h : Rule.choose rules draws = (some chosen, after)) :
    rules[chosen.index]? = some chosen.rule := by
  unfold Rule.choose at h
  split at h
  · cases h
  · obtain ⟨rule, hrule, rfl⟩ := Option.map_eq_some_iff.1 (Prod.mk.inj h).1
    exact hrule

theorem Rule.eq_next_of_choose {rules : List Rule} {draws after : Draws} {chosen : Declared}
    (h : Rule.choose rules draws = (some chosen, after)) : after = draws.next.2 := by
  unfold Rule.choose at h
  split at h
  · cases h
  · exact (Prod.mk.inj h).2.symm

theorem Rule.choose_of_getElem? {rules : List Rule} {draws : Draws} {rule : Rule}
    (h : rules[drawnPosition rules draws.next.1]? = some rule) :
    Rule.choose rules draws = (some ⟨drawnPosition rules draws.next.1, rule⟩, draws.next.2) := by
  have hne : rules ≠ [] := List.ne_nil_of_mem (List.mem_of_getElem? h)
  rw [choose, if_neg (by simpa using hne)]
  dsimp only
  rw [h]
  rfl

theorem Rule.exists_choose_eq {rules : List Rule} (h : rules ≠ []) (draws : Draws) :
    ∃ chosen, Rule.choose rules draws = (some chosen, draws.next.2) ∧ chosen.rule ∈ rules := by
  have hlt := drawnPosition_lt h draws.next.1
  exact ⟨_, choose_of_getElem? (List.getElem?_eq_getElem hlt), List.getElem_mem hlt⟩

namespace Generator

theorem sampleAll_cons_eq_some {α β : Type} {sample : α → Draws → Option β × Draws} {a : α}
    {as : List α} {bs : List β} {draws after : Draws} :
    sampleAll sample (a :: as) draws = (some bs, after) ↔
      ∃ b rest between, sample a draws = (some b, between) ∧
        sampleAll sample as between = (some rest, after) ∧ bs = b :: rest := by
  constructor
  · intro h
    unfold sampleAll at h
    split at h
    · cases h
    · next b between hfirst =>
      split at h
      · cases h
      · next rest _ hrest =>
        cases h
        exact ⟨b, rest, between, hfirst, hrest, rfl⟩
  · rintro ⟨b, rest, between, hfirst, hrest, rfl⟩
    rw [sampleAll, hfirst]
    dsimp only
    rw [hrest]

/-- What each single sample is, the samples of a list are in order. -/
theorem map_eq_of_sampleAll {α β : Type} {sample : α → Draws → Option β × Draws} {f : β → α}
    {P : β → Prop} (hsample : ∀ a draws b after, sample a draws = (some b, after) → f b = a ∧ P b)
    {as : List α} {bs : List β} {draws after : Draws}
    (h : sampleAll sample as draws = (some bs, after)) : bs.map f = as ∧ ∀ b ∈ bs, P b := by
  induction as generalizing bs draws with
  | nil =>
    cases h
    exact ⟨rfl, by simp⟩
  | cons a as ih =>
    obtain ⟨b, rest, between, hfirst, hrest, rfl⟩ := sampleAll_cons_eq_some.1 h
    obtain ⟨hsymbol, hb⟩ := hsample _ _ _ _ hfirst
    obtain ⟨hmap, hbs⟩ := ih hrest
    exact ⟨by rw [List.map_cons, hsymbol, hmap], List.forall_mem_cons.2 ⟨hb, hbs⟩⟩

/-! ## One step down -/

theorem grow_of_isTerminal {g : Grammar} {symbol : String} (h : g.isTerminal symbol = true)
    (height : Nat) (draws : Draws) : grow g height symbol draws = (some (.leaf symbol), draws) := by
  cases height <;> rw [grow, if_pos h]

theorem grow_succ {g : Grammar} {height : Nat} {symbol : String} {draws between after : Draws}
    {chosen : Declared} {children : List Tree} (h : g.isTerminal symbol = false)
    (hchoose : Rule.choose (g.rulesFor symbol) draws = (some chosen, between))
    (hsample : sampleAll (grow g height) chosen.rule.rhs.symbols between = (some children, after)) :
    grow g (height + 1) symbol draws = (some (.node symbol children), after) := by
  rw [grow, if_neg (by simp [h]), hchoose]
  dsimp only
  rw [hsample]

/-- Where all rules have one right-hand side it does not matter which of them is chosen. -/
theorem grow_of_rhs_eq {g : Grammar} {height : Nat} {symbol : String} {rhs : Rhs}
    {draws after : Draws} {children : List Tree} (hrule : g.HasRule symbol rhs)
    (hrhs : ∀ rhs', g.HasRule symbol rhs' → rhs' = rhs)
    (hsample : sampleAll (grow g height) rhs.symbols draws.next.2 = (some children, after)) :
    grow g (height + 1) symbol draws = (some (.node symbol children), after) := by
  have hterminal := hrule.isTerminal_eq_false
  obtain ⟨chosen, hchoose, hchosen⟩ :=
    Rule.exists_choose_eq (Grammar.rulesFor_ne_nil hterminal) draws
  refine grow_succ hterminal hchoose ?_
  rw [hrhs _ (Grammar.hasRule_of_mem_rulesFor hchosen)]
  exact hsample

/-- A tree that is sampled is a leaf for a terminal, or a node over the symbols of a chosen
rule. -/
theorem grow_cases {g : Grammar} {height : Nat} {symbol : String} {draws after : Draws} {t : Tree}
    (h : grow g height symbol draws = (some t, after)) :
    (g.isTerminal symbol = true ∧ t = .leaf symbol ∧ after = draws) ∨
      ∃ lower chosen between children, height = lower + 1 ∧ g.isTerminal symbol = false ∧
        Rule.choose (g.rulesFor symbol) draws = (some chosen, between) ∧
        sampleAll (grow g lower) chosen.rule.rhs.symbols between = (some children, after) ∧
        t = .node symbol children := by
  cases height with
  | zero =>
    unfold grow at h
    split at h <;> cases h
    exact .inl ⟨‹_›, rfl, rfl⟩
  | succ lower =>
    unfold grow at h
    split at h
    · cases h
      exact .inl ⟨‹_›, rfl, rfl⟩
    · next hterminal =>
      split at h
      · cases h
      · next chosen between hchoose =>
        split at h
        · cases h
        · next children _ hsample =>
          cases h
          exact .inr ⟨lower, chosen, between, children, rfl, eq_false_of_ne_true hterminal,
            hchoose, hsample, rfl⟩

/-! ## A whole tree -/

theorem isDerivation_of_grow {g : Grammar} {height : Nat} {symbol : String} {draws after : Draws}
    {t : Tree} (h : grow g height symbol draws = (some t, after)) :
    t.symbol = symbol ∧ t.IsDerivation g := by
  induction height generalizing symbol draws after t with
  | zero =>
    rcases grow_cases h with ⟨hterminal, rfl, -⟩ | ⟨_, _, _, _, hheight, -⟩
    · exact ⟨rfl, .leaf hterminal⟩
    · cases hheight
  | succ height ih =>
    rcases grow_cases h with ⟨hterminal, rfl, -⟩ |
      ⟨_, chosen, _, children, hheight, -, hchoose, hsample, rfl⟩
    · exact ⟨rfl, .leaf hterminal⟩
    cases hheight
    have hrule := Grammar.hasRule_of_mem_rulesFor
      (List.mem_of_getElem? (Rule.getElem?_of_choose hchoose))
    obtain ⟨hsymbols, hchildren⟩ := map_eq_of_sampleAll (fun _ _ _ _ hgrow => ih hgrow) hsample
    exact ⟨rfl, .node hrule hsymbols hchildren⟩

theorem isDerivation_of_expand {gen : Generator} {symbol : String} {depth : Nat}
    {draws after : Draws} {t : Tree} (h : gen.expand symbol depth draws = (some t, after)) :
    t.symbol = symbol ∧ t.IsDerivation gen.grammar :=
  isDerivation_of_grow h

/-! ## Several trees -/

theorem exists_expand_of_mem_collect {gen : Generator} {attempts count : Nat} {draws : Draws}
    {t : Tree} (h : t ∈ (gen.collect attempts count draws).1) :
    ∃ before after, gen.expand gen.start 0 before = (some t, after) := by
  fun_induction collect gen attempts count draws with
  | case1 => cases h
  | case2 => cases h
  | case3 _ _ _ _ _ ih => exact ih h
  | case4 attempts count draws tree rest hexpand _ _ hcollect ih =>
    rw [hcollect] at ih
    rcases List.mem_cons.1 h with rfl | h
    · exact ⟨draws, rest, hexpand⟩
    · exact ih h

theorem exists_expand_of_trees {gen : Generator} {fuel count : Nat} {draws after : Draws}
    {ts : List Tree} (h : gen.trees fuel count draws = (some (.ok ts), after)) :
    ∀ t ∈ ts, ∃ before after, gen.expand gen.start 0 before = (some t, after) := by
  unfold trees at h
  dsimp only at h
  split at h
  · obtain rfl := Except.ok.inj (Option.some.inj (Prod.mk.inj h).1)
    intro t ht
    exact exists_expand_of_mem_collect ht
  · cases hcap : gen.maxAttempts <;> simp [hcap] at h

theorem exists_expand_of_sentences {gen : Generator} {fuel count : Nat} {draws after : Draws}
    {lines : List String} (h : gen.sentences fuel count draws = (some (.ok lines), after)) :
    ∀ line ∈ lines, ∃ t before after, line = t.text ∧
      gen.expand gen.start 0 before = (some t, after) := by
  unfold sentences at h
  dsimp only at h
  obtain ⟨hresult, -⟩ := Prod.mk.inj h
  obtain ⟨result, htrees, hlines⟩ := Option.map_eq_some_iff.1 hresult
  cases result with
  | error => cases hlines
  | ok ts =>
    obtain rfl := Except.ok.inj hlines
    intro line hline
    obtain ⟨t, ht, rfl⟩ := List.mem_map.1 hline
    obtain ⟨-, htrees⟩ := generate_eq_ok_iff.1 (Prod.ext htrees rfl)
    obtain ⟨before, after', hexpand⟩ := exists_expand_of_trees htrees t ht
    exact ⟨t, before, after', rfl, hexpand⟩

end Generator

end PhraseStructure
