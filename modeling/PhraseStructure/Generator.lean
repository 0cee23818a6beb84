import PhraseStructure.Draws.Basic
import PhraseStructure.Grammar.Basic
import PhraseStructure.Size
import PhraseStructure.Tree.Text

/-!
# Random derivations

Trees are sampled from the top down. Each symbol is expanded by a rule drawn in proportion to its
weight; an attempt that would grow too deep is thrown away, and attempts go on until there are
enough trees or their number reaches a bound. Room for all trees is made before the first attempt.
-/

namespace PhraseStructure

/-- Too few trees after all allowed attempts. -/
structure AttemptsExhausted where
  attempts : Nat
  produced : Nat
  wanted : Nat
deriving DecidableEq, Repr

def AttemptsExhausted.message (e : AttemptsExhausted) : String :=
  "gave up after " ++ toString e.attempts ++ " attempts with " ++ toString e.produced ++ " of " ++
    toString e.wanted ++ " sentences"

/-- The error as a record of its fields. -/
def AttemptsExhausted.record (e : AttemptsExhausted) : String :=
  "AttemptsExhausted \x7b attempts: " ++ toString e.attempts ++ ", produced: " ++
    toString e.produced ++ ", wanted: " ++ toString e.wanted ++ " \x7d"

/-- Why there are no trees: the attempts were too few, or there is no room for so many trees. -/
inductive SamplingError where
  | exhausted (e : AttemptsExhausted)
  | oversize (e : Oversize)
deriving DecidableEq, Repr

namespace Rule

/-- The running sums of the weights, from `sum` on. -/
def runningSums (sum : Float) : List Rule → List Float
  | [] => []
  | rule :: rest => (sum + rule.weight) :: runningSums (sum + rule.weight) rest

def totalWeight (rules : List Rule) : Float :=
  (runningSums 0.0 rules).getLast?.getD 0.0

/-- The position that a value draws: the first one whose running sum reaches the value's part of
the total. Should rounding keep all sums below it, the position is the first of all. -/
def drawnPosition (rules : List Rule) (value : UInt64) : Nat :=
  let mark := Draws.unit value * totalWeight rules
  ((runningSums 0.0 rules).findIdx? fun sum => decide (mark ≤ sum)).getD 0

/-- Draws a rule, with its position, in proportion to the weights. Where there is no rule, nothing
is drawn. -/
def choose (rules : List Rule) (draws : Draws) : Option Declared × Draws :=
  if rules.isEmpty then (none, draws)
  else
    let (value, draws) := draws.next
    let position := drawnPosition rules value
    (rules[position]?.map fun rule => ⟨position, rule⟩, draws)

@[simp] theorem length_runningSums (sum : Float) (rules : List Rule) :
    (runningSums sum rules).length = rules.length := by
  induction rules generalizing sum with
  | nil => rfl
  | cons rule rest ih => simp [runningSums, ih]

theorem drawnPosition_lt {rules : List Rule} (h : rules ≠ []) (value : UInt64) :
    drawnPosition rules value < rules.length := by
  have hpos := List.length_pos_iff.2 h
  unfold drawnPosition
  dsimp only
  cases hfind : (runningSums 0.0 rules).findIdx? fun sum =>
      decide (Draws.unit value * totalWeight rules ≤ sum) with
  | none => exact hpos
  | some i =>
    have hlt := (List.findIdx?_eq_some_iff_getElem.1 hfind).1
    rwa [length_runningSums] at hlt

end Rule

def Generator.defaultStart : String := "ROOT"

/-- The height that a tree may have unless another bound is given. -/
def Generator.defaultMaxDepth : Nat := 100

/-- What to sample, and how far to go. -/
structure Generator where
  grammar : Grammar
  start : String := Generator.defaultStart
  maxDepth : Nat := Generator.defaultMaxDepth
  maxAttempts : Option Nat := none

namespace Generator

/-- Samples in order, up to the first failure. -/
def sampleAll {α β : Type} (sample : α → Draws → Option β × Draws) :
    List α → Draws → Option (List β) × Draws
  | [], draws => (some [], draws)
  | a :: rest, draws =>
    match sample a draws with
    | (none, draws) => (none, draws)
    | (some b, draws) =>
      match sampleAll sample rest draws with
      | (none, draws) => (none, draws)
      | (some bs, draws) => (some (b :: bs), draws)

/-- Samples a tree of at most some height from a symbol. A failed attempt keeps its draws. -/
def grow (g : Grammar) : (height : Nat) → String → Draws → Option Tree × Draws
  | 0, symbol, draws =>
    if g.isTerminal symbol then (some (.leaf symbol), draws) else (none, draws)
  | height + 1, symbol, draws =>
    if g.isTerminal symbol then (some (.leaf symbol), draws)
    else
      match Rule.choose (g.rulesFor symbol) draws with
      | (none, draws) => (none, draws)
      | (some chosen, draws) =>
        match sampleAll (grow g height) chosen.rule.rhs.symbols draws with
        | (none, draws) => (none, draws)
        | (some children, draws) => (some (.node symbol children), draws)

/-- Samples a tree from a symbol that already stands at some depth. -/
def expand (gen : Generator) (symbol : String) (depth : Nat) (draws : Draws) :
    Option Tree × Draws :=
  grow gen.grammar (gen.maxDepth - depth) symbol draws

/-- The trees of at most `attempts` attempts, no more than `count` of them. -/
def collect (gen : Generator) : (attempts count : Nat) → Draws → List Tree × Draws
  | _, 0, draws => ([], draws)
  | 0, _ + 1, draws => ([], draws)
  | attempts + 1, count + 1, draws =>
    match gen.expand gen.start 0 draws with
    | (none, draws) => collect gen attempts (count + 1) draws
    | (some tree, draws) =>
      let (trees, draws) := collect gen attempts count draws
      (tree :: trees, draws)

/-- Attempts trees until there are `count`. Where the generator has no bound on its attempts, `fuel`
bounds them, and there is no answer if the trees are not complete by then. -/
def trees (gen : Generator) (fuel count : Nat) (draws : Draws) :
    Option (Except AttemptsExhausted (List Tree)) × Draws :=
  let (found, draws) := gen.collect (gen.maxAttempts.getD fuel) count draws
  if found.length = count then (some (.ok found), draws)
  else (gen.maxAttempts.map fun cap => .error ⟨cap, found.length, count⟩, draws)

/-- The bytes of a tree in a list of trees: three words for its symbol and three for what is
below it. -/
def treeBytes : Nat := 48

/-- Samples `count` trees, or makes no attempt if a list of them has no room. -/
def generate (gen : Generator) (fuel count : Nat) (draws : Draws) :
    Option (Except SamplingError (List Tree)) × Draws :=
  if HasRoom treeBytes count then
    match gen.trees fuel count draws with
    | (none, draws) => (none, draws)
    | (some (.error e), draws) => (some (.error (.exhausted e)), draws)
    | (some (.ok trees), draws) => (some (.ok trees), draws)
  else (some (.error (.oversize .list)), draws)

/-- Samples `count` trees and writes them in brackets. -/
def sentences (gen : Generator) (fuel count : Nat) (draws : Draws) :
    Option (Except SamplingError (List String)) × Draws :=
  let (result, draws) := gen.generate fuel count draws
  (result.map fun trees => trees.map fun ts => ts.map Tree.text, draws)

theorem generate_of_not_hasRoom {count : Nat} (h : ¬ HasRoom treeBytes count) (gen : Generator)
    (fuel : Nat) (draws : Draws) :
    gen.generate fuel count draws = (some (.error (.oversize .list)), draws) :=
  if_neg h

theorem generate_of_exhausted {gen : Generator} {fuel count : Nat} {draws after : Draws}
    {e : AttemptsExhausted} (hroom : HasRoom treeBytes count)
    (h : gen.trees fuel count draws = (some (.error e), after)) :
    gen.generate fuel count draws = (some (.error (.exhausted e)), after) := by
  rw [generate, if_pos hroom, h]

/-- Trees are generated exactly if they have room and the attempts give them. -/
theorem generate_eq_ok_iff {gen : Generator} {fuel count : Nat} {draws after : Draws}
    {ts : List Tree} :
    gen.generate fuel count draws = (some (.ok ts), after) ↔
      HasRoom treeBytes count ∧ gen.trees fuel count draws = (some (.ok ts), after) := by
  unfold generate
  split
  · next hroom =>
    rcases gen.trees fuel count draws with ⟨_ | _ | us, rest⟩ <;> simp [hroom]
  · next hroom => simp [hroom]

end Generator

/-- Samples `count` trees from a symbol, without a bound on attempts, and writes them in
brackets. -/
def Grammar.generate (g : Grammar) (start : String) (fuel count : Nat) (draws : Draws) :
    Option (Except SamplingError (List String)) × Draws :=
  let gen : Generator := { grammar := g, start }
  gen.sentences fuel count draws

end PhraseStructure
