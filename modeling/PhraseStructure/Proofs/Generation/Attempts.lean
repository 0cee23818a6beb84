import Mathlib.Data.List.Infix
import Mathlib.Order.Basic
import PhraseStructure.Command.Outcome
import PhraseStructure.Proofs.Generation.Reachable
import PhraseStructure.Proofs.Grammar.Written

/-!
# Attempts and their count

Collecting trees makes one attempt after another, each from where the last one left the source. It
ends with the attempt that completes the count, or with the last one that is allowed, and in either
case the trees are those of the attempts made (`generate_of_attempts`). A count for which there is
no room is an error before the first attempt, also where the attempts would have run out
(`not_exhausted_rootPairs`).
-/

namespace PhraseStructure

namespace Generator

/-! ## Successive attempts -/

/-- The source after some attempts from the start symbol, one after another. -/
def sourceAfter (gen : Generator) (draws : Draws) : Nat → Draws
  | 0 => draws
  | n + 1 => (gen.expand gen.start 0 (gen.sourceAfter draws n)).2

/-- What an attempt gives; the attempts are numbered from zero. -/
def attempt (gen : Generator) (draws : Draws) (n : Nat) : Option Tree :=
  (gen.expand gen.start 0 (gen.sourceAfter draws n)).1

/-- The trees of the first attempts, in order. -/
def successes (gen : Generator) (draws : Draws) (n : Nat) : List Tree :=
  (List.range n).filterMap (gen.attempt draws)

/-- There are `count` trees after `n` attempts and fewer before: the last attempt completes the
count, or there is nothing to attempt. -/
structure CompletedAt (gen : Generator) (draws : Draws) (count n : Nat) : Prop where
  length : (gen.successes draws n).length = count
  earlier : ∀ m < n, (gen.successes draws m).length < count

variable {gen : Generator} {draws : Draws} {count : Nat}

theorem successes_succ (n : Nat) :
    gen.successes draws (n + 1) = gen.successes draws n ++ (gen.attempt draws n).toList := by
  rw [successes, List.range_succ, List.filterMap_append, successes]
  rfl

theorem successes_isPrefix_of_le (gen : Generator) (draws : Draws) {m n : Nat} (h : m ≤ n) :
    gen.successes draws m <+: gen.successes draws n := by
  induction h with
  | refl => exact List.prefix_refl _
  | step _ ih =>
    rw [successes_succ]
    exact ih.trans (List.prefix_append _ _)

theorem CompletedAt.unique {m n : Nat} (hm : gen.CompletedAt draws count m)
    (hn : gen.CompletedAt draws count n) : m = n := by
  rcases Nat.lt_trichotomy m n with hlt | heq | hlt
  · exact absurd hm.length (Nat.ne_of_lt (hn.earlier m hlt))
  · exact heq
  · exact absurd hn.length (Nat.ne_of_lt (hm.earlier n hlt))

/-- A count that is not reached by some attempt is not completed before. -/
theorem not_completedAt_of_length_lt {limit n : Nat}
    (h : (gen.successes draws limit).length < count) (hn : n ≤ limit) :
    ¬ gen.CompletedAt draws count n := by
  intro hcompleted
  have hlength := (successes_isPrefix_of_le gen draws hn).length_le
  rw [hcompleted.length] at hlength
  omega

/-! ## Earlier and later attempts -/

theorem sourceAfter_add (m n : Nat) :
    gen.sourceAfter draws (m + n) = gen.sourceAfter (gen.sourceAfter draws m) n := by
  induction n with
  | zero => rfl
  | succ n ih => rw [Nat.add_succ, sourceAfter, ih, sourceAfter]

theorem successes_add (m n : Nat) :
    gen.successes draws (m + n) =
      gen.successes draws m ++ gen.successes (gen.sourceAfter draws m) n := by
  have hattempt : gen.attempt draws ∘ (m + ·) = gen.attempt (gen.sourceAfter draws m) := by
    funext n
    rw [Function.comp_apply, attempt, sourceAfter_add, attempt]
  rw [successes, List.range_add, List.filterMap_append, List.filterMap_map, hattempt, successes,
    successes]

theorem sourceAfter_succ_left (n : Nat) :
    gen.sourceAfter draws (n + 1) = gen.sourceAfter (gen.expand gen.start 0 draws).2 n := by
  rw [Nat.add_comm, sourceAfter_add, sourceAfter, sourceAfter]

theorem successes_succ_left (n : Nat) :
    gen.successes draws (n + 1) = (gen.expand gen.start 0 draws).1.toList ++
      gen.successes (gen.expand gen.start 0 draws).2 n := by
  rw [Nat.add_comm, successes_add, successes_succ, sourceAfter, sourceAfter]
  rfl

/-- Collecting keeps the tree of the first attempt, if it gives one, and goes on with the rest. -/
theorem collect_succ_succ (gen : Generator) (attempts count : Nat) (draws : Draws) :
    gen.collect (attempts + 1) (count + 1) draws =
      ((gen.expand gen.start 0 draws).1.toList ++
        (gen.collect attempts (count + 1 - (gen.expand gen.start 0 draws).1.toList.length)
          (gen.expand gen.start 0 draws).2).1,
        (gen.collect attempts (count + 1 - (gen.expand gen.start 0 draws).1.toList.length)
          (gen.expand gen.start 0 draws).2).2) := by
  rw [collect]
  split <;> simp [*]

/-! ## Collecting trees -/

/-- Collecting stops with the attempt that completes the count, or with the last one. -/
theorem exists_collect_eq (gen : Generator) (attempts count : Nat) (draws : Draws) :
    ∃ n ≤ attempts,
      gen.collect attempts count draws = (gen.successes draws n, gen.sourceAfter draws n) ∧
      (gen.successes draws n).length ≤ count ∧
      (∀ m < n, (gen.successes draws m).length < count) ∧
      (n < attempts → (gen.successes draws n).length = count) := by
  induction attempts generalizing count draws with
  | zero => exact ⟨0, Nat.le_refl 0, by cases count <;> rfl, Nat.zero_le _, by simp, by simp⟩
  | succ attempts ih =>
    cases count with
    | zero => exact ⟨0, Nat.zero_le _, rfl, Nat.le_refl 0, by simp, fun _ => rfl⟩
    | succ count =>
      have hfirst : (gen.expand gen.start 0 draws).1.toList.length ≤ 1 := by
        cases (gen.expand gen.start 0 draws).1 <;> simp
      obtain ⟨n, hn, hcollect, hlength, hearlier, hcomplete⟩ :=
        ih (count + 1 - (gen.expand gen.start 0 draws).1.toList.length)
          (gen.expand gen.start 0 draws).2
      refine ⟨n + 1, Nat.succ_le_succ hn, ?_, ?_, ?_, ?_⟩
      · rw [collect_succ_succ, hcollect, successes_succ_left, sourceAfter_succ_left]
      · rw [successes_succ_left, List.length_append]
        omega
      · intro m hm
        cases m with
        | zero => exact Nat.succ_pos count
        | succ m =>
          have := hearlier m (Nat.lt_of_succ_lt_succ hm)
          rw [successes_succ_left, List.length_append]
          omega
      · intro hlt
        have := hcomplete (Nat.lt_of_succ_lt_succ hlt)
        rw [successes_succ_left, List.length_append]
        omega

theorem collect_of_completedAt {attempts n : Nat} (h : gen.CompletedAt draws count n)
    (hn : n ≤ attempts) :
    gen.collect attempts count draws = (gen.successes draws n, gen.sourceAfter draws n) := by
  obtain ⟨m, -, hcollect, -, hearlier, hcomplete⟩ := exists_collect_eq gen attempts count draws
  rcases Nat.lt_trichotomy m n with hlt | rfl | hlt
  · exact absurd (hcomplete (Nat.lt_of_lt_of_le hlt hn)) (Nat.ne_of_lt (h.earlier m hlt))
  · exact hcollect
  · exact absurd h.length (Nat.ne_of_lt (hearlier n hlt))

theorem collect_of_length_lt {attempts : Nat}
    (h : (gen.successes draws attempts).length < count) :
    gen.collect attempts count draws =
      (gen.successes draws attempts, gen.sourceAfter draws attempts) := by
  obtain ⟨m, hm, hcollect, -, -, hcomplete⟩ := exists_collect_eq gen attempts count draws
  rcases Nat.lt_or_eq_of_le hm with hlt | rfl
  · have hlength := (successes_isPrefix_of_le gen draws hm).length_le
    rw [hcomplete hlt] at hlength
    omega
  · exact hcollect

theorem completedAt_or_length_lt (gen : Generator) (draws : Draws) (count limit : Nat) :
    (∃ n ≤ limit, gen.CompletedAt draws count n) ∨ (gen.successes draws limit).length < count := by
  obtain ⟨n, hn, -, hlength, hearlier, hcomplete⟩ := exists_collect_eq gen limit count draws
  by_cases heq : (gen.successes draws n).length = count
  · exact .inl ⟨n, hn, heq, hearlier⟩
  · rcases Nat.lt_or_eq_of_le hn with hlt | rfl
    · exact absurd (hcomplete hlt) heq
    · exact .inr (Nat.lt_of_le_of_ne hlength heq)

/-! ## The answer -/

theorem trees_of_completedAt {fuel n : Nat} (h : gen.CompletedAt draws count n)
    (hn : n ≤ gen.maxAttempts.getD fuel) :
    gen.trees fuel count draws =
      (some (.ok (gen.successes draws n)), gen.sourceAfter draws n) := by
  rw [trees, collect_of_completedAt h hn]
  exact if_pos h.length

theorem trees_of_length_lt {fuel : Nat}
    (h : (gen.successes draws (gen.maxAttempts.getD fuel)).length < count) :
    gen.trees fuel count draws =
      (gen.maxAttempts.map fun cap =>
          .error ⟨cap, (gen.successes draws (gen.maxAttempts.getD fuel)).length, count⟩,
        gen.sourceAfter draws (gen.maxAttempts.getD fuel)) := by
  rw [trees, collect_of_length_lt h]
  exact if_neg (Nat.ne_of_lt h)

/-- A count that no allowed attempt completes is reported with what all of them gave. -/
theorem trees_of_not_completedAt {fuel cap : Nat} (hcap : gen.maxAttempts = some cap)
    (hnever : ∀ n ≤ cap, ¬ gen.CompletedAt draws count n) :
    (gen.successes draws cap).length < count ∧
      gen.trees fuel count draws =
        (some (.error ⟨cap, (gen.successes draws cap).length, count⟩),
          gen.sourceAfter draws cap) := by
  have hlt := (completedAt_or_length_lt gen draws count cap).resolve_left
    fun ⟨n, hn, hcompleted⟩ => hnever n hn hcompleted
  have htrees := @trees_of_length_lt gen draws count fuel
  simp only [hcap, Option.getD_some, Option.map_some] at htrees
  exact ⟨hlt, htrees hlt⟩

theorem exists_completedAt_of_trees {fuel : Nat} {ts : List Tree} {after : Draws}
    (h : gen.trees fuel count draws = (some (.ok ts), after)) :
    ∃ n, gen.CompletedAt draws count n ∧ ts = gen.successes draws n ∧
      after = gen.sourceAfter draws n := by
  rcases completedAt_or_length_lt gen draws count (gen.maxAttempts.getD fuel) with
    ⟨n, hn, hcompleted⟩ | hlt
  · rw [trees_of_completedAt hcompleted hn] at h
    cases h
    exact ⟨n, hcompleted, rfl, rfl⟩
  · rw [trees_of_length_lt hlt] at h
    cases hcap : gen.maxAttempts <;> simp [hcap] at h

/-! ## Other bounds on the attempts -/

theorem sourceAfter_maxAttempts (bound : Option Nat) (n : Nat) :
    sourceAfter { gen with maxAttempts := bound } draws n = gen.sourceAfter draws n := by
  induction n with
  | zero => rfl
  | succ n ih =>
    rw [sourceAfter, ih, sourceAfter]
    rfl

/-- A bound on the number of attempts changes none of them. -/
theorem successes_maxAttempts (bound : Option Nat) (n : Nat) :
    successes { gen with maxAttempts := bound } draws n = gen.successes draws n := by
  have hattempt : attempt { gen with maxAttempts := bound } draws = gen.attempt draws := by
    funext n
    rw [attempt, sourceAfter_maxAttempts]
    rfl
  rw [successes, hattempt, successes]

theorem completedAt_maxAttempts_iff (bound : Option Nat) {n : Nat} :
    CompletedAt { gen with maxAttempts := bound } draws count n ↔
      gen.CompletedAt draws count n := by
  constructor
  · rintro ⟨hlength, hearlier⟩
    simp only [successes_maxAttempts] at hlength hearlier
    exact ⟨hlength, hearlier⟩
  · rintro ⟨hlength, hearlier⟩
    constructor
    · rw [successes_maxAttempts, hlength]
    · intro m hm
      rw [successes_maxAttempts]
      exact hearlier m hm

/-! ## Every run -/

theorem generate_of_completedAt {fuel n : Nat} (hroom : HasRoom treeBytes count)
    (h : gen.CompletedAt draws count n) (hn : n ≤ gen.maxAttempts.getD fuel) :
    gen.generate fuel count draws =
      (some (.ok (gen.successes draws n)), gen.sourceAfter draws n) :=
  generate_eq_ok_iff.2 ⟨hroom, trees_of_completedAt h hn⟩

theorem generate_of_not_completedAt {fuel cap : Nat} (hroom : HasRoom treeBytes count)
    (hcap : gen.maxAttempts = some cap) (hnever : ∀ n ≤ cap, ¬ gen.CompletedAt draws count n) :
    gen.generate fuel count draws =
      (some (.error (.exhausted ⟨cap, (gen.successes draws cap).length, count⟩)),
        gen.sourceAfter draws cap) :=
  generate_of_exhausted hroom (trees_of_not_completedAt hcap hnever).2

end Generator

/-! ## What the command prints -/

namespace Command

variable {request : GenerateRequest} {g : Grammar} {fuel : Nat} {unseeded : Draws}

theorem Request.run_generate_of_load {content : Except ReadError ByteArray}
    (h : Grammar.load request.path content = .ok g) (input : List UInt8) (fuel : Nat)
    (unseeded : Draws) :
    (Request.generate request).run content input fuel unseeded = request.run g fuel unseeded := by
  rw [run, h]

theorem GenerateRequest.run_of_completedAt {n : Nat}
    (hroom : HasRoom Generator.treeBytes request.amount)
    (h : (request.generator g).CompletedAt (request.draws unseeded) request.amount n)
    (hn : n ≤ (request.generator g).maxAttempts.getD fuel) :
    request.run g fuel unseeded =
      .done (request.print ((request.generator g).successes (request.draws unseeded) n)) := by
  rw [run, Generator.generate_of_completedAt hroom h hn]

theorem GenerateRequest.run_of_not_completedAt {cap : Nat}
    (hroom : HasRoom Generator.treeBytes request.amount)
    (hcap : (request.generator g).maxAttempts = some cap)
    (hnever : ∀ n ≤ cap, ¬ (request.generator g).CompletedAt (request.draws unseeded)
      request.amount n) :
    request.run g fuel unseeded =
      .failed "" (errorLine (AttemptsExhausted.record ⟨cap,
        ((request.generator g).successes (request.draws unseeded) cap).length,
          request.amount⟩)) := by
  rw [run, Generator.generate_of_not_completedAt hroom hcap hnever]

end Command

/-! ## Counted attempts -/

namespace Generator

variable {gen : Generator} {draws : Draws} {count : Nat}

/-- If there is room for them, trees are sampled by as many attempts as the count needs. If it is
completed within the bound, the answer is the trees of these attempts, whatever the bound is, and
the command prints them all, one after the other and each with a line end; otherwise it says how
many trees the allowed attempts gave, and nothing is printed. -/
theorem generate_of_attempts (gen : Generator) (fuel count : Nat) (draws : Draws)
    (hroom : HasRoom treeBytes count) :
    (∀ n ≤ gen.maxAttempts.getD fuel, gen.CompletedAt draws count n →
      gen.generate fuel count draws =
        (some (.ok (gen.successes draws n)), gen.sourceAfter draws n)) ∧
    (∀ cap, gen.maxAttempts = some cap → (∀ n ≤ cap, ¬ gen.CompletedAt draws count n) →
      (gen.successes draws cap).length < count ∧
      gen.generate fuel count draws =
        (some (.error (.exhausted ⟨cap, (gen.successes draws cap).length, count⟩)),
          gen.sourceAfter draws cap)) ∧
    (∀ bound fuel' ts ts' after after',
      gen.generate fuel count draws = (some (.ok ts), after) →
      generate { gen with maxAttempts := bound } fuel' count draws = (some (.ok ts'), after') →
      ts = ts' ∧ after = after') ∧
    ∀ (request : Command.GenerateRequest) (g : Grammar) content input unseeded,
      Grammar.load request.path content = .ok g → gen = request.generator g →
      count = request.amount → draws = request.draws unseeded →
      (∀ n ≤ gen.maxAttempts.getD fuel, gen.CompletedAt draws count n →
        (Command.Request.generate request).run content input fuel unseeded =
          .done (String.join ((gen.successes draws n).map fun tree =>
            tree.render request.pretty ++ "\n"))) ∧
      ∀ cap, gen.maxAttempts = some cap → (∀ n ≤ cap, ¬ gen.CompletedAt draws count n) →
        (Command.Request.generate request).run content input fuel unseeded =
          .failed "" (Command.errorLine
            (AttemptsExhausted.record ⟨cap, (gen.successes draws cap).length, count⟩)) := by
  refine ⟨fun n hn hcompleted => generate_of_completedAt hroom hcompleted hn, ?_, ?_, ?_⟩
  · intro cap hcap hnever
    exact ⟨(@trees_of_not_completedAt gen draws count fuel cap hcap hnever).1,
      generate_of_not_completedAt hroom hcap hnever⟩
  · intro bound fuel' ts ts' after after' hgenerate hgenerate'
    obtain ⟨n, hcompleted, rfl, rfl⟩ :=
      exists_completedAt_of_trees (generate_eq_ok_iff.1 hgenerate).2
    obtain ⟨n', hcompleted', rfl, rfl⟩ :=
      exists_completedAt_of_trees (generate_eq_ok_iff.1 hgenerate').2
    obtain rfl := hcompleted.unique ((completedAt_maxAttempts_iff bound).1 hcompleted')
    exact ⟨(successes_maxAttempts bound n).symm, (sourceAfter_maxAttempts bound n).symm⟩
  · rintro request g content input unseeded hload rfl rfl rfl
    rw [Command.Request.run_generate_of_load hload]
    exact ⟨fun n hn hcompleted =>
        Command.GenerateRequest.run_of_completedAt hroom hcompleted hn,
      fun cap hcap hnever =>
        Command.GenerateRequest.run_of_not_completedAt hroom hcap hnever⟩

/-! ## Every other attempt -/

def singles : Generator :=
  { pairs with maxDepth := 1 }

def alternating : Draws :=
  .ofList [0, 0xFFFFFFFFFFFFFFFF]

theorem next_alternating (n : Nat) :
    (alternating.advance n).next.1 = if n % 2 = 0 then 0 else 0xFFFFFFFFFFFFFFFF := by
  rcases Nat.mod_two_eq_zero_or_one n with h | h <;>
    simp [alternating, Draws.ofList, Draws.advance, Draws.next, h]

theorem expand_alternating (n : Nat) :
    singles.expand singles.start 0 (alternating.advance n) =
      (if n % 2 = 0 then none else some (.node "S" [.leaf "x"]), alternating.advance (n + 1)) := by
  have hnext := next_alternating n
  rw [← Draws.advance_advance, ← Draws.next_eq_advance]
  generalize alternating.advance n = draws at hnext ⊢
  split at hnext
  · -- a pair is drawn, and there is no room for its words
    have hchoose := @Rule.choose_of_getElem? (pairs.grammar.rulesFor "S") draws _
      (by rw [hnext]; exact getElem?_drawnPosition_pairs.1)
    have hfail : grow pairs.grammar 0 "S" draws.next.2 = (none, draws.next.2) := by
      rw [grow, if_neg (by simp [isTerminal_pairs.1])]
    show grow pairs.grammar 1 "S" draws = _
    rw [grow, if_neg (by simp [isTerminal_pairs.1]), hchoose]
    simp only [Rhs.symbols, sampleAll, hfail, if_pos ‹n % 2 = 0›]
  · have hchoose := @Rule.choose_of_getElem? (pairs.grammar.rulesFor "S") draws _
      (by rw [hnext]; exact getElem?_drawnPosition_pairs.2)
    have hword := grow_of_isTerminal isTerminal_pairs.2 0 draws.next.2
    rw [if_neg ‹¬ n % 2 = 0›]
    refine grow_succ isTerminal_pairs.1 hchoose ?_
    show sampleAll (grow pairs.grammar 0) ["x"] draws.next.2 = _
    simp only [sampleAll, hword]

theorem sourceAfter_alternating (n : Nat) :
    singles.sourceAfter alternating n = alternating.advance n := by
  induction n with
  | zero => rfl
  | succ n ih => rw [sourceAfter, ih, expand_alternating]

theorem successes_alternating (n : Nat) :
    singles.successes alternating n = List.replicate (n / 2) (.node "S" [.leaf "x"]) := by
  induction n with
  | zero => rfl
  | succ n ih =>
    rw [successes_succ, ih, attempt, sourceAfter_alternating, expand_alternating]
    rcases Nat.mod_two_eq_zero_or_one n with h | h
    · have hhalf : (n + 1) / 2 = n / 2 := by omega
      simp [h, hhalf]
    · have hhalf : (n + 1) / 2 = n / 2 + 1 := by omega
      simp [h, hhalf, List.replicate_succ']

theorem completedAt_alternating (count : Nat) :
    singles.CompletedAt alternating count (2 * count) := by
  constructor
  · simp [successes_alternating]
  · intro m hm
    rw [successes_alternating, List.length_replicate]
    omega

def singlesRequest (cap : Nat) : Command.GenerateRequest where
  path := ""
  amount := 2
  start := "S"
  maxDepth := 1
  maxAttempts := some cap

theorem load_pairs : Grammar.load "" (.ok ⟨(Text.bytes pairs.grammar.text).toArray⟩) =
    .ok pairs.grammar := by
  have hletters : IsSymbol ['S'] ∧ IsSymbol ['x'] := by decide
  exact Grammar.load_bytes (Grammar.ofText_text_ofRules (List.cons_ne_nil _ _)
    (by simp [Rhs.symbols, hletters]) (by simp [Binary64.isWeight_ofNat_one]))

/-- The second word is found by the last of four attempts, and three attempts are too few. -/
theorem generate_of_attempts_alternating :
    HasRoom treeBytes 2 ∧
    generate { singles with maxAttempts := some 4 } 0 2 alternating =
      (some (.ok [.node "S" [.leaf "x"], .node "S" [.leaf "x"]]), alternating.advance 4) ∧
    generate { singles with maxAttempts := some 3 } 0 2 alternating =
      (some (.error (.exhausted ⟨3, 1, 2⟩)), alternating.advance 3) ∧
    (Command.Request.generate (singlesRequest 4)).run
      (.ok ⟨(Text.bytes pairs.grammar.text).toArray⟩) [] 0 alternating =
        .done "(S x)\n(S x)\n" ∧
    (Command.Request.generate (singlesRequest 3)).run
      (.ok ⟨(Text.bytes pairs.grammar.text).toArray⟩) [] 0 alternating =
        .failed "" "Error: AttemptsExhausted \x7b attempts: 3, produced: 1, wanted: 2 \x7d\n" := by
  have hroom : HasRoom treeBytes 2 := by decide
  have hcompleted := (completedAt_maxAttempts_iff (some 4)).2 (completedAt_alternating 2)
  have hfew : (singles.successes alternating 3).length < 2 := by
    rw [successes_alternating]
    decide
  have hnever : ∀ n ≤ 3, ¬ CompletedAt { singles with maxAttempts := some 3 } alternating 2 n := by
    intro n hn
    rw [completedAt_maxAttempts_iff]
    exact not_completedAt_of_length_lt hfew hn
  obtain ⟨hfour, -, -, hprinted⟩ :=
    generate_of_attempts { singles with maxAttempts := some 4 } 0 2 alternating hroom
  obtain ⟨-, hthree, -, hnothing⟩ :=
    generate_of_attempts { singles with maxAttempts := some 3 } 0 2 alternating hroom
  have hfour := hfour 4 (Nat.le_refl 4) hcompleted
  have hthree := (hthree 3 rfl hnever).2
  have hprinted := (hprinted (singlesRequest 4) _ _ [] alternating load_pairs rfl rfl rfl).1 4
    (Nat.le_refl 4) hcompleted
  have hnothing := (hnothing (singlesRequest 3) _ _ [] alternating load_pairs rfl rfl rfl).2 3 rfl
    hnever
  rw [successes_maxAttempts, successes_alternating] at hfour hthree hprinted hnothing
  rw [sourceAfter_maxAttempts, sourceAfter_alternating] at hfour hthree
  exact ⟨hroom, hfour, hthree, hprinted, hnothing⟩

/-! ## Too many trees -/

/-- The one rule makes two of its symbol, so no tree is ever finished. -/
def rootPairs : Generator where
  grammar := .ofRules [⟨"ROOT", .binary "ROOT" "ROOT", 1⟩]
  maxAttempts := some 10

theorem fst_grow_rootPairs (height : Nat) (draws : Draws) :
    (grow rootPairs.grammar height "ROOT" draws).1 = none := by
  have hnonterminal : rootPairs.grammar.isTerminal "ROOT" = false := by
    simp [Grammar.isTerminal_eq_false_iff, rootPairs]
  induction height generalizing draws with
  | zero => rw [grow, if_neg (by simp [hnonterminal])]
  | succ height ih =>
    obtain ⟨chosen, hchoose, hchosen⟩ :=
      Rule.exists_choose_eq (Grammar.rulesFor_ne_nil hnonterminal) draws
    have hrule : chosen.rule = ⟨"ROOT", .binary "ROOT" "ROOT", 1⟩ := by
      simpa [Grammar.rulesFor_eq, rootPairs] using hchosen
    have hfirst := ih draws.next.2
    rw [grow, if_neg (by simp [hnonterminal]), hchoose]
    simp only [hrule, Rhs.symbols, sampleAll]
    generalize grow rootPairs.grammar height "ROOT" draws.next.2 = first at hfirst ⊢
    obtain ⟨tree, rest⟩ := first
    obtain rfl := hfirst
    rfl

theorem successes_rootPairs (draws : Draws) (n : Nat) : rootPairs.successes draws n = [] := by
  rw [successes, List.filterMap_eq_nil_iff]
  exact fun _ _ => fst_grow_rootPairs _ _

/-- Ten attempts give nothing, so they complete no count; but for the greatest count there is no
room, and this is reported before any attempt and not that the attempts were too few. -/
theorem not_exhausted_rootPairs :
    (∀ n ≤ 10, ¬ rootPairs.CompletedAt (.ofList []) 18446744073709551615 n) ∧
      (rootPairs.successes (.ofList []) 10).length = 0 ∧
      rootPairs.generate 0 18446744073709551615 (.ofList []) =
        (some (.error (.oversize .list)), .ofList []) ∧
      (Command.GenerateRequest.run
        { path := "", amount := 18446744073709551615, maxAttempts := some 10 }
        rootPairs.grammar 0 (.ofList [])).exitCode = 101 := by
  have hroom : ¬ HasRoom treeBytes 18446744073709551615 := by decide
  refine ⟨?_, by rw [successes_rootPairs]; rfl, generate_of_not_hasRoom hroom _ _ _, ?_⟩
  · intro n hn
    refine not_completedAt_of_length_lt ?_ hn
    rw [successes_rootPairs]
    decide
  · rw [Command.GenerateRequest.run, generate_of_not_hasRoom hroom]
    rfl

end Generator

end PhraseStructure
