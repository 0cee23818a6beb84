import PhraseStructure.Proofs.Generation.DepthBound

/-!
# Runs that are continued

A run stops with the attempt that completes its count, so the next run takes up the source where a
longer run would have gone on (`CompletedAt.add`, `CompletedAt.exists_add`). Without a bound on the
attempts a run for two numbers of trees together is therefore one run after the other, and what the
command prints for fewer trees is where its answer for more of them begins.
-/

namespace PhraseStructure

namespace Generator

variable {gen : Generator} {draws : Draws} {a b count : Nat}

/-! ## Counts one after another -/

/-- Counts that are completed one after the other are completed together by all the attempts. -/
theorem CompletedAt.add {m n : Nat} (hm : gen.CompletedAt draws a m)
    (hn : gen.CompletedAt (gen.sourceAfter draws m) b n) :
    gen.CompletedAt draws (a + b) (m + n) where
  length := by rw [successes_add, List.length_append, hm.length, hn.length]
  earlier := by
    intro k hk
    rcases Nat.lt_or_ge k m with hlt | hge
    · exact Nat.lt_add_right b (hm.earlier k hlt)
    · obtain ⟨i, rfl⟩ := Nat.exists_eq_add_of_le hge
      have hrest := hn.earlier i (by omega)
      rw [successes_add, List.length_append, hm.length]
      omega

/-- When a count is completed a part of it was completed before, and the rest after that. -/
theorem CompletedAt.exists_add {k : Nat} (h : gen.CompletedAt draws (a + b) k) :
    ∃ m n, gen.CompletedAt draws a m ∧ gen.CompletedAt (gen.sourceAfter draws m) b n ∧
      k = m + n := by
  rcases completedAt_or_length_lt gen draws a k with ⟨m, hle, hm⟩ | hlt
  · obtain ⟨n, rfl⟩ := Nat.exists_eq_add_of_le hle
    have hlength : ∀ i, (gen.successes draws (m + i)).length =
        a + (gen.successes (gen.sourceAfter draws m) i).length := by
      intro i
      rw [successes_add, List.length_append, hm.length]
    refine ⟨m, n, hm, ⟨?_, ?_⟩, rfl⟩
    · have hall := h.length
      rw [hlength] at hall
      omega
    · intro i hi
      have hfewer := h.earlier (m + i) (Nat.add_lt_add_left hi m)
      rw [hlength] at hfewer
      omega
  · rw [h.length] at hlt
    omega

/-! ## Runs that end -/

/-- A run for some trees ends: with enough attempts these are the trees, and this is the source that
is left. -/
def Samples (gen : Generator) (count : Nat) (draws : Draws) (ts : List Tree) (after : Draws) :
    Prop :=
  ∃ fuel, gen.trees fuel count draws = (some (.ok ts), after)

theorem samples_iff (hcap : gen.maxAttempts = none) {ts : List Tree} {after : Draws} :
    gen.Samples count draws ts after ↔ ∃ n, gen.CompletedAt draws count n ∧
      ts = gen.successes draws n ∧ after = gen.sourceAfter draws n := by
  constructor
  · rintro ⟨fuel, htrees⟩
    exact exists_completedAt_of_trees htrees
  · rintro ⟨n, hcompleted, rfl, rfl⟩
    exact ⟨n, trees_of_completedAt hcompleted (by rw [hcap]; exact Nat.le_refl n)⟩

theorem exists_generate_eq_ok_iff {ts : List Tree} {after : Draws} :
    (∃ fuel, gen.generate fuel count draws = (some (.ok ts), after)) ↔
      HasRoom treeBytes count ∧ gen.Samples count draws ts after := by
  simp only [generate_eq_ok_iff, exists_and_left, Samples]

theorem Samples.unique {ts ts' : List Tree} {after after' : Draws}
    (h : gen.Samples count draws ts after) (h' : gen.Samples count draws ts' after') :
    ts = ts' ∧ after = after' := by
  obtain ⟨_, htrees⟩ := h
  obtain ⟨_, htrees'⟩ := h'
  obtain ⟨n, hcompleted, rfl, rfl⟩ := exists_completedAt_of_trees htrees
  obtain ⟨n', hcompleted', rfl, rfl⟩ := exists_completedAt_of_trees htrees'
  obtain rfl := hcompleted.unique hcompleted'
  exact ⟨rfl, rfl⟩

theorem samples_add_iff (hcap : gen.maxAttempts = none) {ts : List Tree} {after : Draws} :
    gen.Samples (a + b) draws ts after ↔ ∃ front between rest,
      gen.Samples a draws front between ∧ gen.Samples b between rest after ∧
        ts = front ++ rest := by
  constructor
  · intro h
    obtain ⟨k, hcompleted, rfl, rfl⟩ := (samples_iff hcap).1 h
    obtain ⟨m, n, hm, hn, rfl⟩ := hcompleted.exists_add
    refine ⟨_, _, _, (samples_iff hcap).2 ⟨m, hm, rfl, rfl⟩,
      (samples_iff hcap).2 ⟨n, hn, rfl, ?_⟩, successes_add m n⟩
    exact sourceAfter_add m n
  · rintro ⟨front, between, rest, hfront, hrest, rfl⟩
    obtain ⟨m, hm, rfl, rfl⟩ := (samples_iff hcap).1 hfront
    obtain ⟨n, hn, rfl, rfl⟩ := (samples_iff hcap).1 hrest
    exact (samples_iff hcap).2
      ⟨m + n, hm.add hn, (successes_add m n).symm, (sourceAfter_add m n).symm⟩

end Generator

/-! ## What the command prints -/

namespace Command

variable {request : GenerateRequest} {fuel : Nat} {unseeded : Draws}
  {printed : String}

theorem GenerateRequest.print_append (request : GenerateRequest) (ts us : List Tree) :
    request.print (ts ++ us) = request.print ts ++ request.print us := by
  rw [print, List.map_append, String.join_append, print, print]

/-- Trees are printed exactly if they have room and the run for them ends. -/
theorem GenerateRequest.run_eq_done_iff {g : Grammar} :
    request.run g fuel unseeded = .done printed ↔
      HasRoom Generator.treeBytes request.amount ∧ ∃ ts after,
        (request.generator g).trees fuel request.amount (request.draws unseeded) =
          (some (.ok ts), after) ∧ printed = request.print ts := by
  have hgenerate : request.run g fuel unseeded = .done printed ↔ ∃ ts after,
      (request.generator g).generate fuel request.amount (request.draws unseeded) =
        (some (.ok ts), after) ∧ printed = request.print ts := by
    rw [run]
    generalize (request.generator g).generate fuel request.amount
      (request.draws unseeded) = outcome
    rcases outcome with ⟨_ | (_ | _) | ts, after⟩ <;> simp [eq_comm]
  rw [hgenerate]
  simp only [Generator.generate_eq_ok_iff, and_assoc, exists_and_left]

theorem Request.run_generate_eq_done_iff {content : Except ReadError ByteArray}
    {input : List UInt8} :
    (Request.generate request).run content input fuel unseeded = .done printed ↔
      ∃ g, Grammar.load request.path content = .ok g ∧
        request.run g fuel unseeded = .done printed := by
  rw [run]
  cases Grammar.load request.path content <;> simp

theorem Request.run_generate_unique {content : Except ReadError ByteArray}
    {input input' : List UInt8} {fuel' : Nat} {unseeded' : Draws} {printed' : String}
    (h : (Request.generate request).run content input fuel unseeded = .done printed)
    (h' : (Request.generate request).run content input' fuel' unseeded' = .done printed')
    (hdraws : request.draws unseeded' = request.draws unseeded) : printed = printed' := by
  obtain ⟨g, hload, hrun⟩ := run_generate_eq_done_iff.1 h
  obtain ⟨g', hload', hrun'⟩ := run_generate_eq_done_iff.1 h'
  obtain rfl : g = g' := Except.ok.inj (hload.symm.trans hload')
  obtain ⟨-, ts, after, htrees, rfl⟩ := GenerateRequest.run_eq_done_iff.1 hrun
  obtain ⟨-, ts', after', htrees', rfl⟩ := GenerateRequest.run_eq_done_iff.1 hrun'
  rw [hdraws] at htrees'
  obtain ⟨rfl, -⟩ := Generator.Samples.unique ⟨fuel, htrees⟩ ⟨fuel', htrees'⟩
  rfl

/-- Where a run for more trees ends so does one for fewer, with the beginning of what is printed. -/
theorem Request.exists_run_generate_of_add {content : Except ReadError ByteArray}
    {input : List UInt8} {a b : Nat} (hcap : request.maxAttempts = none)
    (h : (Request.generate { request with amount := a + b }).run content input fuel unseeded =
      .done printed) :
    ∃ fuel' front rest, (Request.generate { request with amount := a }).run content input fuel'
      unseeded = .done front ∧ printed = front ++ rest := by
  obtain ⟨g, hload, hrun⟩ := run_generate_eq_done_iff.1 h
  obtain ⟨hroom, ts, after, htrees, rfl⟩ := GenerateRequest.run_eq_done_iff.1 hrun
  have hsamples : (request.generator g).Samples (a + b) (request.draws unseeded) ts after :=
    ⟨fuel, htrees⟩
  obtain ⟨front, between, rest, ⟨fuel', hfront⟩, -, rfl⟩ :=
    (Generator.samples_add_iff hcap).1 hsamples
  exact ⟨fuel', request.print front, request.print rest, run_generate_eq_done_iff.2
    ⟨g, hload, GenerateRequest.run_eq_done_iff.2
      ⟨hroom.mono (Nat.le_add_right a b), front, between, hfront, rfl⟩⟩,
    request.print_append front rest⟩

end Command

/-! ## Every run -/

namespace Generator

/-- Without a bound on the attempts a run for `a + b` trees ends exactly if a run for `a` trees and
one for `b` trees behind it do, with the trees of the one and then of the other, and with the same
source left; and runs that end agree. Where there is room the trees of a run that ends are
generated. So if the command ends for `a + b` trees it does for `a` trees on the same draws, and
what it prints for these is the beginning of what it prints for those. -/
theorem samples_add (gen : Generator) (hcap : gen.maxAttempts = none) (draws : Draws)
    (a b : Nat) :
    (∀ ts after, gen.Samples (a + b) draws ts after ↔ ∃ front between rest,
      gen.Samples a draws front between ∧ gen.Samples b between rest after ∧
        ts = front ++ rest) ∧
    (∀ count ts ts' after after', gen.Samples count draws ts after →
      gen.Samples count draws ts' after' → ts = ts' ∧ after = after') ∧
    (∀ count draws ts after, (∃ fuel, gen.generate fuel count draws = (some (.ok ts), after)) ↔
      HasRoom treeBytes count ∧ gen.Samples count draws ts after) ∧
    ∀ (request : Command.GenerateRequest) content input fuel unseeded whole,
      request.maxAttempts = none →
      (Command.Request.generate { request with amount := a + b }).run content input fuel unseeded =
        .done whole →
      (∃ fuel' front, (Command.Request.generate { request with amount := a }).run content input
        fuel' unseeded = .done front) ∧
      ∀ input' fuel' unseeded' front,
        request.draws unseeded' = request.draws unseeded →
        (Command.Request.generate { request with amount := a }).run content input' fuel'
          unseeded' = .done front →
        ∃ rest, whole = front ++ rest := by
  refine ⟨fun ts after => samples_add_iff hcap, fun _ _ _ _ _ => Samples.unique,
    fun _ _ _ _ => exists_generate_eq_ok_iff, ?_⟩
  intro request content input fuel unseeded whole hnone hwhole
  obtain ⟨fuel', front, rest, hfront, rfl⟩ :=
    Command.Request.exists_run_generate_of_add hnone hwhole
  refine ⟨⟨fuel', front, hfront⟩, ?_⟩
  intro input' fuel'' unseeded' printed hdraws hprinted
  obtain rfl := Command.Request.run_generate_unique hfront hprinted hdraws
  exact ⟨rest, rfl⟩

theorem ofText_twoWords : Grammar.ofText twoWords.grammar.text = .ok twoWords.grammar := by
  have hletters : IsSymbol ['S'] ∧ IsSymbol ['A'] ∧ IsSymbol ['x'] ∧ IsSymbol ['y'] := by
    decide
  exact Grammar.ofText_text_ofRules (List.cons_ne_nil _ _) (by simp [Rhs.symbols, hletters])
    (by simp [Binary64.isWeight_ofNat_one])

/-- The command for sentences of two words ends as soon as it may make enough attempts. -/
theorem run_generate_twoWords {amount fuel : Nat} (h : amount ≤ fuel)
    (hroom : HasRoom treeBytes amount) (unseeded : Draws) :
    ∃ printed, (Command.Request.generate
        { path := "", start := "S", maxDepth := 2, amount := amount }).run
      (.ok ⟨(Text.bytes twoWords.grammar.text).toArray⟩) [] fuel unseeded = .done printed := by
  have hcompleted := @completedAt_of_forall_isDescent { twoWords with maxAttempts := none }
    (fun chain hchain => Nat.ne_of_lt (Nat.lt_succ_of_le (length_descent_twoWords hchain)))
    unseeded amount
  exact ⟨_, Command.Request.run_generate_eq_done_iff.2 ⟨_, Grammar.load_bytes ofText_twoWords,
    Command.GenerateRequest.run_eq_done_iff.2
      ⟨hroom, _, _, trees_of_completedAt hcompleted h, rfl⟩⟩⟩

/-- Three words are one word and then two more from where the first one left the source, and the
command prints one sentence as the first of three. -/
theorem samples_add_alternating :
    (singles.maxAttempts = none ∧ singles.Samples 3 alternating
      (List.replicate 3 (.node "S" [.leaf "x"])) (alternating.advance 6)) ∧
    (∃ between rest, singles.Samples 1 alternating [.node "S" [.leaf "x"]] between ∧
      singles.Samples 2 between rest (alternating.advance 6) ∧
      List.replicate 3 (.node "S" [.leaf "x"]) = [.node "S" [.leaf "x"]] ++ rest) ∧
    ∀ unseeded, ∃ whole front rest,
      (Command.Request.generate { path := "", start := "S", maxDepth := 2, amount := 3 }).run
        (.ok ⟨(Text.bytes twoWords.grammar.text).toArray⟩) [] 3 unseeded = .done whole ∧
      (Command.Request.generate { path := "", start := "S", maxDepth := 2, amount := 1 }).run
        (.ok ⟨(Text.bytes twoWords.grammar.text).toArray⟩) [] 1 unseeded = .done front ∧
      whole = front ++ rest := by
  have hsamples : ∀ count, singles.Samples count alternating
      (List.replicate count (.node "S" [.leaf "x"])) (alternating.advance (2 * count)) := by
    intro count
    refine (samples_iff rfl).2 ⟨2 * count, completedAt_alternating count, ?_, ?_⟩
    · rw [successes_alternating, Nat.mul_div_cancel_left count Nat.two_pos]
    · rw [sourceAfter_alternating]
  obtain ⟨hadd, hunique, -, hcommand⟩ := samples_add singles rfl alternating 1 2
  obtain ⟨front, between, rest, hfront, hrest, hall⟩ := (hadd _ _).1 (hsamples 3)
  obtain ⟨rfl, -⟩ := hunique 1 _ _ _ _ hfront (hsamples 1)
  refine ⟨⟨rfl, hsamples 3⟩, ⟨between, rest, hfront, hrest, hall⟩, ?_⟩
  intro unseeded
  obtain ⟨whole, hwhole⟩ := run_generate_twoWords (Nat.le_refl 3) (by decide) unseeded
  obtain ⟨front, hone⟩ := run_generate_twoWords (Nat.le_refl 1) (by decide) unseeded
  obtain ⟨rest, heq⟩ := (hcommand { path := "", start := "S", maxDepth := 2 } _ _ _ _ _ rfl
    hwhole).2 _ _ _ _ rfl hone
  exact ⟨whole, front, rest, hwhole, hone, heq⟩

end Generator

end PhraseStructure
