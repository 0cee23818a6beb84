import Mathlib.Data.List.Perm.Basic
import PhraseStructure.Command.Outcome
import PhraseStructure.Proofs.Chart.Reconstruction
import PhraseStructure.Proofs.Grammar.Nonterminals
import PhraseStructure.Proofs.RoundTrip.Tokens
import PhraseStructure.Proofs.Text.Bytes

/-!
# Parsing line by line

Parsing answers each line of the standard input by itself and keeps nothing but a tally from one
line to the next. So the answers to two inputs in a row are those to the first and then those to
the second, and the share at the end depends only on which lines were answered
(`ParseRequest.run_append`). A line that is no text ends the run, after the answers to the lines
before it and without a share.
-/

namespace PhraseStructure

theorem RoundTrip.isExact_eq (g : Grammar) (line : String) :
    isExact g line = decide (reparse g line = .ok line) := by
  rw [isExact]
  cases reparse g line <;> simp

namespace Command.ParseRequest

variable (request : ParseRequest) (g : Grammar)

/-! ## Lines and answers -/

/-- The lines up to the first that is no text, and whether there is such a line. -/
def decodeLines : List (List UInt8) → List String × Bool
  | [] => ([], false)
  | bytes :: rest =>
    match String.fromUTF8? ⟨bytes.toArray⟩ with
    | none => ([], true)
    | some line =>
      let (lines, broken) := decodeLines rest
      (line :: lines, broken)

def answer (line : String) : String :=
  if isAnswered line then request.chartText g line ++ request.treeText g line else ""

/-- The answers to the lines of an input, up to the first line that is no text. -/
def answers (input : List UInt8) : String :=
  String.join ((decodeLines (Text.byteLines input)).1.map (request.answer g))

/-- A tally that counts some more lines, where lines are compared. -/
def tallyAfter (tally : RoundTrip) (lines : List String) : RoundTrip :=
  let answered := lines.filter isAnswered
  if request.compares then
    ⟨tally.total + answered.length, tally.correct + answered.countP (RoundTrip.isExact g)⟩
  else tally

/-- The share of the answered lines that come back exactly, on a line of its own, or nothing where
lines are not compared or none is answered. -/
def shareLine (lines : List String) : String :=
  let answered := lines.filter isAnswered
  if request.root = Grammar.parseRoot ∧ request.pretty = false ∧ answered ≠ [] then
    let correct := answered.countP fun line => RoundTrip.reparse g line = .ok line
    Decimal.inFull (Float.ofNat correct / Float.ofNat answered.length) ++ "\n"
  else ""

/-! ## One line after the other -/

@[simp] theorem tallyAfter_nil (tally : RoundTrip) : request.tallyAfter g tally [] = tally := by
  unfold tallyAfter
  split <;> rfl

theorem tallyAfter_cons (tally : RoundTrip) (line : String) (lines : List String) :
    request.tallyAfter g tally (line :: lines) =
      request.tallyAfter g (request.tallyAfter g tally [line]) lines := by
  have hsplit : (line :: lines).filter isAnswered =
      [line].filter isAnswered ++ lines.filter isAnswered :=
    List.filter_append [line] lines
  unfold tallyAfter
  split
  · simp only [hsplit, List.length_append, List.countP_append, Nat.add_assoc]
  · rfl

/-- A step prints the answer to its line and counts it, whatever came before. -/
theorem step_eq (progress : Progress) (line : String) :
    request.step g progress line =
      ⟨progress.printed ++ request.answer g line, request.tallyAfter g progress.tally [line]⟩ := by
  unfold step answer tallyAfter
  by_cases hanswered : isAnswered line = true
  · simp only [hanswered, if_true, List.filter_cons_of_pos, List.filter_nil, List.length_singleton,
      List.countP_singleton, RoundTrip.record]
  · simp [hanswered]

/-- Going over lines prints the answer to each of them and counts those that are compared. -/
theorem runFrom_eq (progress : Progress) (raws : List (List UInt8)) :
    request.runFrom g progress raws =
      let printed := progress.printed ++
        String.join ((decodeLines raws).1.map (request.answer g))
      if (decodeLines raws).2 then .failed printed (errorLine ReadError.notText.record)
      else .done (printed ++
        summary (request.tallyAfter g progress.tally (decodeLines raws).1)) := by
  induction raws generalizing progress with
  | nil => simp [runFrom, decodeLines]
  | cons raw rest ih =>
    rw [runFrom, decodeLines]
    cases String.fromUTF8? ⟨raw.toArray⟩ with
    | none => simp
    | some line =>
      dsimp only
      rw [ih, step_eq, ← tallyAfter_cons, List.map_cons, String.join_cons]
      simp only [String.append_assoc]

/-! ## The share -/

theorem summary_tallyAfter (lines : List String) :
    summary (request.tallyAfter g {} lines) = request.shareLine g lines := by
  have hcompares : request.compares = true ↔
      request.root = Grammar.parseRoot ∧ request.pretty = false := by
    simp [compares]
  rw [tallyAfter, shareLine]
  by_cases hcompared : request.compares = true
  · obtain ⟨hroot, hpretty⟩ := hcompares.1 hcompared
    rw [if_pos hcompared, summary, RoundTrip.accuracy]
    by_cases hnone : lines.filter isAnswered = []
    · simp [hnone]
    · have htotal : 0 + (lines.filter isAnswered).length ≠ 0 := by simpa using hnone
      have hexact : RoundTrip.isExact g =
          fun line => decide (RoundTrip.reparse g line = .ok line) :=
        funext (RoundTrip.isExact_eq g)
      rw [if_neg htotal, if_pos ⟨hroot, hpretty, hnone⟩, hexact, Nat.zero_add, Nat.zero_add]
  · rw [if_neg hcompared, if_neg fun h => hcompared (hcompares.2 ⟨h.1, h.2.1⟩)]
    rfl

theorem shareLine_perm {lines lines' : List String} (h : lines.Perm lines') :
    request.shareLine g lines = request.shareLine g lines' := by
  have hanswered := h.filter isAnswered
  have hnil : lines.filter isAnswered = [] ↔ lines'.filter isAnswered = [] := by
    constructor <;> intro hnil
    · exact (hnil ▸ hanswered).nil_eq.symm
    · exact (hnil ▸ hanswered).eq_nil
  rw [shareLine, shareLine, hanswered.countP_eq, hanswered.length_eq]
  simp only [ne_eq, hnil]

/-! ## Lines that are texts -/

theorem decodeLines_append (lines : List String) (rest : List (List UInt8)) :
    decodeLines (lines.map Text.bytes ++ rest) =
      (lines ++ (decodeLines rest).1, (decodeLines rest).2) := by
  induction lines with
  | nil => rfl
  | cons line lines ih =>
    rw [List.map_cons, List.cons_append, decodeLines, Text.fromUTF8?_bytes, ih]
    rfl

theorem decodeLines_map (lines : List String) :
    decodeLines (lines.map Text.bytes) = (lines, false) := by
  simpa [decodeLines] using decodeLines_append lines []

theorem decodeLines_append_of_not_isText (lines : List String) {raw : List UInt8}
    (h : ¬ Text.IsText raw) (rest : List (List UInt8)) :
    decodeLines (lines.map Text.bytes ++ raw :: rest) = (lines, true) := by
  rw [decodeLines_append, decodeLines, Text.fromUTF8?_eq_none_iff.2 h, List.append_nil]

theorem exists_lines (raws : List (List UInt8)) :
    (∃ lines : List String, raws = lines.map Text.bytes) ∨
      ∃ (lines : List String) (raw : List UInt8) (rest : List (List UInt8)),
        raws = lines.map Text.bytes ++ raw :: rest ∧ ¬ Text.IsText raw := by
  induction raws with
  | nil => exact .inl ⟨[], rfl⟩
  | cons raw raws ih =>
    by_cases htext : Text.IsText raw
    · obtain ⟨line, rfl⟩ := htext
      rcases ih with ⟨lines, rfl⟩ | ⟨lines, bad, rest, rfl, hbad⟩
      · exact .inl ⟨line :: lines, rfl⟩
      · exact .inr ⟨line :: lines, bad, rest, rfl, hbad⟩
    · exact .inr ⟨[], raw, raws, rfl, htext⟩

/-! ## Runs -/

/-- A run prints the answers, and at its end the share if every line was a text. -/
theorem run_eq (input : List UInt8) :
    request.run g input =
      if (decodeLines (Text.byteLines input)).2 then
        .failed (request.answers g input) (errorLine ReadError.notText.record)
      else .done (request.answers g input ++
        request.shareLine g (decodeLines (Text.byteLines input)).1) := by
  rw [run, runFrom_eq, summary_tallyAfter]
  simp only [String.empty_append, answers]

variable {text : String}

theorem decodeLines_byteLines_append (h : Text.EndsLine '\n' text.toList) (rest : List UInt8) :
    decodeLines (Text.byteLines (Text.bytes text ++ rest)) =
      (Text.stringLines text ++ (decodeLines (Text.byteLines rest)).1,
        (decodeLines (Text.byteLines rest)).2) := by
  rw [Text.byteLines_append h, decodeLines_append]

theorem answers_bytes (text : String) :
    request.answers g (Text.bytes text) =
      String.join ((Text.stringLines text).map (request.answer g)) := by
  rw [answers, Text.byteLines_bytes, decodeLines_map]

theorem answers_append (h : Text.EndsLine '\n' text.toList) (rest : List UInt8) :
    request.answers g (Text.bytes text ++ rest) =
      request.answers g (Text.bytes text) ++ request.answers g rest := by
  rw [answers_bytes, answers, decodeLines_byteLines_append h, List.map_append, String.join_append]
  rfl

/-! ## Blank lines -/

theorem isAnswered_eq_false {line : String} (h : line.toList.all Text.isBlank = true) :
    isAnswered line = false := by
  rw [isAnswered, h]
  rfl

theorem join_map_answer (lines : List String) :
    String.join (lines.map (request.answer g)) =
      String.join ((lines.filter isAnswered).map (request.answer g)) := by
  induction lines with
  | nil => rfl
  | cons line lines ih =>
    rw [List.map_cons, String.join_cons, ih]
    by_cases hanswered : isAnswered line = true
    · rw [List.filter_cons_of_pos hanswered, List.map_cons, String.join_cons]
    · rw [List.filter_cons_of_neg hanswered, answer, if_neg hanswered, String.empty_append]

theorem run_congr {input input' : List UInt8}
    (hbroken : (decodeLines (Text.byteLines input)).2 = (decodeLines (Text.byteLines input')).2)
    (hanswered : (decodeLines (Text.byteLines input)).1.filter isAnswered =
      (decodeLines (Text.byteLines input')).1.filter isAnswered) :
    request.run g input = request.run g input' := by
  have hanswers : request.answers g input = request.answers g input' := by
    rw [answers, join_map_answer, hanswered, ← join_map_answer]
    rfl
  have hshare : request.shareLine g (decodeLines (Text.byteLines input)).1 =
      request.shareLine g (decodeLines (Text.byteLines input')).1 := by
    rw [shareLine, hanswered]
    rfl
  rw [run_eq, run_eq, hbroken, hanswers, hshare]

theorem decodeLines_append_blank (before after : List (List UInt8)) {blank : String}
    (h : isAnswered blank = false) :
    (decodeLines (before ++ Text.bytes blank :: after)).2 = (decodeLines (before ++ after)).2 ∧
      (decodeLines (before ++ Text.bytes blank :: after)).1.filter isAnswered =
        (decodeLines (before ++ after)).1.filter isAnswered := by
  rcases exists_lines before with ⟨lines, rfl⟩ | ⟨lines, raw, rest, rfl, hraw⟩
  · rw [decodeLines_append, decodeLines_append, decodeLines, Text.fromUTF8?_bytes,
      List.filter_append, List.filter_append]
    refine ⟨rfl, ?_⟩
    show _ ++ (blank :: _).filter isAnswered = _
    rw [List.filter_cons_of_neg (by rw [h]; decide)]
  · -- the run ends before it comes to the blank line
    rw [List.append_assoc, List.append_assoc, List.cons_append, List.cons_append,
      decodeLines_append_of_not_isText lines hraw, decodeLines_append_of_not_isText lines hraw]
    exact ⟨rfl, rfl⟩

/-- Parsing is a map over the lines of the standard input, with a share of exact lines at the end:
the answers to a text of finished lines and then any bytes are those to the text and then those to
the bytes, and a run is the same without any of its blank lines. If all the bytes are text, the
share of all the lines follows, in any order of the lines the same; a line that is no text ends the
run with an error after the answers to the lines before it. -/
theorem run_append (h : Text.EndsLine '\n' text.toList) (rest : List UInt8) :
    request.answers g (Text.bytes text ++ rest) =
        request.answers g (Text.bytes text) ++ request.answers g rest ∧
    (∀ (input input' : List UInt8) (before after : List (List UInt8)) (blank : String),
      Text.byteLines input = before ++ Text.bytes blank :: after →
      Text.byteLines input' = before ++ after → blank.toList.all Text.isBlank = true →
      request.run g input = request.run g input') ∧
    ((∀ raw ∈ Text.byteLines rest, Text.IsText raw) →
      ∃ lines : List String, Text.byteLines rest = lines.map Text.bytes ∧
        request.run g (Text.bytes text ++ rest) =
          .done (request.answers g (Text.bytes text ++ rest) ++
            request.shareLine g (Text.stringLines text ++ lines)) ∧
        ∀ lines' : List String, (Text.stringLines text ++ lines).Perm lines' →
          request.shareLine g lines' = request.shareLine g (Text.stringLines text ++ lines)) ∧
    ((∃ raw ∈ Text.byteLines rest, ¬ Text.IsText raw) →
      ∃ (lines : List String) (raw : List UInt8) (others : List (List UInt8)),
        Text.byteLines rest = lines.map Text.bytes ++ raw :: others ∧ ¬ Text.IsText raw ∧
        request.answers g (Text.bytes text ++ rest) =
          String.join ((Text.stringLines text ++ lines).map (request.answer g)) ∧
        request.run g (Text.bytes text ++ rest) =
          .failed (request.answers g (Text.bytes text ++ rest))
            (errorLine ReadError.notText.record) ∧
        (request.run g (Text.bytes text ++ rest)).exitCode = 1) := by
  refine ⟨request.answers_append g h rest, ?_, ?_, ?_⟩
  · intro input input' before after blank hinput hinput' hblank
    have hsame := decodeLines_append_blank before after (isAnswered_eq_false hblank)
    rw [← hinput, ← hinput'] at hsame
    exact request.run_congr g hsame.1 hsame.2
  · intro htexts
    rcases exists_lines (Text.byteLines rest) with
      ⟨lines, hlines⟩ | ⟨lines, raw, others, hlines, hraw⟩
    · refine ⟨lines, hlines, ?_, fun lines' hperm => (request.shareLine_perm g hperm).symm⟩
      rw [run_eq, decodeLines_byteLines_append h, hlines, decodeLines_map]
      rfl
    · exact absurd (htexts raw (by rw [hlines]; simp)) hraw
  · rintro ⟨raw, hmem, hraw⟩
    rcases exists_lines (Text.byteLines rest) with
      ⟨lines, hlines⟩ | ⟨lines, bad, others, hlines, hbad⟩
    · rw [hlines] at hmem
      obtain ⟨line, -, rfl⟩ := List.mem_map.1 hmem
      exact absurd (Text.isText_bytes line) hraw
    · have hdecode : decodeLines (Text.byteLines (Text.bytes text ++ rest)) =
          (Text.stringLines text ++ lines, true) := by
        rw [decodeLines_byteLines_append h, hlines, decodeLines_append_of_not_isText lines hbad]
      have hrun : request.run g (Text.bytes text ++ rest) =
          .failed (request.answers g (Text.bytes text ++ rest))
            (errorLine ReadError.notText.record) := by
        rw [run_eq, hdecode]
        rfl
      refine ⟨lines, bad, others, hlines, hbad, ?_, hrun, ?_⟩
      · rw [answers, hdecode]
      · rw [hrun]
        rfl

/-! ## A stray byte -/

/-- A sentence of one word comes back with its last letter but one as its mark. -/
theorem answer_barks : answer ⟨"grammar", "S", false, false⟩
    (Grammar.ofRules [⟨"S", .unary "barks", 1.0⟩]) "barks" = "(ROOT (S barks) k)\n" := by
  have hrule : (Grammar.ofRules [⟨"S", .unary "barks", 1.0⟩]).HasRule "S" (.unary "barks") :=
    ⟨⟨"S", .unary "barks", 1.0⟩, by simp, rfl, rfl⟩
  have hletters : "barks".toList.all Char.isAlpha = true := by decide
  have hterminal : (Grammar.ofRules [⟨"S", .unary "barks", 1.0⟩]).isTerminal "barks" = true := by
    simp [Grammar.isTerminal_iff]
  have htokens : RoundTrip.sentenceTokens (Grammar.ofRules [⟨"S", .unary "barks", 1.0⟩]) "barks" =
      ["barks"] := by
    rw [RoundTrip.sentenceTokens_of_isName ⟨by decide, List.all_eq_true.1 hletters⟩,
      if_pos hterminal]
  have hreparse : RoundTrip.reparse (Grammar.ofRules [⟨"S", .unary "barks", 1.0⟩]) "barks" =
      .ok "(ROOT (S barks) k)" := by
    rw [RoundTrip.reparse, htokens, Grammar.parse, Grammar.parseRoot,
      Chart.bestTree_fill_singleton hrule]
    rfl
  rw [answer, if_pos (by decide), chartText, treeText, if_neg (by decide), if_pos (by decide),
    hreparse]
  rfl

/-- The line before a byte that is no text is answered, and nothing else is printed. -/
theorem run_append_stray_byte :
    Text.EndsLine '\n' "barks\n".toList ∧
      (∃ raw ∈ Text.byteLines [255], ¬ Text.IsText raw) ∧
      ParseRequest.run ⟨"grammar", "S", false, false⟩ (Grammar.ofRules [⟨"S", .unary "barks", 1.0⟩])
          (Text.bytes "barks\n" ++ [255]) =
        .failed "(ROOT (S barks) k)\n" (errorLine ReadError.notText.record) := by
  have hends : Text.EndsLine '\n' "barks\n".toList := by
    intro c hc
    exact (Option.some.inj hc).symm
  have hlines : Text.byteLines [255] = [[255]] := rfl
  have hstray : ¬ Text.IsText [255] := Text.fromUTF8?_eq_none_iff.1 (by decide)
  have hexists : ∃ raw ∈ Text.byteLines [255], ¬ Text.IsText raw :=
    ⟨[255], by rw [hlines]; exact List.mem_singleton_self _, hstray⟩
  obtain ⟨lines, raw, others, hsplit, -, hanswers, hrun, -⟩ :=
    (run_append ⟨"grammar", "S", false, false⟩ (Grammar.ofRules [⟨"S", .unary "barks", 1.0⟩])
      hends [255]).2.2.2 hexists
  have hnil : lines = [] := by
    have hlength := congrArg List.length hsplit
    simp only [hlines, List.length_append, List.length_map, List.length_cons, List.length_nil]
      at hlength
    exact List.length_eq_zero_iff.1 (by omega)
  have htext : Text.stringLines "barks\n" = ["barks"] := by decide
  refine ⟨hends, hexists, ?_⟩
  rw [hrun, hanswers, hnil, htext, List.append_nil, List.map_singleton, String.join_cons,
    String.join_nil, String.append_empty, answer_barks]

end Command.ParseRequest

end PhraseStructure
