import PhraseStructure.Proofs.Chart.Justified
import PhraseStructure.Proofs.Chart.Storage
import PhraseStructure.Proofs.Decimal.Positional
import PhraseStructure.Proofs.Text.Lines

/-!
# The text of a chart

The text of a chart is made of lines, those of each cell behind those of the cells before it
(`Chart.text_eq_join_blocks`). There is a header for each cell that is not empty and a line for each
entry, and since the cells of all spans are those of the array, the lines can be counted there
(`Chart.length_flatten_blocks`). In a filled chart the lines of a cell are a block for its span
(`Chart.forall₂_isBlock`), and if no newline stands inside a line, the text falls into the same
lines again (`Chart.length_stringLines_text`).
-/

namespace PhraseStructure

/-! ## The lines of a cell -/

namespace Cell

/-- The line before the entries: the span and its word. -/
def header (cell : Cell) (start stop : Nat) : String :=
  let name := match cell.word with
    | none => ""
    | some word => " `" ++ word ++ "`"
  toString start ++ "..=" ++ toString stop ++ name ++ ":\n"

/-- The lines of a cell, of which there are none if it is empty. -/
def lines (cell : Cell) (start stop : Nat) : List String :=
  if cell.isEmpty then [] else cell.header start stop :: cell.entries.map Entry.text

theorem isEmpty_iff {cell : Cell} : cell.isEmpty = true ↔ cell.entries = [] :=
  List.isEmpty_iff

theorem isEmpty_lines (cell : Cell) (start stop : Nat) :
    (cell.lines start stop).isEmpty = cell.isEmpty := by
  unfold lines
  cases h : cell.isEmpty <;> rfl

theorem text_eq_join_lines (cell : Cell) (start stop : Nat) :
    cell.text start stop = String.join (cell.lines start stop) := by
  unfold text lines
  split
  · rfl
  · rw [String.join_cons]
    rfl

theorem length_lines (cell : Cell) (start stop : Nat) :
    (cell.lines start stop).length = (if !cell.isEmpty then 1 else 0) + cell.entries.length := by
  unfold lines
  cases h : cell.isEmpty with
  | true => simp [isEmpty_iff.1 h]
  | false => simp [Nat.add_comm]

theorem ne_empty_of_mem_lines {cell : Cell} {start stop : Nat} :
    ∀ line ∈ cell.lines start stop, line ≠ "" := by
  unfold lines
  split
  · simp
  · rw [List.forall_mem_cons, List.forall_mem_map]
    constructor
    · simp [header]
    · simp [Entry.text]

end Cell

namespace Chart

/-! ## The lines of a chart -/

/-- The spans whose cells are not empty, the narrow ones first. -/
def shown (chart : Chart) : List (Nat × Nat) :=
  (spans chart.size).filter fun span => !(chart.cellAt span.1 span.2).isEmpty

def blocks (chart : Chart) : List (List String) :=
  chart.shown.map fun span => (chart.cellAt span.1 span.2).lines span.1 span.2

/-- An empty cell has no lines, so nothing is lost with it. -/
theorem flatten_blocks (chart : Chart) :
    chart.blocks.flatten = (spans chart.size).flatMap fun span =>
      (chart.cellAt span.1 span.2).lines span.1 span.2 := by
  have hblocks : chart.blocks = ((spans chart.size).map fun span =>
      (chart.cellAt span.1 span.2).lines span.1 span.2).filter (!·.isEmpty) := by
    rw [List.filter_map]
    simp only [Function.comp_def, Cell.isEmpty_lines]
    rfl
  rw [hblocks, List.flatten_filter_not_isEmpty, List.flatMap_def]

theorem text_eq_join_blocks (chart : Chart) : chart.text = String.join chart.blocks.flatten := by
  rw [flatten_blocks, text]
  simp only [Cell.text_eq_join_lines]
  rw [← String.toList_inj]
  simp [List.flatMap_map, List.flatMap_assoc]

theorem length_shown (chart : Chart) :
    chart.shown.length = chart.cells.countP (!·.isEmpty) := by
  rw [shown, ← List.countP_eq_length_filter, ← Array.countP_toList,
    ← (perm_map_cellAt_spans chart).countP_eq, List.countP_map]
  rfl

/-- A header for each cell that is not empty, and a line for each entry. -/
theorem sum_lines_eq (cells : List Cell) :
    (cells.map fun cell => (if !cell.isEmpty then 1 else 0) + cell.entries.length).sum =
      cells.countP (!·.isEmpty) + (cells.flatMap (·.entries)).length := by
  induction cells with
  | nil => rfl
  | cons cell rest ih =>
    rw [List.map_cons, List.sum_cons, ih, List.countP_cons, List.flatMap_cons, List.length_append]
    omega

/-- The spans are visited by width and the array is kept by rows, but the lines are as many. -/
theorem length_flatten_blocks (chart : Chart) :
    chart.blocks.flatten.length = chart.cells.countP (!·.isEmpty) + chart.entryCount := by
  have hperm := (perm_map_cellAt_spans chart).map fun cell : Cell =>
    (if !cell.isEmpty then 1 else 0) + cell.entries.length
  rw [List.map_map] at hperm
  rw [flatten_blocks, List.length_flatMap, entryCount, ← Array.countP_toList, ← sum_lines_eq,
    ← hperm.sum_eq]
  simp only [Cell.length_lines]
  rfl

theorem text_eq_empty_iff_blocks (chart : Chart) :
    chart.text = "" ↔ chart.blocks.flatten = [] := by
  rw [text_eq_join_blocks, ← String.toList_eq_nil_iff, String.toList_join,
    List.flatMap_eq_nil_iff]
  constructor
  · intro hempty
    apply List.eq_nil_iff_forall_not_mem.2
    intro line hline
    have hne : line ≠ "" := by
      rw [flatten_blocks] at hline
      obtain ⟨span, -, hspan⟩ := List.mem_flatMap.1 hline
      exact Cell.ne_empty_of_mem_lines line hspan
    exact hne (String.toList_eq_nil_iff.1 (hempty line hline))
  · intro hnil
    simp [hnil]

theorem text_eq_empty_iff (chart : Chart) : chart.text = "" ↔ chart.entryCount = 0 := by
  rw [text_eq_empty_iff_blocks, ← List.length_eq_zero_iff, length_flatten_blocks]
  constructor
  · omega
  · intro hcount
    have hcells : chart.cells.countP (!·.isEmpty) = 0 := by
      rw [entryCount, List.length_eq_zero_iff, List.flatMap_eq_nil_iff] at hcount
      rw [← Array.countP_toList, List.countP_eq_zero]
      intro cell hcell
      simp [Cell.isEmpty_iff.2 (hcount cell hcell)]
    rw [hcells, hcount]

end Chart

/-! ## What the lines say -/

/-- A line in front of a block names its span, and its word if it is one token. -/
inductive IsHeader (tokens : List String) : (start stop : Nat) → String → Prop where
  | word {i : Nat} {word : String} (hword : tokens[i]? = some word) :
      IsHeader tokens i i (toString i ++ "..=" ++ toString i ++ " `" ++ word ++ "`:\n")
  | span {start stop : Nat} (hlt : start < stop) :
      IsHeader tokens start stop (toString start ++ "..=" ++ toString stop ++ ":\n")

/-- A line of an entry has its symbol and its probability, and the end of its first part if its span
has several tokens. -/
inductive Entry.IsLine (e : Entry) : (start stop : Nat) → String → Prop where
  | word {i : Nat} (horigin : e.origin = .word) :
      e.IsLine i i ("  " ++ e.symbol ++ " " ++ Decimal.withExponent e.prob ++ "\n")
  | split {start stop index position : Nat} (horigin : e.origin = .split index position)
      (hstart : start ≤ position) (hstop : position < stop) :
      e.IsLine start stop ("  " ++ e.symbol ++ " " ++ Decimal.withExponent e.prob ++ " split " ++
        toString position ++ "\n")

namespace Chart

/-- The block of a span in the text of a filled chart: a header, and a line for each entry of its
cell, in order. -/
def IsBlock (g : Grammar) (tokens : List String) (span : Nat × Nat) (block : List String) : Prop :=
  ∃ cell header lines, (fill g tokens).cell span.1 span.2 = .ok cell ∧ block = header :: lines ∧
    IsHeader tokens span.1 span.2 header ∧
    List.Forall₂ (fun e line => e.IsLine span.1 span.2 line) cell.entries lines

variable {g : Grammar} {tokens : List String} {start stop : Nat}

theorem isHeader_header (hle : start ≤ stop) (hlt : stop < tokens.length) :
    IsHeader tokens start stop (((fill g tokens).cellAt start stop).header start stop) := by
  rcases hle.eq_or_lt with rfl | hsplit
  · have hheader := IsHeader.word (List.getElem?_eq_getElem hlt)
    simpa [Cell.header, word_cellAt_fill hlt, String.append_assoc] using hheader
  · have hword : ((fill g tokens).cellAt start stop).word = none := by
      rw [cellAt_fill_split hsplit hlt, Cell.word_ofOffers]
    have hheader : IsHeader tokens start stop _ := .span hsplit
    simpa [Cell.header, hword, String.append_assoc] using hheader

theorem isLine_text (hle : start ≤ stop) (hlt : stop < tokens.length) {e : Entry}
    (he : e ∈ ((fill g tokens).cellAt start stop).entries) : e.IsLine start stop e.text := by
  rcases origin_of_get?_fill hle hlt (get?_fill_of_mem hle hlt he) with
    ⟨rfl, horigin⟩ | ⟨index, position, horigin, hstart, hstop⟩
  · have hline : e.IsLine start start _ := .word horigin
    simpa [Entry.text, horigin] using hline
  · have hline := Entry.IsLine.split horigin hstart hstop
    simpa [Entry.text, horigin, String.append_assoc] using hline

theorem isBlock_lines (hle : start ≤ stop) (hlt : stop < tokens.length)
    (hne : ((fill g tokens).cellAt start stop).isEmpty = false) :
    IsBlock g tokens (start, stop)
      (((fill g tokens).cellAt start stop).lines start stop) := by
  refine ⟨_, _, _, cell_fill hle hlt, by rw [Cell.lines, hne]; rfl, isHeader_header hle hlt, ?_⟩
  rw [List.forall₂_map_right_iff, List.forall₂_same]
  exact fun e he => isLine_text hle hlt he

theorem mem_shown {chart : Chart} :
    (start, stop) ∈ chart.shown ↔
      chart.HasSpan start stop ∧ (chart.cellAt start stop).isEmpty = false := by
  rw [shown, List.mem_filter, mem_spans, Bool.not_eq_true']
  rfl

theorem forall₂_isBlock (g : Grammar) (tokens : List String) :
    List.Forall₂ (IsBlock g tokens) (fill g tokens).shown (fill g tokens).blocks := by
  rw [blocks, List.forall₂_map_right_iff, List.forall₂_same]
  rintro ⟨start, stop⟩ hspan
  obtain ⟨hhas, hne⟩ := mem_shown.1 hspan
  obtain ⟨hle, hlt⟩ := hasSpan_fill.1 hhas
  exact isBlock_lines hle hlt hne

/-! ## Lines without a newline inside -/

theorem newline_notMem_toDigits (n : Nat) : '\n' ∉ Nat.toDigits 10 n := by
  intro h
  exact absurd (Decimal.isDigit_of_mem_digits _ h) (by decide)

theorem isEndedLine_of_isHeader {line : String} (h : IsHeader tokens start stop line)
    (htokens : ∀ token ∈ tokens, '\n' ∉ token.toList) : Text.IsEndedLine '\n' line.toList := by
  have hnumber := newline_notMem_toDigits
  cases h with
  | @word word hword =>
    have hnone := htokens word (List.mem_of_getElem? hword)
    refine ⟨(toString start ++ "..=" ++ toString start ++ " `" ++ word ++ "`:").toList, ?_, ?_⟩
    · simp [hnumber, hnone]
    · simp
  | span hlt =>
    refine ⟨(toString start ++ "..=" ++ toString stop ++ ":").toList, ?_, ?_⟩
    · simp [hnumber]
    · simp

theorem isEndedLine_of_isLine {e : Entry} {line : String} (h : e.IsLine start stop line)
    (hsymbol : '\n' ∉ e.symbol.toList) : Text.IsEndedLine '\n' line.toList := by
  have hprob := Decimal.newline_notMem_withExponent e.prob
  have hnumber := newline_notMem_toDigits
  cases h with
  | word horigin =>
    refine ⟨("  " ++ e.symbol ++ " " ++ Decimal.withExponent e.prob).toList, ?_, ?_⟩
    · simp [hsymbol, hprob]
    · simp
  | @split _ _ position horigin hstart hstop =>
    refine ⟨("  " ++ e.symbol ++ " " ++ Decimal.withExponent e.prob ++ " split " ++
      toString position).toList, ?_, ?_⟩
    · simp [hsymbol, hprob, hnumber]
    · simp

theorem exists_rule_of_mem_fill (hle : start ≤ stop) (hlt : stop < tokens.length) {e : Entry}
    (he : e ∈ ((fill g tokens).cellAt start stop).entries) :
    ∃ rule ∈ g.rules.toList, rule.lhs = e.symbol := by
  cases justifies_of_get? hle hlt (get?_fill_of_mem hle hlt he) with
  | word _ hrule =>
    obtain ⟨rule, hmem, hlhs, -⟩ := hrule
    exact ⟨rule, hmem, hlhs⟩
  | split _ _ hrule =>
    obtain ⟨rule, hmem, hlhs, -⟩ := Grammar.hasRule_of_rule hrule
    exact ⟨rule, hmem, hlhs⟩

/-- If no symbol and no token has a newline in it, the only newlines are those between the lines. -/
theorem isEndedLine_of_mem_blocks (htokens : ∀ token ∈ tokens, '\n' ∉ token.toList)
    (hsymbols : ∀ rule ∈ g.rules.toList, '\n' ∉ rule.lhs.toList) {line : String}
    (hline : line ∈ (fill g tokens).blocks.flatten) : Text.IsEndedLine '\n' line.toList := by
  rw [flatten_blocks, List.mem_flatMap] at hline
  obtain ⟨⟨start, stop⟩, hspan, hline⟩ := hline
  obtain ⟨hle, hlt⟩ := hasSpan_fill.1 (mem_spans.1 hspan)
  unfold Cell.lines at hline
  split at hline
  · cases hline
  · rcases List.mem_cons.1 hline with rfl | hline
    · exact isEndedLine_of_isHeader (isHeader_header hle hlt) htokens
    · obtain ⟨e, he, rfl⟩ := List.mem_map.1 hline
      obtain ⟨rule, hrule, hlhs⟩ := exists_rule_of_mem_fill hle hlt he
      exact isEndedLine_of_isLine (isLine_text hle hlt he) (hlhs ▸ hsymbols rule hrule)

theorem length_stringLines_text (htokens : ∀ token ∈ tokens, '\n' ∉ token.toList)
    (hsymbols : ∀ rule ∈ g.rules.toList, '\n' ∉ rule.lhs.toList) :
    (Text.stringLines (fill g tokens).text).length = (fill g tokens).blocks.flatten.length := by
  have htext : (fill g tokens).text.toList =
      ((fill g tokens).blocks.flatten.map String.toList).flatten := by
    rw [text_eq_join_blocks, String.toList_join, List.flatMap_def]
  rw [Text.stringLines, List.length_map, Text.lines, htext, Text.length_cutLines_flatten,
    List.length_map]
  rw [List.forall_mem_map]
  exact fun line hline => isEndedLine_of_mem_blocks htokens hsymbols hline

/-- The text of a filled chart is made of blocks, one for each cell that is not empty and none for
the others, ordered by the width of the span and then by its start. In a block a header that names
the span, and the word if it is one token, is followed by a line for each entry, in order and with
the split if there are several tokens. If no token or symbol has a newline in it, there are as many
lines as cells that are not empty and entries together. And the text is empty exactly if there are
no entries. -/
theorem text_fill_eq_blocks (g : Grammar) (tokens : List String) :
    (∃ occupied blocks, List.Forall₂ (IsBlock g tokens) occupied blocks ∧
      (fill g tokens).text = String.join blocks.flatten ∧
      (∀ start stop, (start, stop) ∈ occupied ↔
        ∃ cell, (fill g tokens).cell start stop = .ok cell ∧ cell.entries ≠ []) ∧
      occupied.length = (fill g tokens).cells.countP (!·.isEmpty) ∧
      occupied.Pairwise fun a b => toLex (extra a, a.1) < toLex (extra b, b.1)) ∧
    ((∀ token ∈ tokens, '\n' ∉ token.toList) →
      (∀ rule ∈ g.rules.toList, '\n' ∉ rule.lhs.toList) →
      (Text.stringLines (fill g tokens).text).length =
        (fill g tokens).cells.countP (!·.isEmpty) + (fill g tokens).entryCount) ∧
    ((fill g tokens).text = "" ↔ (fill g tokens).entryCount = 0) := by
  refine ⟨⟨_, _, forall₂_isBlock g tokens, text_eq_join_blocks _, ?_, length_shown _,
    (pairwise_lt_spans _).filter _⟩, ?_, text_eq_empty_iff _⟩
  · intro start stop
    rw [mem_shown, hasSpan_fill, ← Bool.not_eq_true, Cell.isEmpty_iff]
    simp [cell_fill_eq_ok_iff, and_assoc]
  · intro htokens hsymbols
    rw [length_stringLines_text htokens hsymbols, length_flatten_blocks]

/-! ## A word without rules -/

def dogBarks : Grammar :=
  .ofRules [⟨"S", .binary "NP" "VP", 1⟩, ⟨"NP", .unary "dog", 1⟩, ⟨"VP", .unary "barks", 1⟩]

def dogBarksLoudly : Chart :=
  fill dogBarks ["dog", "barks", "loudly"]

theorem cellAt_word_dogBarks :
    dogBarksLoudly.cellAt 0 0 =
      ⟨some "dog", [⟨"NP", dogBarks.probability ⟨"NP", .unary "dog", 1⟩, .word⟩]⟩ ∧
    dogBarksLoudly.cellAt 1 1 =
      ⟨some "barks", [⟨"VP", dogBarks.probability ⟨"VP", .unary "barks", 1⟩, .word⟩]⟩ ∧
    dogBarksLoudly.cellAt 2 2 = ⟨some "loudly", []⟩ := by
  have hcell : ∀ i (h : i < 3), dogBarksLoudly.cellAt i i =
      Cell.ofOffers (some ["dog", "barks", "loudly"][i])
        (lexicalOffers dogBarks ["dog", "barks", "loudly"][i]) :=
    fun i h => cellAt_fill_word h
  have hrules : dogBarks.lexicalRules "dog" = [⟨1, ⟨"NP", .unary "dog", 1⟩⟩] ∧
      dogBarks.lexicalRules "barks" = [⟨2, ⟨"VP", .unary "barks", 1⟩⟩] ∧
      dogBarks.lexicalRules "loudly" = [] := by
    simp only [Grammar.lexicalRules, Grammar.index_eq, RuleIndex.rulesWith_ofRules]
    exact ⟨rfl, rfl, rfl⟩
  simp only [hcell, Nat.reduceLT, List.getElem_cons_zero, List.getElem_cons_succ, lexicalOffers,
    hrules]
  exact ⟨rfl, rfl, rfl⟩

theorem cellAt_split_dogBarks :
    dogBarksLoudly.cellAt 0 1 = ⟨none, [⟨"S", dogBarks.probability ⟨"S", .binary "NP" "VP", 1⟩ *
      (dogBarks.probability ⟨"NP", .unary "dog", 1⟩ *
        dogBarks.probability ⟨"VP", .unary "barks", 1⟩), .split 0 0⟩]⟩ ∧
    dogBarksLoudly.cellAt 1 2 = ⟨none, []⟩ ∧ dogBarksLoudly.cellAt 0 2 = ⟨none, []⟩ := by
  have hcell : ∀ start stop, start < stop → stop < 3 → dogBarksLoudly.cellAt start stop =
      Cell.ofOffers none (spanOffers dogBarks dogBarksLoudly start stop) :=
    fun start stop hsplit hlt => cellAt_fill_split hsplit hlt
  have hrules : dogBarks.binaryRules "NP" "VP" = [⟨0, ⟨"S", .binary "NP" "VP", 1⟩⟩] := by
    rw [Grammar.binaryRules, Grammar.index_eq, RuleIndex.rulesWith_ofRules]
    rfl
  obtain ⟨hdog, hbarks, hloudly⟩ := cellAt_word_dogBarks
  have hsentence : spanOffers dogBarks dogBarksLoudly 0 1 =
      [⟨"S", dogBarks.probability ⟨"S", .binary "NP" "VP", 1⟩ *
        (dogBarks.probability ⟨"NP", .unary "dog", 1⟩ *
          dogBarks.probability ⟨"VP", .unary "barks", 1⟩), .split 0 0⟩] := by
    simp [spanOffers, splitOffers, pairOffers, hdog, hbarks, hrules]
  have hverb : spanOffers dogBarks dogBarksLoudly 1 2 = [] := by
    simp [spanOffers, splitOffers, hbarks, hloudly]
  have hempty : dogBarksLoudly.cellAt 1 2 = ⟨none, []⟩ := by
    rw [hcell 1 2 (by decide) (by decide), hverb]
    rfl
  have hall : spanOffers dogBarks dogBarksLoudly 0 2 = [] := by
    simp [spanOffers, splitOffers, List.range'_succ, hempty, hloudly]
  refine ⟨?_, hempty, ?_⟩
  · rw [hcell 0 1 (by decide) (by decide), hsentence]
    rfl
  · rw [hcell 0 2 (by decide) (by decide), hall]
    rfl

/-- A header and an entry for each of two words and for the sentence that they make, and nothing for
the three spans with a word that has no rules. -/
theorem text_fill_eq_blocks_dogBarks :
    (∀ token ∈ ["dog", "barks", "loudly"], '\n' ∉ token.toList) ∧
    (∀ rule ∈ dogBarks.rules.toList, '\n' ∉ rule.lhs.toList) ∧
    dogBarksLoudly.cells.countP (!·.isEmpty) = 3 ∧ dogBarksLoudly.entryCount = 3 ∧
    (Text.stringLines dogBarksLoudly.text).length = 6 := by
  have htokens : ∀ token ∈ ["dog", "barks", "loudly"], '\n' ∉ token.toList := by decide
  have hsymbols : ∀ rule ∈ dogBarks.rules.toList, '\n' ∉ rule.lhs.toList := by
    rw [dogBarks, Grammar.rules_ofRules]
    decide
  have hspans : spans dogBarksLoudly.size = [(0, 0), (1, 1), (2, 2), (0, 1), (1, 2), (0, 2)] := by
    rw [dogBarksLoudly, size_fill]
    rfl
  have hshown : dogBarksLoudly.shown.length = 3 := by
    rw [shown, hspans]
    simp [cellAt_word_dogBarks, cellAt_split_dogBarks, Cell.isEmpty]
  have hblocks : dogBarksLoudly.blocks.flatten.length = 6 := by
    rw [flatten_blocks, hspans]
    simp [cellAt_word_dogBarks, cellAt_split_dogBarks, Cell.lines, Cell.isEmpty]
  obtain ⟨-, hlines, -⟩ := text_fill_eq_blocks dogBarks ["dog", "barks", "loudly"]
  specialize hlines htokens hsymbols
  rw [← dogBarksLoudly] at hlines
  rw [length_shown] at hshown
  rw [length_flatten_blocks] at hblocks
  exact ⟨htokens, hsymbols, hshown, by omega, hlines.trans hblocks⟩

end Chart

end PhraseStructure
