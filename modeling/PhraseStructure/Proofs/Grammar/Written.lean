import PhraseStructure.Grammar.Loading
import PhraseStructure.Proofs.Decimal.ReadBack
import PhraseStructure.Proofs.Grammar.Nonterminals
import PhraseStructure.Proofs.Grammar.Weights
import PhraseStructure.Proofs.Rule.Language
import PhraseStructure.Proofs.Text.Bytes

/-!
# Grammars in writing

A grammar whose symbols and weights can stand in grammar text is written so that it is read again
with the same rules. Every grammar that is read is one of these, so it is the fixed point of
writing and reading.
-/

namespace PhraseStructure

/-! ## Weights -/

theorem Text.trim_eq {text : List Char} (h : ∀ c ∈ text, isBlank c = false) : trim text = text := by
  have hdrop : ∀ {text : List Char}, (∀ c ∈ text, isBlank c = false) →
      text.dropWhile isBlank = text := by
    intro text h
    cases text with
    | nil => rfl
    | cons c rest => rw [List.dropWhile_cons, h c List.mem_cons_self, if_neg Bool.false_ne_true]
  rw [trim, trimStart, hdrop h, trimEnd, hdrop (by simpa using h), List.reverse_reverse]

theorem Text.isBlank_of_isDigit {c : Char} (h : c.isDigit = true) : isBlank c = false := by
  have hbounds : 48 ≤ c.toNat ∧ c.toNat ≤ 57 := by
    simpa [Char.isDigit, UInt32.le_iff_toNat_le] using h
  have hranges : ∀ range ∈ blankRanges, range.2 < 48 ∨ 57 < range.1 := by decide
  rw [isBlank, List.any_eq_false]
  rintro ⟨low, high⟩ hrange
  have := hranges _ hrange
  simp only [Bool.and_eq_true, decide_eq_true_eq]
  omega

namespace Rule

/-- A weight is written in brackets and reads as itself. -/
theorem isEndText_inFull {weight : Float} (h : Binary64.IsWeight weight) (rest : List Char) :
    IsEndText weight ('[' :: (Decimal.inFull weight).toList ++ [']'] ++ [';']) rest := by
  have hchars : ∀ c ∈ (Decimal.inFull weight).toList,
      Text.isBlank c = false ∧ isWeightChar c = true := by
    intro c hc
    rcases Decimal.mem_inFull h.1 hc with hdigit | rfl | rfl
    · have hclose : c ≠ ']' := by
        rintro rfl
        exact absurd hdigit (by decide)
      have hblank := Text.isBlank_of_isDigit hdigit
      have hline : c ≠ '\n' := by
        rintro rfl
        exact absurd hblank (by decide)
      exact ⟨hblank, by simp [isWeightChar, hclose, hline]⟩
    · decide
    · decide
  have htrim := Text.trim_eq fun c hc => (hchars c hc).1
  exact @IsEndText.weighted _ [] rest weight (fun c hc => (hchars c hc).2)
    (htrim.symm ▸ Decimal.read?_inFull h.1) h.1 h.2 .nil

/-! ## Rules -/

/-- A rule with symbols and a weight that can stand in grammar text. -/
structure IsWritable (rule : Rule) : Prop where
  symbols : ∀ symbol ∈ rule.lhs :: rule.rhs.symbols, IsSymbol symbol.toList
  weight : Binary64.IsWeight rule.weight

theorem isLayout_space (rest : List Char) : IsLayout [' '] rest :=
  .blank Text.isBlank_space .nil

theorem isGap_space (rest : List Char) : IsGap [' '] rest :=
  ⟨isLayout_space rest, ' ', rfl, Text.isBlank_space⟩

theorem isRhsText_text {rhs : Rhs} (h : ∀ symbol ∈ rhs.symbols, IsSymbol symbol.toList)
    (rest : List Char) : IsRhsText rhs rhs.text.toList rest := by
  cases rhs with
  | unary symbol =>
    have hrhs := @IsRhsText.unary symbol.toList rest (h symbol (by simp [Rhs.symbols]))
    rwa [String.ofList_toList] at hrhs
  | binary left right =>
    have hrhs := @IsRhsText.binary left.toList [' '] right.toList rest
      (h left (by simp [Rhs.symbols])) (isGap_space _) (h right (by simp [Rhs.symbols]))
    rw [String.ofList_toList, String.ofList_toList] at hrhs
    simpa [Rhs.text] using hrhs

/-- A rule and a semicolon stand for the rule, whatever follows. -/
theorem IsWritable.isRuleText {rule : Rule} (h : rule.IsWritable) (rest : List Char) :
    IsRuleText rule (rule.text ++ ";").toList rest := by
  obtain ⟨lhs, rhs, weight⟩ := rule
  have hsymbols := List.forall_mem_cons.1 h.symbols
  have hrule := @IsRuleText.intro lhs.toList [' '] [' '] rhs.text.toList [' ']
    ('[' :: (Decimal.inFull weight).toList ++ [']'] ++ [';']) rest rhs weight hsymbols.1
    (isGap_space _) (isLayout_space _) (isRhsText_text hsymbols.2 _) (.inr (isGap_space _))
    (isEndText_inFull h.weight rest)
  rw [String.ofList_toList] at hrule
  simpa [text] using hrule

theorem isWritable_of_isRuleText {rule : Rule} {text rest : List Char}
    (h : IsRuleText rule text rest) : rule.IsWritable := by
  cases h with
  | intro hlhs _ _ hrhs _ hweight =>
    refine ⟨List.forall_mem_cons.2 ⟨?_, ?_⟩, ?_⟩
    · rwa [String.toList_ofList]
    · cases hrhs with
      | unary hname => simpa [Rhs.symbols] using hname
      | binary hleft _ hright => simpa [Rhs.symbols] using ⟨hleft, hright⟩
    · cases hweight with
      | plain => exact Binary64.isWeight_one
      | weighted _ _ hfinite hsign _ => exact ⟨hfinite, hsign⟩

theorem isWritable_of_isRulesText {rules : List Rule} {text : List Char}
    (h : IsRulesText rules text) : ∀ rule ∈ rules, rule.IsWritable := by
  induction h with
  | nil => simp
  | cons _ hrule _ ih => exact List.forall_mem_cons.2 ⟨isWritable_of_isRuleText hrule, ih⟩

end Rule

/-! ## Lists of rules -/

/-- One rule a line, behind the end of a line. -/
theorem isRulesText_lines {rules : List Rule} (h : ∀ rule ∈ rules, rule.IsWritable) :
    IsRulesText rules
      ('\n' :: (String.join (rules.map fun rule => rule.text ++ ";\n")).toList) := by
  induction rules with
  | nil => exact .nil (.blank Text.isBlank_newline .nil)
  | cons rule rules ih =>
    obtain ⟨hrule, hrules⟩ := List.forall_mem_cons.1 h
    have hcons :=
      IsRulesText.cons (.blank Text.isBlank_newline .nil) (hrule.isRuleText _) (ih hrules)
    simpa using hcons

theorem IsRulesText.comment {rules : List Rule} {body text : List Char}
    (h : IsRulesText rules ('\n' :: text)) (hbody : '\n' ∉ body) :
    IsRulesText rules ('/' :: '/' :: (body ++ '\n' :: text)) := by
  generalize hline : '\n' :: text = line at h
  have hend : ∀ c ∈ line.head?, c = '\n' := by
    rw [← hline]
    simp
  clear hline
  cases h with
  | nil hgap => exact .nil (.comment hbody (by simpa using hend) hgap)
  | @cons rule rules gap ruleText rest hgap hrule hrest =>
    have hcons := IsRulesText.cons (.comment hbody (by simpa using hend) hgap) hrule hrest
    simpa using hcons

/-! ## Grammars -/

namespace Grammar

theorem newline_notMem_heading {g : Grammar} (h : ∀ rule ∈ g.rules.toList, rule.IsWritable) :
    '\n' ∉ ("** nonterminals:" ++ String.join (g.nonterminals.map (" " ++ ·))).toList := by
  have hsymbol : ∀ symbol ∈ g.nonterminals, '\n' ∉ symbol.toList := by
    intro symbol hmem hnewline
    obtain ⟨rule, hrule, rfl⟩ := isTerminal_eq_false_iff.1 (mem_nonterminals.1 hmem)
    have hchar := ((h rule hrule).symbols rule.lhs List.mem_cons_self).2.1 '\n' hnewline
    rw [isSymbolChar_of_isBlank Text.isBlank_newline] at hchar
    cases hchar
  rw [String.toList_append, String.toList_join, List.mem_append, List.mem_flatMap]
  rintro (hnewline | ⟨piece, hpiece, hnewline⟩)
  · exact absurd hnewline (by decide)
  · obtain ⟨symbol, hmem, rfl⟩ := List.mem_map.1 hpiece
    rw [String.toList_append, List.mem_append] at hnewline
    exact hnewline.elim (by decide) (hsymbol symbol hmem)

theorem isRulesText_text {g : Grammar} (h : ∀ rule ∈ g.rules.toList, rule.IsWritable) :
    IsRulesText g.rules.toList g.text.toList := by
  have hslashes : "//** nonterminals:".toList = '/' :: '/' :: "** nonterminals:".toList := by decide
  have hcomment := (isRulesText_lines h).comment (newline_notMem_heading h)
  have htext : g.text.toList = '/' :: '/' ::
      (("** nonterminals:" ++ String.join (g.nonterminals.map (" " ++ ·))).toList ++
        '\n' :: (String.join (g.rules.toList.map fun rule => rule.text ++ ";\n")).toList) := by
    unfold text
    simp only [String.toList_append, hslashes, List.append_assoc, List.cons_append]
    rfl
  rwa [htext]

theorem ofText_eq_ok_iff {source : String} {g : Grammar} :
    ofText source = .ok g ↔ g.rules.toList ≠ [] ∧ IsRulesText g.rules.toList source.toList := by
  constructor
  · intro h
    unfold ofText at h
    split at h
    · cases h
    · cases h
    next hne hread =>
      cases h
      rw [rules_ofRules]
      exact ⟨hne, Rule.isRulesText_of_readRest hread⟩
  · rintro ⟨hne, hrules⟩
    have hread : Rule.readAll source.toList = .ok g.rules.toList :=
      Rule.readRest_of_isRulesText hrules
    unfold ofText
    rw [hread]
    split
    next h => cases h
    next h => exact absurd (Except.ok.inj h) hne
    next rules hne' h =>
      rw [← Except.ok.inj h, ← eq_ofRules]

/-- A grammar of some rules is read from its text if their symbols and weights can be written. -/
theorem ofText_text_ofRules {rules : List Rule} (hne : rules ≠ [])
    (hsymbols : ∀ rule ∈ rules, ∀ symbol ∈ rule.lhs :: rule.rhs.symbols, IsSymbol symbol.toList)
    (hweights : ∀ rule ∈ rules, Binary64.IsWeight rule.weight) :
    ofText (ofRules rules).text = .ok (ofRules rules) := by
  have hwritable : ∀ rule ∈ (ofRules rules).rules.toList, rule.IsWritable := by
    rw [rules_ofRules]
    exact fun rule hrule => ⟨hsymbols rule hrule, hweights rule hrule⟩
  exact ofText_eq_ok_iff.2 ⟨by rwa [rules_ofRules], isRulesText_text hwritable⟩

/-- A file with the text of a grammar is loaded as the grammar. -/
theorem load_bytes {path text : String} {g : Grammar} (h : ofText text = .ok g) :
    load path (.ok ⟨(Text.bytes text).toArray⟩) = .ok g := by
  simp only [load, decodeText, Text.fromUTF8?_bytes, h]

/-- Reading undoes writing: every grammar of one rule or more whose symbols and weights can stand
in grammar text is read from its text, and every grammar that is read is one of these. -/
theorem ofText_text :
    (∀ rules : List Rule, rules ≠ [] → (∀ rule ∈ rules, rule.IsWritable) →
      (ofRules rules).rules.toList = rules ∧
        ofText (ofRules rules).text = .ok (ofRules rules)) ∧
      ∀ (source : String) (g : Grammar), ofText source = .ok g →
        g.rules.toList ≠ [] ∧ (∀ rule ∈ g.rules.toList, rule.IsWritable) ∧
          ofText g.text = .ok g := by
  constructor
  · intro rules hne h
    have hrules := rules_ofRules rules
    refine ⟨hrules, ofText_eq_ok_iff.2 ?_⟩
    rw [hrules]
    exact ⟨hne, hrules ▸ isRulesText_text (hrules.symm ▸ h)⟩
  · intro source g hsource
    obtain ⟨hne, hrules⟩ := ofText_eq_ok_iff.1 hsource
    have h := Rule.isWritable_of_isRulesText hrules
    exact ⟨hne, h, ofText_eq_ok_iff.2 ⟨hne, isRulesText_text h⟩⟩

/-- Symbols that hold an arrow or slashes, weights far below one, and a rule declared twice. -/
def slashRules : List Rule :=
  [⟨"->", .binary "a//b" "A->b", 1e-300⟩, ⟨"a//b", .unary "/", -0.0⟩,
    ⟨"a//b", .unary "/", -0.0⟩, ⟨"A->b", .unary "ß.", 0.1⟩]

theorem isWritable_slashRules : ∀ rule ∈ slashRules, rule.IsWritable := by
  have hweight : Binary64.IsWeight 1e-300 ∧ Binary64.IsWeight (-0.0) ∧ Binary64.IsWeight 0.1 := by
    unfold Binary64.IsWeight
    decide +kernel
  have hsymbol : IsSymbol "->".toList ∧ IsSymbol "a//b".toList ∧ IsSymbol "A->b".toList ∧
      IsSymbol "/".toList ∧ IsSymbol "ß.".toList := by
    decide
  obtain ⟨harrow, hinside, hboth, hslash, hsharp⟩ := hsymbol
  have hdouble : (Rule.mk "a//b" (.unary "/") (-0.0)).IsWritable :=
    ⟨List.forall_mem_cons.2 ⟨hinside, List.forall_mem_singleton.2 hslash⟩, hweight.2.1⟩
  unfold slashRules
  refine List.forall_mem_cons.2 ⟨⟨List.forall_mem_cons.2 ⟨harrow, ?_⟩, hweight.1⟩, ?_⟩
  · exact List.forall_mem_cons.2 ⟨hinside, List.forall_mem_singleton.2 hboth⟩
  · refine List.forall_mem_cons.2 ⟨hdouble, List.forall_mem_cons.2 ⟨hdouble, ?_⟩⟩
    refine List.forall_mem_singleton.2 ⟨?_, hweight.2.2⟩
    exact List.forall_mem_cons.2 ⟨hboth, List.forall_mem_singleton.2 hsharp⟩

/-- These rules are read from their text, and the grammar that is read has this text again. -/
theorem ofText_text_slashRules :
    (slashRules ≠ [] ∧ ∀ rule ∈ slashRules, rule.IsWritable) ∧
      ofText (ofRules slashRules).text = .ok (ofRules slashRules) := by
  have h : slashRules ≠ [] := List.cons_ne_nil _ _
  exact ⟨⟨h, isWritable_slashRules⟩, (ofText_text.1 slashRules h isWritable_slashRules).2⟩

end Grammar

end PhraseStructure
