import PhraseStructure.Proofs.Rule.Soundness

/-!
# The language of grammar text

A text that is written as a list of rules is read as just these rules: at every boundary the
longest symbol and the longest layout are the ones the text was written with. So the texts that
are read are exactly those that are written so.
-/

namespace PhraseStructure

theorem isBlank_of_isSymbolChar {c : Char} (h : Rule.isSymbolChar c = true) :
    Text.isBlank c = false := by
  cases hc : Text.isBlank c with
  | false => rfl
  | true => simp [Rule.isSymbolChar, hc] at h

theorem isSymbolChar_of_isBlank {c : Char} (h : Text.isBlank c = true) :
    Rule.isSymbolChar c = false := by
  simp [Rule.isSymbolChar, h]

/-! ## Boundaries -/

/-- A text that no symbol goes on with. -/
def EndsSymbol (text : List Char) : Prop :=
  ∀ c ∈ text.head?, Rule.isSymbolChar c = false

theorem IsGap.endsSymbol {gap rest : List Char} (h : IsGap gap rest) (more : List Char) :
    EndsSymbol (gap ++ more) := by
  obtain ⟨-, c, hc, hblank⟩ := h
  obtain ⟨gap, rfl⟩ := List.head?_eq_some_iff.1 hc
  intro d hd
  cases hd
  exact isSymbolChar_of_isBlank hblank

/-- A symbol is not skipped, not even one that is a slash. -/
theorem IsSymbol.skipLayout_append {name rest : List Char} (h : IsSymbol name)
    (hrest : EndsSymbol rest) : skipLayout (name ++ rest) = name ++ rest := by
  obtain ⟨hne, hchars, hcomment⟩ := h
  cases name with
  | nil => exact absurd rfl hne
  | cons c name =>
    rw [List.cons_append]
    refine skipLayout_cons (isBlank_of_isSymbolChar (hchars c List.mem_cons_self)) ?_
    rw [List.cons_prefix_cons]
    rintro ⟨rfl, hslash⟩
    cases name with
    | nil =>
      -- the second slash would stand behind the symbol and go on with it
      obtain ⟨more, rfl⟩ := hslash
      exact absurd (hrest '/' rfl) (by rw [isSymbolChar_slash]; decide)
    | cons d name =>
      rw [List.cons_append, List.cons_prefix_cons] at hslash
      obtain ⟨rfl, -⟩ := hslash
      exact hcomment (List.prefix_append ['/', '/'] name)

namespace Rule

theorem endsSymbol_of_isEndText {weight : Float} {endText rest : List Char}
    (h : IsEndText weight endText rest) (more : List Char) : EndsSymbol (endText ++ more) := by
  cases h with
  | plain =>
    intro c hc
    cases hc
    decide
  | weighted =>
    intro c hc
    cases hc
    decide

theorem skipLayout_of_isEndText {weight : Float} {endText rest : List Char}
    (h : IsEndText weight endText rest) : skipLayout (endText ++ rest) = endText ++ rest := by
  cases h with
  | plain => exact skipLayout_cons (by decide) (by rintro ⟨_, ⟨⟩⟩)
  | weighted => exact skipLayout_cons (by decide) (by rintro ⟨_, ⟨⟩⟩)

/-! ## The parts of a rule -/

theorem readSymbols_append {gap name more rest : List Char} {symbols : List String}
    (hgap : IsLayout gap (name ++ more)) (hname : IsSymbol name) (hmore : EndsSymbol more)
    (h : readSymbols more = .ok (symbols, rest)) :
    readSymbols (gap ++ (name ++ more)) = .ok (String.ofList name :: symbols, rest) := by
  have hskip : skipLayout (gap ++ (name ++ more)) = name ++ more := by
    rw [hgap.skipLayout_append, hname.skipLayout_append hmore]
  have hread := hname.readSymbol?_append hmore
  obtain ⟨c, hc, hchar⟩ := hname.exists_head more
  unfold readSymbols
  split
  · next hnil =>
    rw [hskip] at hnil
    rw [hnil] at hc
    cases hc
  · next d text hcons =>
    rw [hskip] at hcons
    rw [hcons] at hc hread
    cases hc
    have hnot : ¬ (c = ';' ∨ c = '[') := by
      rintro (rfl | rfl) <;> cases hchar
    rw [if_neg hnot]
    split
    · next hnone =>
      rw [hread] at hnone
      cases hnone
    · next hsome =>
      rw [hread] at hsome
      cases hsome
      rw [h]

/-- A right-hand side ends in front of a semicolon or a bracket. -/
theorem readSymbols_end {gap endText rest : List Char} {weight : Float}
    (hgap : IsLayout gap (endText ++ rest)) (hend : IsEndText weight endText rest) :
    readSymbols (gap ++ (endText ++ rest)) = .ok ([], endText ++ rest) := by
  have hskip : skipLayout (gap ++ (endText ++ rest)) = endText ++ rest := by
    rw [hgap.skipLayout_append, skipLayout_of_isEndText hend]
  have hhead : ∃ c text, endText ++ rest = c :: text ∧ (c = ';' ∨ c = '[') := by
    cases hend with
    | plain => exact ⟨_, _, rfl, .inl rfl⟩
    | weighted => exact ⟨_, _, rfl, .inr rfl⟩
  obtain ⟨c, text, heq, hc⟩ := hhead
  rw [heq] at hskip ⊢
  unfold readSymbols
  split
  · next hnil =>
    rw [hskip] at hnil
    cases hnil
  · next hcons =>
    rw [hskip] at hcons
    cases hcons
    rw [if_pos hc]

theorem takeWhile_append_of_head {p : Char → Bool} {body rest : List Char} {c : Char}
    (hbody : ∀ d ∈ body, p d = true) (hc : p c = false) :
    (body ++ c :: rest).takeWhile p = body ∧ (body ++ c :: rest).dropWhile p = c :: rest := by
  rw [List.takeWhile_append_of_pos hbody, List.dropWhile_append_of_pos hbody]
  simp [hc]

theorem readWeight_append {body rest : List Char} {weight : Float}
    (hbody : ∀ c ∈ body, isWeightChar c = true)
    (hread : Decimal.read? (Text.trim body) = some weight) (hfinite : weight.isFinite = true)
    (hsign : ¬ weight < 0) : readWeight (body ++ ']' :: rest) = .ok (weight, rest) := by
  have hclose : isWeightChar ']' = false := by decide
  obtain ⟨htake, hdrop⟩ := @takeWhile_append_of_head isWeightChar body rest ']' hbody hclose
  rw [readWeight, htake, hdrop]
  dsimp only
  rw [hread]
  exact if_pos ⟨hfinite, hsign⟩

theorem readEnd_append {lhs : String} {endText rest : List Char} {weight : Float}
    (h : IsEndText weight endText rest) : readEnd lhs (endText ++ rest) = .ok (weight, rest) := by
  cases h with
  | plain => rfl
  | @weighted body gap _ _ hbody hread hfinite hsign hgap =>
    have heq : '[' :: body ++ ']' :: gap ++ [';'] ++ rest =
        '[' :: (body ++ ']' :: (gap ++ ';' :: rest)) := by simp
    have hskip : skipLayout (gap ++ ';' :: rest) = ';' :: rest := by
      rw [hgap.skipLayout_append]
      exact skipLayout_cons (by decide) (by rintro ⟨_, ⟨⟩⟩)
    rw [heq, readEnd, readWeight_append hbody hread hfinite hsign]
    dsimp only
    rw [hskip]
    rfl

/-- A right-hand side behind an arrow, up to the end of its rule. -/
theorem readSymbols_rhsText {rhs : Rhs} {arrowGap rhsText endGap endText rest : List Char}
    {weight : Float} (harrow : IsLayout arrowGap (rhsText ++ endGap ++ endText ++ rest))
    (hrhs : IsRhsText rhs rhsText (endGap ++ endText ++ rest))
    (hgap : endGap = [] ∨ IsGap endGap (endText ++ rest)) (hend : IsEndText weight endText rest) :
    readSymbols (arrowGap ++ (rhsText ++ (endGap ++ (endText ++ rest)))) =
      .ok (rhs.symbols, endText ++ rest) := by
  simp only [List.append_assoc] at harrow hrhs
  have hlayout : IsLayout endGap (endText ++ rest) := by
    rcases hgap with rfl | hgap
    · exact .nil
    · exact hgap.1
  have hends : EndsSymbol (endGap ++ (endText ++ rest)) := by
    rcases hgap with rfl | hgap
    · exact endsSymbol_of_isEndText hend rest
    · exact hgap.endsSymbol _
  have hlast := readSymbols_end hlayout hend
  cases hrhs with
  | unary hname => exact readSymbols_append harrow hname hends hlast
  | binary hleft hmiddle hright =>
    simp only [List.append_assoc] at harrow ⊢
    exact readSymbols_append harrow hleft (hmiddle.endsSymbol _)
      (readSymbols_append hmiddle.1 hright hends hlast)

/-! ## Rules -/

theorem read_append {rule : Rule} {ruleText rest : List Char} (h : IsRuleText rule ruleText rest) :
    read (ruleText ++ rest) = .ok (rule, rest) := by
  cases h with
  | @intro lhs gap arrowGap rhsText endGap endText _ _ _ hlhs hgap harrow hrhs hend hweight =>
    have heq : lhs ++ gap ++ '-' :: '>' :: arrowGap ++ rhsText ++ endGap ++ endText ++ rest =
        lhs ++ (gap ++ '-' :: '>' :: (arrowGap ++ (rhsText ++ (endGap ++ (endText ++ rest))))) := by
      simp only [List.append_assoc, List.cons_append]
    have hskip : skipLayout (gap ++ '-' :: '>' ::
          (arrowGap ++ (rhsText ++ (endGap ++ (endText ++ rest))))) =
        '-' :: '>' :: (arrowGap ++ (rhsText ++ (endGap ++ (endText ++ rest)))) := by
      have hlayout := hgap.1
      simp only [List.append_assoc, List.cons_append] at hlayout
      rw [hlayout.skipLayout_append]
      exact skipLayout_cons (by decide) (by rintro ⟨_, ⟨⟩⟩)
    have hfirst := hlhs.readSymbol?_append (hgap.endsSymbol
      ('-' :: '>' :: (arrowGap ++ (rhsText ++ (endGap ++ (endText ++ rest))))))
    have hsymbols := readSymbols_rhsText harrow hrhs hend hweight
    have hlast := @readEnd_append (String.ofList lhs) _ _ _ hweight
    rw [heq]
    simp only [read, hfirst, hskip, hsymbols, hlast, Rhs.ofSymbols?_symbols]

theorem skipLayout_ruleText {rule : Rule} {ruleText rest : List Char}
    (h : IsRuleText rule ruleText rest) :
    skipLayout (ruleText ++ rest) = ruleText ++ rest ∧ ruleText ≠ [] := by
  cases h with
  | intro hlhs hgap =>
    constructor
    · simp only [List.append_assoc, List.cons_append]
      exact hlhs.skipLayout_append (hgap.endsSymbol _)
    · simp [hlhs.1]

/-! ## Lists of rules -/

theorem readRest_of_skipLayout_eq_nil {source text : List Char} (h : skipLayout text = []) :
    readRest source text = .ok [] := by
  unfold readRest
  split
  · rfl
  · next hcons =>
    rw [h] at hcons
    cases hcons

/-- A rule that is not read fails the text, on the line where the rule starts. -/
theorem readRest_of_read_eq_error {source text : List Char} {fault : RuleFault}
    (hne : skipLayout text ≠ []) (h : read (skipLayout text) = .error fault) :
    readRest source text = .error ⟨Text.lineOf source (skipLayout text), fault⟩ := by
  unfold readRest
  split
  · next hnil => exact absurd hnil hne
  · next hcons =>
    rw [hcons] at h
    split
    · next herror =>
      rw [h] at herror
      rw [Except.error.inj herror, hcons]
    · next hok =>
      rw [h] at hok
      cases hok

theorem readRest_of_read_eq_ok {source text rest : List Char} {rule : Rule}
    (hne : skipLayout text ≠ []) (h : read (skipLayout text) = .ok (rule, rest)) :
    readRest source text = (readRest source rest).map (rule :: ·) := by
  rw [readRest]
  split
  · next hnil => exact absurd hnil hne
  · next hcons =>
    rw [hcons] at h
    split
    · next herror =>
      rw [h] at herror
      cases herror
    · next hok =>
      rw [h] at hok
      cases hok
      cases readRest source rest <;> rfl

theorem readRest_layout_append {source gap rest : List Char} (hgap : IsLayout gap rest) :
    readRest source (gap ++ rest) = readRest source rest := by
  have hskip := hgap.skipLayout_append
  by_cases hnil : skipLayout rest = []
  · rw [readRest_of_skipLayout_eq_nil hnil, readRest_of_skipLayout_eq_nil (hskip.trans hnil)]
  · cases hread : read (skipLayout rest) with
    | error fault =>
      rw [readRest_of_read_eq_error hnil hread, readRest_of_read_eq_error (by rwa [hskip])
        (by rwa [hskip]), hskip]
    | ok result =>
      obtain ⟨rule, more⟩ := result
      rw [readRest_of_read_eq_ok hnil hread,
        readRest_of_read_eq_ok (by rwa [hskip]) (by rwa [hskip])]

theorem readRest_ruleText_append {source ruleText rest : List Char} {rule : Rule}
    (hrule : IsRuleText rule ruleText rest) :
    readRest source (ruleText ++ rest) = (readRest source rest).map (rule :: ·) := by
  obtain ⟨hskip, hne⟩ := skipLayout_ruleText hrule
  apply readRest_of_read_eq_ok
  · rw [hskip]
    simp [hne]
  · rw [hskip, read_append hrule]

theorem readRest_of_isRulesText {source text : List Char} {rules : List Rule}
    (h : IsRulesText rules text) : readRest source text = .ok rules := by
  induction h with
  | @nil gap hgap =>
    have hskip := hgap.skipLayout_append
    rw [List.append_nil, skipLayout_nil] at hskip
    exact readRest_of_skipLayout_eq_nil hskip
  | cons hgap hrule _ ih =>
    rw [List.append_assoc, readRest_layout_append hgap, readRest_ruleText_append hrule, ih]
    rfl

/-- The rules of a text are read exactly if the text is written as these rules. -/
theorem readAll_eq_ok_iff_isRulesText (text : String) (rules : List Rule) :
    readAll text.toList = .ok rules ↔ IsRulesText rules text.toList :=
  ⟨isRulesText_of_readRest, readRest_of_isRulesText⟩

end Rule

end PhraseStructure
