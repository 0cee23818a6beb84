import PhraseStructure.Rule.Written

/-!
# Texts that are read

Whatever is read as layout, as a symbol, as a rule or as a list of rules is written like one. At
every boundary it matters what the reader has left: the character behind a symbol belongs to no
symbol, and the text behind layout starts with neither a blank nor a comment.
-/

namespace PhraseStructure

/-! ## Layout -/

/-- Text that layout was skipped from does not start with a comment. -/
theorem not_comment_dropLayout (comment : Bool) (text : List Char) :
    ¬ ['/', '/'] <+: dropLayout comment text := by
  fun_induction dropLayout comment text with
  | case1 => simp
  | case2 _ _ ih => exact ih
  | case3 _ _ _ ih => exact ih
  | case4 _ _ _ _ ih => exact ih
  | case5 c rest _ hcomment =>
    rintro ⟨more, hmore⟩
    obtain ⟨rfl, rfl⟩ := List.cons_eq_cons.1 hmore
    exact hcomment ⟨rfl, rfl⟩

theorem skipLayout_cons {c : Char} {rest : List Char} (hblank : Text.isBlank c = false)
    (hcomment : ¬ ['/', '/'] <+: c :: rest) : skipLayout (c :: rest) = c :: rest := by
  have hnot : ¬ (c = '/' ∧ rest.head? = some '/') := by
    rintro ⟨rfl, hhead⟩
    obtain ⟨more, rfl⟩ := List.head?_eq_some_iff.1 hhead
    exact hcomment (List.prefix_append _ _)
  rw [skipLayout, dropLayout, hblank, if_neg Bool.false_ne_true, if_neg hnot]

theorem dropLayout_comment_of_ne {c : Char} (h : c ≠ '\n') (rest : List Char) :
    dropLayout true (c :: rest) = dropLayout true rest := by
  simp [dropLayout, h]

/-- The end of a comment behind its first slash. -/
theorem exists_gap_of_comment {text body gap rest : List Char}
    (heq : '/' :: text = body ++ gap ++ rest) (hbody : '\n' ∉ body)
    (hend : ∀ c ∈ (gap ++ rest).head?, c = '\n') (hgap : IsLayout gap rest) :
    ∃ all, '/' :: '/' :: text = all ++ rest ∧ IsLayout all rest := by
  cases body with
  | nil =>
    -- the comment would end at its second slash
    rw [List.nil_append] at heq
    rw [← heq] at hend
    exact absurd (hend '/' rfl) (by decide)
  | cons d body =>
    obtain ⟨rfl, heq⟩ := List.cons_eq_cons.1 heq
    refine ⟨'/' :: '/' :: (body ++ gap), ?_, .comment ?_ hend hgap⟩
    · rw [heq]
      rfl
    · intro hmem
      exact hbody (List.mem_cons_of_mem _ hmem)

/-- What is dropped is layout, and inside a comment it first runs up to a newline. -/
theorem exists_gap_dropLayout (text : List Char) :
    (∃ gap, text = gap ++ dropLayout false text ∧ IsLayout gap (dropLayout false text)) ∧
      ∃ body gap, text = body ++ gap ++ dropLayout true text ∧ '\n' ∉ body ∧
        (∀ c ∈ (gap ++ dropLayout true text).head?, c = '\n') ∧
        IsLayout gap (dropLayout true text) := by
  induction text with
  | nil => exact ⟨⟨[], rfl, .nil⟩, [], [], rfl, by simp, by simp [dropLayout], .nil⟩
  | cons c rest ih =>
    obtain ⟨⟨gap, heq, hgap⟩, body, gap', heq', hbody, hend, hgap'⟩ := ih
    constructor
    · cases hblank : Text.isBlank c with
      | true =>
        have hdrop := skipLayout_of_isBlank hblank rest
        rw [skipLayout] at hdrop
        rw [hdrop]
        exact ⟨c :: gap, congrArg (c :: ·) heq, .blank hblank hgap⟩
      | false =>
        by_cases hcomment : ['/', '/'] <+: c :: rest
        · obtain ⟨more, hmore⟩ := hcomment
          obtain ⟨rfl, rfl⟩ := List.cons_eq_cons.1 hmore
          exact exists_gap_of_comment heq' hbody hend hgap'
        · have hdrop := skipLayout_cons hblank hcomment
          rw [skipLayout] at hdrop
          rw [hdrop]
          exact ⟨[], rfl, .nil⟩
    · by_cases hline : c = '\n'
      · subst hline
        exact ⟨[], '\n' :: gap, congrArg ('\n' :: ·) heq, by simp, by simp,
          .blank Text.isBlank_newline hgap⟩
      · rw [dropLayout_comment_of_ne hline]
        refine ⟨c :: body, gap', congrArg (c :: ·) heq', ?_, hend, hgap'⟩
        simp [hbody, Ne.symm hline]

theorem exists_gap_skipLayout (text : List Char) :
    ∃ gap, text = gap ++ skipLayout text ∧ IsLayout gap (skipLayout text) :=
  (exists_gap_dropLayout text).1

theorem isSymbolChar_slash : Rule.isSymbolChar '/' = true := by decide

/-- Layout behind a symbol is empty or starts with a blank: slashes would belong to the symbol. -/
theorem IsLayout.eq_nil_or_isGap {gap rest : List Char} (h : IsLayout gap rest)
    (hhead : ∀ c ∈ (gap ++ rest).head?, Rule.isSymbolChar c = false) :
    gap = [] ∨ IsGap gap rest := by
  cases h with
  | nil => exact .inl rfl
  | @blank c gap rest hc hgap => exact .inr ⟨.blank hc hgap, c, rfl, hc⟩
  | comment => exact absurd (hhead '/' rfl) (by rw [isSymbolChar_slash]; decide)

/-- Layout between a symbol and what could go on with it starts with a blank. -/
theorem IsLayout.isGap {gap rest : List Char} (h : IsLayout gap rest)
    (hhead : ∀ c ∈ (gap ++ rest).head?, Rule.isSymbolChar c = false)
    (hrest : ∃ c ∈ rest.head?, Rule.isSymbolChar c = true) : IsGap gap rest := by
  rcases h.eq_nil_or_isGap hhead with rfl | hgap
  · obtain ⟨c, hc, hsymbol⟩ := hrest
    rw [hhead c hc] at hsymbol
    cases hsymbol
  · exact hgap

theorem IsSymbol.exists_head {name : List Char} (h : IsSymbol name) (rest : List Char) :
    ∃ c ∈ (name ++ rest).head?, Rule.isSymbolChar c = true := by
  obtain ⟨hne, hchars, -⟩ := h
  cases name with
  | nil => exact absurd rfl hne
  | cons c name => exact ⟨c, rfl, hchars c List.mem_cons_self⟩

/-! ## The parts of a rule -/

namespace Rule

theorem head?_dropWhile_eq {p : Char → Bool} {text : List Char} :
    ∀ c ∈ (text.dropWhile p).head?, p c = false := by
  intro c hc
  have := List.head?_dropWhile_not p text
  rw [hc] at this
  simpa using this

/-- What is read as a symbol is one, and the text behind it does not go on with it. -/
theorem exists_name_of_readSymbol? {text rest : List Char} {symbol : String}
    (h : readSymbol? text = some (symbol, rest)) (hcomment : ¬ ['/', '/'] <+: text) :
    ∃ name, text = name ++ rest ∧ symbol = String.ofList name ∧ IsSymbol name ∧
      ∀ c ∈ rest.head?, isSymbolChar c = false := by
  unfold readSymbol? at h
  split at h
  · cases h
  · next hne =>
    cases h
    have heq := List.takeWhile_append_dropWhile (p := isSymbolChar) (l := text)
    refine ⟨text.takeWhile isSymbolChar, heq.symm, rfl, ⟨hne, ?_, ?_⟩, head?_dropWhile_eq⟩
    · intro c hc
      exact List.all_eq_true.1 List.all_takeWhile c hc
    · intro hslashes
      exact hcomment (hslashes.trans (List.takeWhile_prefix _))

theorem eq_skipLayout_of_readSymbols {text rest : List Char}
    (h : readSymbols text = .ok ([], rest)) : rest = skipLayout text := by
  unfold readSymbols at h
  split at h
  · next hskip =>
    cases h
    exact hskip.symm
  · next hskip =>
    split at h
    · cases h
      exact hskip.symm
    · split at h
      · cases h
      · split at h <;> cases h

theorem exists_symbol_of_readSymbols {text rest : List Char} {symbol : String}
    {symbols : List String} (h : readSymbols text = .ok (symbol :: symbols, rest)) :
    ∃ more, readSymbol? (skipLayout text) = some (symbol, more) ∧
      readSymbols more = .ok (symbols, rest) := by
  unfold readSymbols at h
  split at h
  · cases h
  · next hskip =>
    split at h
    · cases h
    · split at h
      · cases h
      · next hsymbol =>
        split at h
        · cases h
        · next hmore =>
          cases h
          exact ⟨_, hskip ▸ hsymbol, hmore⟩

/-- A symbol of a right-hand side stands behind layout. -/
theorem exists_gap_of_readSymbols {text rest : List Char} {symbol : String}
    {symbols : List String} (h : readSymbols text = .ok (symbol :: symbols, rest)) :
    ∃ gap name more, text = gap ++ name ++ more ∧ symbol = String.ofList name ∧ IsSymbol name ∧
      IsLayout gap (name ++ more) ∧ (∀ c ∈ more.head?, isSymbolChar c = false) ∧
      readSymbols more = .ok (symbols, rest) := by
  obtain ⟨more, hsymbol, hmore⟩ := exists_symbol_of_readSymbols h
  obtain ⟨gap, heq, hgap⟩ := exists_gap_skipLayout text
  obtain ⟨name, hname, rfl, hissymbol, hrest⟩ :=
    exists_name_of_readSymbol? hsymbol (not_comment_dropLayout false text)
  rw [hname] at heq hgap
  exact ⟨gap, name, more, by rw [heq, List.append_assoc], rfl, hissymbol, hgap, hrest, hmore⟩

theorem exists_body_of_readWeight {text rest : List Char} {weight : Float}
    (h : readWeight text = .ok (weight, rest)) :
    ∃ body, text = body ++ ']' :: rest ∧ (∀ c ∈ body, isWeightChar c = true) ∧
      Decimal.read? (Text.trim body) = some weight ∧ weight.isFinite = true ∧ ¬ weight < 0 := by
  have heq := List.takeWhile_append_dropWhile (p := isWeightChar) (l := text)
  unfold readWeight at h
  split at h
  · next hdrop =>
    rw [hdrop] at heq
    dsimp only at h
    split at h
    · cases h
    · next hread =>
      split at h
      · next hweight =>
        cases h
        exact ⟨_, heq.symm, fun c hc => List.all_eq_true.1 List.all_takeWhile c hc, hread,
          hweight.1, hweight.2⟩
      · cases h
  · cases h

theorem isEndText_of_readEnd {lhs : String} {text rest : List Char} {weight : Float}
    (h : readEnd lhs text = .ok (weight, rest)) :
    ∃ endText, text = endText ++ rest ∧ IsEndText weight endText rest := by
  unfold readEnd at h
  split at h
  · cases h
    exact ⟨[';'], rfl, .plain⟩
  · split at h
    · cases h
    · next afterWeight hweight =>
      split at h
      · next rest' hskip =>
        cases h
        obtain ⟨body, rfl, hbody, hread, hfinite, hsign⟩ := exists_body_of_readWeight hweight
        obtain ⟨gap, heq, hgap⟩ := exists_gap_skipLayout afterWeight
        rw [hskip] at heq hgap
        refine ⟨'[' :: body ++ ']' :: gap ++ [';'], ?_, .weighted hbody hread hfinite hsign hgap⟩
        rw [heq]
        simp
      · cases h
  · cases h

/-! ## Rules -/

/-- What is read as a right-hand side of one or two symbols is one, behind the layout that follows
the arrow and in front of layout that starts with a blank or is empty. -/
theorem isRhsText_of_readSymbols {text rest : List Char} {rhs : Rhs}
    (h : readSymbols text = .ok (rhs.symbols, rest)) :
    ∃ arrowGap rhsText endGap, text = arrowGap ++ rhsText ++ endGap ++ rest ∧
      IsLayout arrowGap (rhsText ++ endGap ++ rest) ∧ IsRhsText rhs rhsText (endGap ++ rest) ∧
      (endGap = [] ∨ IsGap endGap rest) := by
  have hend : ∀ {more : List Char}, readSymbols more = .ok ([], rest) →
      (∀ c ∈ more.head?, isSymbolChar c = false) →
      ∃ endGap, more = endGap ++ rest ∧ (endGap = [] ∨ IsGap endGap rest) := by
    intro more hmore hhead
    obtain ⟨endGap, heq, hgap⟩ := exists_gap_skipLayout more
    rw [← eq_skipLayout_of_readSymbols hmore] at heq hgap
    rw [heq] at hhead
    exact ⟨endGap, heq, hgap.eq_nil_or_isGap hhead⟩
  cases rhs with
  | unary symbol =>
    obtain ⟨arrowGap, name, more, rfl, rfl, hname, hgap, hhead, hmore⟩ :=
      exists_gap_of_readSymbols h
    obtain ⟨endGap, rfl, hendGap⟩ := hend hmore hhead
    rw [← List.append_assoc] at hgap
    exact ⟨arrowGap, name, endGap, by rw [List.append_assoc _ endGap], hgap, .unary hname, hendGap⟩
  | binary left right =>
    obtain ⟨arrowGap, name, more, rfl, rfl, hname, hgap, hhead, hmore⟩ :=
      exists_gap_of_readSymbols h
    obtain ⟨gap, name', more', rfl, rfl, hname', hgap', hhead', hmore'⟩ :=
      exists_gap_of_readSymbols hmore
    obtain ⟨endGap, rfl, hendGap⟩ := hend hmore' hhead'
    rw [List.append_assoc gap] at hhead
    refine ⟨arrowGap, name ++ gap ++ name', endGap, ?_, ?_, .binary hname ?_ hname', hendGap⟩
    · simp only [List.append_assoc]
    · simpa only [List.append_assoc] using hgap
    · exact hgap'.isGap hhead (hname'.exists_head _)

theorem isRuleText_of_read {text rest : List Char} {rule : Rule}
    (h : read text = .ok (rule, rest)) (hcomment : ¬ ['/', '/'] <+: text) :
    ∃ ruleText, text = ruleText ++ rest ∧ IsRuleText rule ruleText rest := by
  unfold read at h
  split at h
  · cases h
  · next lhs afterLhs hlhs =>
    obtain ⟨name, rfl, rfl, hname, hhead⟩ := exists_name_of_readSymbol? hlhs hcomment
    split at h
    · next afterArrow harrow =>
      split at h
      · cases h
      · next symbols afterSymbols hsymbols =>
        split at h
        · cases h
        · next weight _ hend =>
          split at h
          · cases h
          · next rhs hrhs =>
            cases h
            rw [Rhs.ofSymbols?_eq_some_iff.1 hrhs] at hsymbols
            obtain ⟨endText, rfl, hendText⟩ := isEndText_of_readEnd hend
            obtain ⟨arrowGap, rhsText, endGap, rfl, hlayout, hrhsText, hendGap⟩ :=
              isRhsText_of_readSymbols hsymbols
            obtain ⟨gap, heq, hgap⟩ := exists_gap_skipLayout afterLhs
            rw [harrow] at heq hgap
            rw [heq] at hhead
            have hgap := hgap.isGap hhead ⟨'-', rfl, by decide⟩
            simp only [← List.append_assoc, ← List.cons_append] at hgap hlayout hrhsText
            refine ⟨_, ?_, .intro hname hgap hlayout hrhsText hendGap hendText⟩
            rw [heq]
            simp only [List.append_assoc, List.cons_append]
    · cases h

theorem isRulesText_of_readRest {source text : List Char} {rules : List Rule}
    (h : readRest source text = .ok rules) : IsRulesText rules text := by
  fun_induction readRest source text generalizing rules with
  | case1 text hskip =>
    cases h
    obtain ⟨gap, heq, hgap⟩ := exists_gap_skipLayout text
    rw [hskip] at heq hgap
    rw [heq, List.append_nil]
    exact .nil hgap
  | case2 => cases h
  | case3 => cases h
  | case4 text c more hskip rule rest hread _ rules' hrest ih =>
    cases h
    obtain ⟨gap, heq, hgap⟩ := exists_gap_skipLayout text
    obtain ⟨ruleText, htext, hrule⟩ := isRuleText_of_read hread
      (hskip ▸ not_comment_dropLayout false text)
    rw [hskip, htext] at heq hgap
    rw [heq, ← List.append_assoc]
    exact .cons hgap hrule (ih hrest)

end Rule

end PhraseStructure
