import PhraseStructure.Grammar.Text
import PhraseStructure.Proofs.Rule.Concatenation

/-!
# The first malformed rule

What stands in front of a malformed rule was read as rules and layout, and it is read so without
the rest of the text: no rule and no finished comment needs what follows it. So a text that is not
read falls into a front that is and a rest that starts with the malformed rule
(`Rule.readAll_eq_error`). The error gives the line where this rule starts, however far behind it
the fault shows.
-/

namespace PhraseStructure

/-! ## Less text behind a part -/

theorem IsLayout.of_append {gap rest more : List Char} (h : IsLayout gap (rest ++ more)) :
    IsLayout gap rest := by
  generalize htext : rest ++ more = text at h
  induction h with
  | nil => exact .nil
  | blank hc _ ih => exact .blank hc (ih htext)
  | @comment body gap text hbody hend _ ih =>
    refine .comment hbody ?_ (ih htext)
    intro c hc
    -- a comment that now runs up to the end has no next character
    rw [← htext, ← List.append_assoc, List.head?_append, hc] at hend
    exact hend c rfl

theorem IsGap.of_append {gap rest more : List Char} (h : IsGap gap (rest ++ more)) :
    IsGap gap rest :=
  ⟨h.1.of_append, h.2⟩

theorem IsRhsText.of_append {rhs : Rhs} {text rest more : List Char}
    (h : IsRhsText rhs text (rest ++ more)) : IsRhsText rhs text rest := by
  cases h with
  | unary hname => exact .unary hname
  | binary hleft hgap hright =>
    rw [← List.append_assoc] at hgap
    exact .binary hleft hgap.of_append hright

theorem IsEndText.of_append {weight : Float} {text rest more : List Char}
    (h : IsEndText weight text (rest ++ more)) : IsEndText weight text rest := by
  cases h with
  | plain => exact .plain
  | weighted hbody hread hfinite hsign hgap =>
    rw [← List.cons_append] at hgap
    exact .weighted hbody hread hfinite hsign hgap.of_append

theorem IsRuleText.of_append {rule : Rule} {text rest more : List Char}
    (h : IsRuleText rule text (rest ++ more)) : IsRuleText rule text rest := by
  cases h with
  | intro hlhs hgap harrow hrhs hend hweight =>
    rw [← List.append_assoc] at hgap harrow hrhs hend
    exact .intro hlhs hgap.of_append harrow.of_append hrhs.of_append
      (hend.imp_right IsGap.of_append) hweight.of_append

/-! ## The text behind layout -/

theorem isBlank_head_dropLayout (comment : Bool) (text : List Char) :
    ∀ c ∈ (dropLayout comment text).head?, Text.isBlank c = false := by
  fun_induction dropLayout comment text with
  | case1 => simp
  | case2 _ _ ih => exact ih
  | case3 _ _ _ ih => exact ih
  | case4 _ _ _ _ ih => exact ih
  | case5 c rest hblank _ =>
    intro d hd
    cases hd
    simpa using hblank

theorem skipLayout_skipLayout (text : List Char) :
    skipLayout (skipLayout text) = skipLayout text := by
  obtain ⟨gap, heq, hgap⟩ := exists_gap_skipLayout text
  rw [← hgap.skipLayout_append, ← heq]

namespace Rule

/-! ## The malformed rule -/

/-- A text that is not read to its end: rules are read from its front, and behind layout there is
one that is not. -/
theorem exists_front_of_readRest {source text : List Char} {e : FormatError}
    (h : readRest source text = .error e) :
    ∃ rules front rest, text = front ++ skipLayout rest ∧ IsRulesText rules front ∧
      skipLayout rest ≠ [] ∧ read (skipLayout rest) = .error e.fault ∧
      e.line = Text.lineOf source (skipLayout rest) := by
  fun_induction readRest source text with
  | case1 => cases h
  | case2 text c more hskip fault hread =>
    cases h
    obtain ⟨gap, heq, hgap⟩ := exists_gap_skipLayout text
    have hfront : IsLayout gap ([] ++ skipLayout text) := hgap
    refine ⟨[], gap, text, heq, .nil hfront.of_append, ?_⟩
    rw [hskip]
    exact ⟨by simp, hread, rfl⟩
  | case3 text c more hskip rule rest hread _ fault hrest ih =>
    cases h
    obtain ⟨rules, front, last, rfl, hfront, hmalformed⟩ := ih hrest
    obtain ⟨gap, heq, hgap⟩ := exists_gap_skipLayout text
    obtain ⟨ruleText, htext, hrule⟩ := isRuleText_of_read hread
      (hskip ▸ not_comment_dropLayout false text)
    rw [hskip, htext, ← List.append_assoc] at heq hgap
    refine ⟨rule :: rules, gap ++ ruleText ++ front, last, ?_,
      .cons hgap.of_append hrule.of_append hfront, hmalformed⟩
    rw [heq]
    simp only [List.append_assoc]
  | case4 => cases h

/-- A text that is not read falls into a front that is read and a rest that starts with a malformed
rule: with neither a blank nor a comment, on the line of the error. Alone, the rest has the same
fault on its first line. A grammar is refused with the same error, and apart from that only if the
text is nothing but layout. -/
theorem readAll_eq_error (text : String) :
    (∀ line fault, readAll text.toList = .error ⟨line, fault⟩ →
      ∃ front rest : String, text = front ++ rest ∧ (∃ rules, readAll front.toList = .ok rules) ∧
        (∃ c ∈ rest.toList.head?, Text.isBlank c = false) ∧ ¬ ['/', '/'] <+: rest.toList ∧
        line = 1 + front.toList.count '\n' ∧ read rest.toList = .error fault ∧
        readAll rest.toList = .error ⟨1, fault⟩) ∧
    ∀ e, Grammar.ofText text = .error e ↔
      readAll text.toList = .error e ∨ IsLayout text.toList [] ∧ e = ⟨1, .noRules⟩ := by
  constructor
  · intro line fault h
    obtain ⟨rules, front, rest, heq, hfront, hne, hread, hline⟩ := exists_front_of_readRest h
    refine ⟨String.ofList front, String.ofList (skipLayout rest), ?_, ⟨rules, ?_⟩, ?_⟩
    · rw [← String.ofList_append, ← heq, String.ofList_toList]
    · rw [String.toList_ofList]
      exact readRest_of_isRulesText hfront
    rw [String.toList_ofList, String.toList_ofList]
    obtain ⟨c, more, hcons⟩ := List.exists_cons_of_ne_nil hne
    have hhead : c ∈ (skipLayout rest).head? := by rw [hcons]; rfl
    refine ⟨⟨c, hhead, isBlank_head_dropLayout false rest c hhead⟩,
      not_comment_dropLayout false rest, ?_, hread, ?_⟩
    · rw [heq, Text.lineOf_append] at hline
      rw [Nat.add_comm]
      exact hline
    · have hskip := skipLayout_skipLayout rest
      rw [readAll, readRest_of_read_eq_error (by rwa [hskip]) (by rwa [hskip]), hskip,
        Text.lineOf_self]
  · intro e
    have hempty : readAll text.toList = .ok [] ↔ IsLayout text.toList [] := by
      rw [readAll_eq_ok_iff_isRulesText]
      constructor
      · rintro ⟨hgap⟩
        exact hgap
      · exact .nil
    rw [← hempty, Grammar.ofText]
    split
    · next hread => simp [hread]
    · next hread => simp [hread, eq_comm]
    · next hne hread => simpa [hread] using fun hnil _ => hne hnil

/-- A rule on its line, and another one that has no semicolon and goes on over three more lines. -/
def unfinishedRule : String := commentedRule ++ "\nÜ -> c // two\n\nD -> e"

theorem readAll_unfinishedRule :
    readAll unfinishedRule.toList = .error ⟨3, .unfinished "Ü"⟩ := by
  have hend : Text.EndsLine '\n' commentedRule.toList := by
    intro c hc
    exact (Option.some.inj hc).symm
  have hskip : skipLayout "\nÜ -> c // two\n\nD -> e".toList =
      "Ü -> c // two\n\nD -> e".toList := by
    decide
  have hread : read "Ü -> c // two\n\nD -> e".toList = .error (.unfinished "Ü") := by cbv
  rw [readAll, unfinishedRule, String.toList_append,
    readRest_append (isRulesText_of_readRest readAll_commentedRule) hend,
    readRest_of_read_eq_error (by rw [hskip]; decide) (by rw [hskip, hread]), hskip]
  rfl

/-- The fault shows at the end of the text, and the error names the line where the rule starts. -/
theorem readAll_eq_error_unfinishedRule :
    readAll unfinishedRule.toList = .error ⟨3, .unfinished "Ü"⟩ ∧
      (∃ front rest : String, unfinishedRule = front ++ rest ∧
        (∃ rules, readAll front.toList = .ok rules) ∧ 3 = 1 + front.toList.count '\n' ∧
        readAll rest.toList = .error ⟨1, .unfinished "Ü"⟩) ∧
      Grammar.ofText unfinishedRule = .error ⟨3, .unfinished "Ü"⟩ := by
  have hread := readAll_unfinishedRule
  obtain ⟨hcut, hgrammar⟩ := readAll_eq_error unfinishedRule
  obtain ⟨front, rest, heq, hfront, -, -, hline, -, hrest⟩ := hcut 3 _ hread
  exact ⟨hread, ⟨front, rest, heq, hfront, hline, hrest⟩, (hgrammar _).2 (.inl hread)⟩

end Rule

end PhraseStructure
