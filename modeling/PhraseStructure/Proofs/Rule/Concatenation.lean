import PhraseStructure.Proofs.Rule.Language
import PhraseStructure.Proofs.Text.Lines

/-!
# Joined texts

A rule is closed by its semicolon and a comment by its newline, so a text of rules that ends with a
newline is read alike whatever follows it, and reading goes on as if what follows stood alone. A
fault in what follows is the same fault, on a line that is further down by the lines in front.
-/

namespace PhraseStructure

open Text (EndsLine)

/-! ## More text behind a part -/

/-- Layout stays layout in front of a longer text, if no comment of it can run on into the new
part. -/
theorem IsLayout.append {gap rest : List Char} (h : IsLayout gap rest)
    (hrest : rest ≠ [] ∨ EndsLine '\n' gap) (more : List Char) : IsLayout gap (rest ++ more) := by
  induction h with
  | nil => exact .nil
  | blank hc _ ih => exact .blank hc (ih (hrest.imp_right EndsLine.of_cons))
  | @comment body gap rest hbody hend _ ih =>
    refine .comment hbody ?_ (ih (hrest.imp_right fun hline => hline.of_cons.of_cons.of_append))
    by_cases hnil : gap ++ rest = []
    · -- the comment would run up to the end of the text
      obtain ⟨rfl, rfl⟩ := List.append_eq_nil_iff.1 hnil
      have hline := hrest.resolve_left (by simp)
      exact absurd (hline.eq_nil (by simpa using hbody)) (by simp)
    · rwa [← List.append_assoc, List.head?_append_of_ne_nil _ hnil]

theorem IsGap.append {gap rest : List Char} (h : IsGap gap rest) (hrest : rest ≠ [])
    (more : List Char) : IsGap gap (rest ++ more) :=
  ⟨h.1.append (.inl hrest) more, h.2⟩

theorem IsRhsText.append {rhs : Rhs} {text rest : List Char} (h : IsRhsText rhs text rest)
    (more : List Char) : IsRhsText rhs text (rest ++ more) := by
  cases h with
  | unary hname => exact .unary hname
  | binary hleft hgap hright =>
    refine .binary hleft ?_ hright
    rw [← List.append_assoc]
    exact hgap.append (by simp [hright.1]) more

theorem IsEndText.append {weight : Float} {text rest : List Char} (h : IsEndText weight text rest)
    (more : List Char) : IsEndText weight text (rest ++ more) := by
  cases h with
  | plain => exact .plain
  | weighted hbody hread hfinite hsign hgap =>
    exact .weighted hbody hread hfinite hsign (hgap.append (.inl (by simp)) more)

theorem IsEndText.ne_nil {weight : Float} {text rest : List Char} (h : IsEndText weight text rest) :
    text ≠ [] := by
  cases h <;> simp

theorem IsRuleText.append {rule : Rule} {text rest : List Char} (h : IsRuleText rule text rest)
    (more : List Char) : IsRuleText rule text (rest ++ more) := by
  cases h with
  | @intro lhs gap arrowGap rhsText endGap endText _ _ _ hlhs hgap harrow hrhs hend hweight =>
    have hne := hweight.ne_nil
    refine .intro hlhs ?_ ?_ ?_ ?_ (hweight.append more)
    · simpa only [List.append_assoc] using hgap.append (by simp) more
    · simpa only [List.append_assoc] using harrow.append (.inl (by simp [hne])) more
    · simpa only [List.append_assoc] using hrhs.append more
    · rw [← List.append_assoc]
      exact hend.imp_right fun hgap => hgap.append (by simp [hne]) more

/-! ## Reading on -/

namespace Rule

/-- Behind a text of rules that ends its last line, reading goes on with what follows. -/
theorem readRest_append {rules : List Rule} {text : List Char} (h : IsRulesText rules text)
    (hend : EndsLine '\n' text) (source more : List Char) :
    readRest source (text ++ more) = (readRest source more).map (rules ++ ·) := by
  induction h with
  | @nil gap hgap =>
    have hlayout := hgap.append (.inr hend) more
    rw [List.nil_append] at hlayout
    rw [readRest_layout_append hlayout]
    cases readRest source more <;> rfl
  | @cons rule rules gap ruleText rest hgap hrule _ ih =>
    have hlayout := hgap.append (.inl (by simp [(skipLayout_ruleText hrule).2])) more
    rw [List.append_assoc] at hlayout
    rw [List.append_assoc, List.append_assoc, readRest_layout_append hlayout,
      readRest_ruleText_append (hrule.append more), ih hend.of_append]
    cases readRest source more <;> rfl

end Rule

/-! ## Lines further down -/

/-- The error with some more lines in front. -/
def FormatError.below (e : FormatError) (lines : Nat) : FormatError :=
  { e with line := e.line + lines }

theorem Text.lineOf_append_of_suffix {text rest : List Char} (h : rest <:+ text)
    (before : List Char) :
    lineOf (before ++ text) rest = lineOf text rest + before.count '\n' := by
  obtain ⟨middle, rfl⟩ := h
  rw [← List.append_assoc, lineOf_append, lineOf_append, List.count_append]
  omega

namespace Rule

/-- With more text in front of its source a text is read alike, but for the lines of its faults. -/
theorem readRest_source_append {source text : List Char} (h : text <:+ source)
    (before : List Char) :
    readRest (before ++ source) text =
      (readRest source text).mapError (·.below (before.count '\n')) := by
  have hskip := (skipLayout_suffix text).trans h
  fun_induction readRest source text with
  | case1 text hnil =>
    rw [readRest_of_skipLayout_eq_nil hnil]
    rfl
  | case2 text c more hcons fault hread =>
    rw [← hcons] at hread ⊢
    rw [readRest_of_read_eq_error (by simp [hcons]) hread, Text.lineOf_append_of_suffix hskip]
    rfl
  | case3 text c more hcons rule rest hread _ e herror ih =>
    have hrest := (suffix_of_read hread).1.trans (hcons ▸ hskip)
    rw [← hcons] at hread
    rw [readRest_of_read_eq_ok (by simp [hcons]) hread,
      ih hrest ((skipLayout_suffix rest).trans hrest), herror]
    rfl
  | case4 text c more hcons rule rest hread _ rules hok ih =>
    have hrest := (suffix_of_read hread).1.trans (hcons ▸ hskip)
    rw [← hcons] at hread
    rw [readRest_of_read_eq_ok (by simp [hcons]) hread,
      ih hrest ((skipLayout_suffix rest).trans hrest), hok]
    rfl

/-- A text of rules that ends its last line may be put in front of any text: if this is read, its
rules come behind the others, and if it is not, it has the same fault, further down by the lines in
front. -/
theorem readAll_append {front : String} {rules : List Rule}
    (hread : readAll front.toList = .ok rules) (hend : EndsLine '\n' front.toList)
    (text : String) :
    (∀ more, readAll text.toList = .ok more →
      readAll (front ++ text).toList = .ok (rules ++ more)) ∧
    ∀ line fault, readAll text.toList = .error ⟨line, fault⟩ →
      readAll (front ++ text).toList = .error ⟨line + front.toList.count '\n', fault⟩ := by
  have hjoined : readAll (front ++ text).toList =
      ((readAll text.toList).mapError (·.below (front.toList.count '\n'))).map (rules ++ ·) := by
    rw [readAll, String.toList_append, readRest_append (isRulesText_of_readRest hread) hend,
      readRest_source_append (List.suffix_refl _)]
    rfl
  constructor
  · intro more hmore
    rw [hjoined, hmore]
    rfl
  · intro line fault hfault
    rw [hjoined, hfault]
    rfl

def commentedRule : String := "A -> b; // one\n"

theorem readAll_commentedRule : readAll commentedRule.toList = .ok [⟨"A", .unary "b", 1.0⟩] := by
  have hletters : IsSymbol ['A'] ∧ IsSymbol ['b'] := by decide
  have hspace : ∀ rest, IsLayout [' '] rest := fun _ => .blank Text.isBlank_space .nil
  have hgap : ∀ rest, IsGap [' '] rest := fun rest => ⟨hspace rest, ' ', rfl, Text.isBlank_space⟩
  have hrule := @IsRuleText.intro ['A'] [' '] [' '] ['b'] [] [';'] " // one\n".toList _ 1.0
    hletters.1 (hgap _) (hspace _) (.unary hletters.2) (.inl rfl) .plain
  have hcomment := @IsLayout.comment [' ', 'o', 'n', 'e'] ['\n'] [] (by decide) (by simp)
    (.blank Text.isBlank_newline .nil)
  exact readRest_of_isRulesText (.cons .nil hrule (.nil (.blank Text.isBlank_space hcomment)))

/-- Behind this line a fault is one line further down, and the same line again is read as one more
rule. -/
theorem readAll_append_commentedRule :
    (readAll commentedRule.toList = .ok [⟨"A", .unary "b", 1.0⟩] ∧
      EndsLine '\n' commentedRule.toList) ∧
      readAll (commentedRule ++ commentedRule).toList =
        .ok [⟨"A", .unary "b", 1.0⟩, ⟨"A", .unary "b", 1.0⟩] ∧
      readAll (commentedRule ++ "\nC d;").toList = .error ⟨3, .noArrow (some "d;")⟩ := by
  have hend : EndsLine '\n' commentedRule.toList := by
    intro c hc
    exact (Option.some.inj hc).symm
  have hread := readAll_commentedRule
  have hfault : readAll "\nC d;".toList = .error ⟨2, .noArrow (some "d;")⟩ := by cbv
  exact ⟨⟨hread, hend⟩, (readAll_append hread hend _).1 _ hread,
    (readAll_append hread hend _).2 _ _ hfault⟩

end Rule

end PhraseStructure
