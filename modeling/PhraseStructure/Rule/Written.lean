import PhraseStructure.Rule.Reading

/-!
# Rules in writing

The texts that are lists of rules, said without reading them. A comment ends only at a newline or
at the end of the whole text, so each part is described together with the text that follows it.
The lemmas say that reading passes over exactly these parts.
-/

namespace PhraseStructure

/-- `gap` is layout in front of `rest`: blanks and comments, each comment up to a newline or to
the end of everything. -/
inductive IsLayout : (gap rest : List Char) → Prop where
  | nil {rest : List Char} : IsLayout [] rest
  | blank {c : Char} {gap rest : List Char} (hc : Text.isBlank c = true)
      (hgap : IsLayout gap rest) : IsLayout (c :: gap) rest
  | comment {body gap rest : List Char} (hbody : '\n' ∉ body)
      (hend : ∀ c ∈ (gap ++ rest).head?, c = '\n') (hgap : IsLayout gap rest) :
      IsLayout ('/' :: '/' :: (body ++ gap)) rest

/-- Layout that starts with a blank, as it must behind a symbol. -/
def IsGap (gap rest : List Char) : Prop :=
  IsLayout gap rest ∧ ∃ c ∈ gap.head?, Text.isBlank c = true

/-- The text of a symbol. -/
def IsSymbol (name : List Char) : Prop :=
  name ≠ [] ∧ (∀ c ∈ name, Rule.isSymbolChar c = true) ∧ ¬ ['/', '/'] <+: name

instance (name : List Char) : Decidable (IsSymbol name) :=
  decidable_of_iff (name.isEmpty = false ∧ name.all Rule.isSymbolChar = true ∧
    ['/', '/'].isPrefixOf name = false) (by simp [IsSymbol, ← Bool.not_eq_true])

/-- A right-hand side in front of `rest`. -/
inductive IsRhsText : Rhs → (text rest : List Char) → Prop where
  | unary {name rest : List Char} (hname : IsSymbol name) :
      IsRhsText (.unary (String.ofList name)) name rest
  | binary {left gap right rest : List Char} (hleft : IsSymbol left)
      (hgap : IsGap gap (right ++ rest)) (hright : IsSymbol right) :
      IsRhsText (.binary (String.ofList left) (String.ofList right)) (left ++ gap ++ right) rest

/-- The end of a rule in front of `rest`, with the weight it gives. -/
inductive IsEndText : Float → (text rest : List Char) → Prop where
  | plain {rest : List Char} : IsEndText 1.0 [';'] rest
  | weighted {body gap rest : List Char} {weight : Float}
      (hbody : ∀ c ∈ body, Rule.isWeightChar c = true)
      (hread : Decimal.read? (Text.trim body) = some weight) (hfinite : weight.isFinite = true)
      (hsign : ¬ weight < 0) (hgap : IsLayout gap (';' :: rest)) :
      IsEndText weight ('[' :: body ++ ']' :: gap ++ [';']) rest

/-- A rule in front of `rest`. -/
inductive IsRuleText : Rule → (text rest : List Char) → Prop where
  | intro {lhs gap arrowGap rhsText endGap endText rest : List Char} {rhs : Rhs} {weight : Float}
      (hlhs : IsSymbol lhs)
      (hgap : IsGap gap ('-' :: '>' :: arrowGap ++ rhsText ++ endGap ++ endText ++ rest))
      (harrow : IsLayout arrowGap (rhsText ++ endGap ++ endText ++ rest))
      (hrhs : IsRhsText rhs rhsText (endGap ++ endText ++ rest))
      (hend : endGap = [] ∨ IsGap endGap (endText ++ rest))
      (hweight : IsEndText weight endText rest) :
      IsRuleText ⟨String.ofList lhs, rhs, weight⟩
        (lhs ++ gap ++ '-' :: '>' :: arrowGap ++ rhsText ++ endGap ++ endText) rest

/-- A whole text of rules, with layout before each and after the last. -/
inductive IsRulesText : List Rule → List Char → Prop where
  | nil {gap : List Char} (hgap : IsLayout gap []) : IsRulesText [] gap
  | cons {rule : Rule} {rules : List Rule} {gap text rest : List Char}
      (hgap : IsLayout gap (text ++ rest)) (hrule : IsRuleText rule text rest)
      (hrest : IsRulesText rules rest) : IsRulesText (rule :: rules) (gap ++ text ++ rest)

/-- Inside a comment everything up to a newline is dropped. -/
theorem dropLayout_comment_append {body rest : List Char} (hbody : '\n' ∉ body)
    (hrest : ∀ c ∈ rest.head?, c = '\n') :
    dropLayout true (body ++ rest) = skipLayout rest := by
  induction body with
  | nil =>
    cases rest with
    | nil => rfl
    | cons c rest =>
      obtain rfl := hrest c (by simp)
      rfl
  | cons c body ih =>
    have hc : c ≠ '\n' := fun e => hbody (by simp [e])
    have hmem : '\n' ∉ body := fun m => hbody (by simp [m])
    simpa [dropLayout, hc] using ih hmem

theorem IsLayout.skipLayout_append {gap rest : List Char} (h : IsLayout gap rest) :
    skipLayout (gap ++ rest) = skipLayout rest := by
  induction h with
  | nil => rfl
  | blank hc _ ih => rw [List.cons_append, skipLayout_of_isBlank hc, ih]
  | @comment body gap rest hbody hend _ ih =>
    have hslash : Text.isBlank '/' = false := rfl
    have hdrop : dropLayout true ('/' :: body ++ (gap ++ rest)) = skipLayout (gap ++ rest) :=
      dropLayout_comment_append (by simpa using hbody) hend
    rw [ih] at hdrop
    simp only [List.cons_append, List.append_assoc] at hdrop ⊢
    simpa [skipLayout, dropLayout, hslash] using hdrop

/-- Reading a symbol takes all of it, up to what cannot belong to a symbol. -/
theorem IsSymbol.readSymbol?_append {name rest : List Char} (h : IsSymbol name)
    (hrest : ∀ c ∈ rest.head?, Rule.isSymbolChar c = false) :
    Rule.readSymbol? (name ++ rest) = some (String.ofList name, rest) := by
  have htake : rest.takeWhile Rule.isSymbolChar = [] := by
    cases rest with
    | nil => rfl
    | cons c rest => simp [hrest c (by simp)]
  have hdrop : rest.dropWhile Rule.isSymbolChar = rest := by
    cases rest with
    | nil => rfl
    | cons c rest => simp [hrest c (by simp)]
  unfold Rule.readSymbol?
  rw [List.takeWhile_append_of_pos h.2.1, htake, List.dropWhile_append_of_pos h.2.1, hdrop,
    List.append_nil]
  cases name with
  | nil => exact absurd rfl h.1
  | cons c name => rfl

end PhraseStructure
