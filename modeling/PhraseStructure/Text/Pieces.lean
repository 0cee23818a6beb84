/-!
# Pieces

A text cut at every occurrence of one mark. There is always one piece more than there are marks,
and joined with the mark between them the pieces are the text.
-/

namespace PhraseStructure.Text

variable {α : Type} [DecidableEq α]

/-- The pieces between the occurrences of a mark. -/
def pieces (mark : α) : List α → List (List α)
  | [] => [[]]
  | c :: rest =>
    if c = mark then [] :: pieces mark rest
    else match pieces mark rest with
      | [] => [[c]]
      | piece :: others => (c :: piece) :: others

@[simp] theorem pieces_ne_nil (mark : α) (text : List α) : pieces mark text ≠ [] := by
  fun_cases pieces mark text <;> simp_all

theorem pieces_of_notMem {mark : α} {text : List α} (h : mark ∉ text) :
    pieces mark text = [text] := by
  induction text with
  | nil => rfl
  | cons c rest ih =>
    have hc : c ≠ mark := fun e => h (by simp [e])
    have hrest : mark ∉ rest := fun m => h (by simp [m])
    simp [pieces, hc, ih hrest]

/-- A mark ends one piece and starts the next. -/
theorem pieces_append_mark (mark : α) (before after : List α) :
    pieces mark (before ++ mark :: after) = pieces mark before ++ pieces mark after := by
  induction before with
  | nil => simp [pieces]
  | cons c rest ih =>
    by_cases hc : c = mark
    · simp [pieces, hc, ih]
    · simp only [List.cons_append, pieces, if_neg hc, ih]
      cases hrest : pieces mark rest with
      | nil => exact absurd hrest (pieces_ne_nil mark rest)
      | cons piece others => rfl

end PhraseStructure.Text
