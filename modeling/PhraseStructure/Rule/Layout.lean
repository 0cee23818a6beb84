import PhraseStructure.Text.Blank

/-!
# Layout

What may stand between the symbols of grammar text: blank characters, and comments, which start
with two slashes and run to the end of their line.
-/

namespace PhraseStructure

/-- Drops layout from the start of a text; `comment` says whether the text starts inside a
comment. -/
def dropLayout : (comment : Bool) → List Char → List Char
  | _, [] => []
  | true, c :: rest => dropLayout (c ≠ '\n') rest
  | false, c :: rest =>
    if Text.isBlank c then dropLayout false rest
    else if c = '/' ∧ rest.head? = some '/' then dropLayout true rest
    else c :: rest

/-- The text from its first character on that is no layout. -/
def skipLayout (text : List Char) : List Char :=
  dropLayout false text

theorem dropLayout_suffix (comment : Bool) (text : List Char) :
    dropLayout comment text <:+ text := by
  fun_induction dropLayout comment text with
  | case1 => exact List.suffix_refl _
  | case2 c rest ih => exact ih.trans (List.suffix_cons c rest)
  | case3 c rest _ ih => exact ih.trans (List.suffix_cons c rest)
  | case4 c rest _ _ ih => exact ih.trans (List.suffix_cons c rest)
  | case5 => exact List.suffix_refl _

theorem skipLayout_suffix (text : List Char) : skipLayout text <:+ text :=
  dropLayout_suffix false text

@[simp] theorem skipLayout_nil : skipLayout [] = [] := rfl

theorem skipLayout_of_isBlank {c : Char} (h : Text.isBlank c = true) (rest : List Char) :
    skipLayout (c :: rest) = skipLayout rest := by
  simp [skipLayout, dropLayout, h]

end PhraseStructure
