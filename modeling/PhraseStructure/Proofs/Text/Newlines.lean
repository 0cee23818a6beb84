import Mathlib.Data.List.Induction
import PhraseStructure.Proofs.Text.Lines
import PhraseStructure.Text.Pieces

/-!
# Newlines in front of lines

A list of lines, written with a newline in front of each, can be cut at its newlines again. If the
lines are not empty and have no mark of a line end in them, the same lines come out. And such a text
can be put on one line, a space for each newline and the margin behind it.
-/

namespace PhraseStructure.Text

/-- The text on one line: each newline, with the spaces behind it, becomes one space. -/
def onOneLine : List Char → List Char
  | [] => []
  | c :: rest =>
    if c = '\n' then ' ' :: onOneLine (rest.dropWhile (· = ' ')) else c :: onOneLine rest
termination_by text => text.length
decreasing_by
  · exact Nat.lt_succ_of_le (List.dropWhile_sublist _).length_le
  · exact Nat.lt_succ_self _

/-- A line with something on it and no mark of a line end. -/
def IsFullLine (line : List Char) : Prop :=
  line ≠ [] ∧ ∀ c ∈ line, c ≠ '\n' ∧ c ≠ '\r'

theorem IsFullLine.newline_notMem {line : List Char} (h : IsFullLine line) : '\n' ∉ line :=
  fun hmem => (h.2 _ hmem).1 rfl

theorem dropWhile_space_eq {text : List Char} (h : ∀ c ∈ text.head?, c ≠ ' ') :
    text.dropWhile (· = ' ') = text := by
  cases text with
  | nil => rfl
  | cons c rest => exact List.dropWhile_cons_of_neg (by simpa using h c rfl)

/-- Only the spaces of a margin are dropped if other text starts behind it. -/
theorem dropWhile_space_append {rest : List Char} (h : ∀ c ∈ rest.head?, c ≠ ' ')
    (margin : List Char) :
    (margin ++ rest).dropWhile (· = ' ') = margin.dropWhile (· = ' ') ++ rest := by
  rw [List.dropWhile_append, dropWhile_space_eq h]
  split
  · next hempty => rw [List.isEmpty_iff.1 hempty, List.nil_append]
  · rfl

theorem onOneLine_append {line : List Char} (h : '\n' ∉ line) (rest : List Char) :
    onOneLine (line ++ rest) = line ++ onOneLine rest := by
  induction line with
  | nil => rfl
  | cons c line ih =>
    rw [List.mem_cons, not_or] at h
    rw [List.cons_append, onOneLine, if_neg (Ne.symm h.1), ih h.2, List.cons_append]

theorem onOneLine_newlines {lines : List (List Char)} (h : ∀ line ∈ lines, '\n' ∉ line) :
    onOneLine (lines.flatMap ('\n' :: ·)) =
      lines.flatMap fun line => ' ' :: line.dropWhile (· = ' ') := by
  induction lines with
  | nil => simp [onOneLine]
  | cons line lines ih =>
    obtain ⟨hline, hlines⟩ := List.forall_mem_cons.1 h
    have hnext : ∀ c ∈ (lines.flatMap ('\n' :: ·)).head?, c ≠ ' ' := by
      cases lines <;> simp
    have hnone : '\n' ∉ line.dropWhile (· = ' ') :=
      fun hmem => hline ((List.dropWhile_sublist _).subset hmem)
    rw [List.flatMap_cons, List.cons_append, onOneLine, if_pos rfl,
      dropWhile_space_append hnext, onOneLine_append hnone, ih hlines, List.flatMap_cons,
      List.cons_append]

theorem pieces_newlines {lines : List (List Char)} (h : ∀ line ∈ lines, '\n' ∉ line) :
    pieces '\n' (lines.flatMap ('\n' :: ·)) = [] :: lines := by
  induction lines using List.reverseRecOn with
  | nil => rfl
  | append_singleton lines line ih =>
    obtain ⟨hlines, hline⟩ := List.forall_mem_append.1 h
    rw [List.flatMap_append, List.flatMap_singleton, pieces_append_mark, ih hlines,
      pieces_of_notMem (hline line (List.mem_singleton_self line)), List.cons_append]

theorem lines_newlines {ls : List (List Char)} (hne : ls ≠ []) (h : ∀ line ∈ ls, IsFullLine line) :
    lines (ls.flatMap ('\n' :: ·)) = [] :: ls := by
  rw [lines]
  induction ls with
  | nil => exact absurd rfl hne
  | cons line others ih =>
    obtain ⟨⟨hfull, hplain⟩, hothers⟩ := List.forall_mem_cons.1 h
    rw [List.flatMap_cons, List.cons_append, cutLines_newline,
      cutLines_append_of_plain hfull hplain]
    cases others with
    | nil => rfl
    | cons next others =>
      rw [ih (List.cons_ne_nil _ _) hothers, prependToFirst, List.append_nil]

end PhraseStructure.Text
