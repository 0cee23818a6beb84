import Mathlib.Data.List.Basic
import PhraseStructure.Text.Lines

/-!
# Texts that end a line

A text whose last line is finished by a newline can be followed by any other text: the lines of
both are those of the first and then those of the second (`cutLines_append`), so texts of one line
each make as many lines as there are texts (`length_cutLines_flatten`). And a text can be
cut into lines before its characters are spelled out or after that, as long as no other character
is spelled with a mark of a line end (`SpellsMarks.cutLines_flatMap`).
-/

namespace PhraseStructure.Text

variable {α β : Type} {newline ret : α}

/-! ## Finished lines -/

/-- The text is empty or ends with a newline, so that what follows starts a line of its own. -/
def EndsLine (newline : α) (text : List α) : Prop :=
  ∀ c ∈ text.getLast?, c = newline

@[simp] theorem endsLine_nil : EndsLine newline [] := by
  simp [EndsLine]

theorem EndsLine.of_append {before text : List α} (h : EndsLine newline (before ++ text)) :
    EndsLine newline text := by
  intro c hc
  apply h c
  rw [List.getLast?_append, Option.mem_def.1 hc]
  rfl

theorem EndsLine.of_cons {c : α} {text : List α} (h : EndsLine newline (c :: text)) :
    EndsLine newline text :=
  @EndsLine.of_append _ _ [c] text h

/-- Without a newline there is no line to end. -/
theorem EndsLine.eq_nil {text : List α} (h : EndsLine newline text) (hnone : newline ∉ text) :
    text = [] := by
  by_contra hne
  have hlast := List.getLast?_eq_some_getLast hne
  exact hnone (h _ hlast ▸ List.getLast_mem hne)

theorem EndsLine.eq_nil_or_append {text : List α} (h : EndsLine newline text) :
    text = [] ∨ ∃ before, text = before ++ [newline] := by
  rcases List.eq_nil_or_concat text with rfl | ⟨before, c, rfl⟩
  · exact .inl rfl
  · rw [List.concat_eq_append] at h ⊢
    have hc : c = newline := h c (by simp)
    exact .inr ⟨before, by rw [hc]⟩

/-! ## Spelled characters -/

variable {newline' ret' : β} {spell : α → List β}

/-- The two marks of a line end are spelled by themselves and stand in the spelling of no other
character. -/
structure SpellsMarks (newline ret : α) (newline' ret' : β) (spell : α → List β) : Prop where
  newline_eq : spell newline = [newline']
  ret_eq : spell ret = [ret']
  marks_ne : ret' ≠ newline'
  ne_nil : ∀ c, spell c ≠ []
  plain : ∀ c, c ≠ newline → c ≠ ret → ∀ b ∈ spell c, b ≠ newline' ∧ b ≠ ret'

theorem SpellsMarks.ret_ne_newline (h : SpellsMarks newline ret newline' ret' spell) :
    ret ≠ newline := by
  rintro rfl
  exact h.marks_ne (List.singleton_inj.1 (h.ret_eq.symm.trans h.newline_eq))

theorem SpellsMarks.head?_flatMap_iff (h : SpellsMarks newline ret newline' ret' spell)
    (text : List α) : (text.flatMap spell).head? = some newline' ↔ text.head? = some newline := by
  cases text with
  | nil => simp
  | cons c rest =>
    obtain ⟨b, others, hspell⟩ := List.exists_cons_of_ne_nil (h.ne_nil c)
    rw [List.flatMap_cons, hspell, List.cons_append, List.head?_cons, List.head?_cons,
      Option.some_inj, Option.some_inj]
    constructor
    · rintro rfl
      by_contra hnewline
      by_cases hret : c = ret
      · rw [hret, h.ret_eq] at hspell
        exact h.marks_ne (List.cons.inj hspell).1
      · exact (h.plain c hnewline hret b (hspell ▸ List.mem_cons_self)).1 rfl
    · rintro rfl
      rw [h.newline_eq] at hspell
      exact (List.cons.inj hspell).1.symm

theorem EndsLine.flatMap {text : List α} (h : EndsLine newline text)
    (hspell : spell newline = [newline']) : EndsLine newline' (text.flatMap spell) := by
  rcases h.eq_nil_or_append with rfl | ⟨before, rfl⟩
  · exact endsLine_nil
  · intro c hc
    rw [List.flatMap_append, List.flatMap_singleton, hspell] at hc
    simpa using hc.symm

/-! ## Cutting -/

/-- The lines with more text in front of the first one. -/
def prependToFirst (front : List α) : List (List α) → List (List α)
  | [] => [front]
  | line :: others => (front ++ line) :: others

theorem prependToFirst_prependToFirst (front next : List α) (lines : List (List α)) :
    prependToFirst front (prependToFirst next lines) = prependToFirst (front ++ next) lines := by
  cases lines with
  | nil => rfl
  | cons line others => simp [prependToFirst]

theorem map_prependToFirst (spell : α → List β) (front : List α) (lines : List (List α)) :
    (prependToFirst front lines).map (·.flatMap spell) =
      prependToFirst (front.flatMap spell) (lines.map (·.flatMap spell)) := by
  cases lines with
  | nil => rfl
  | cons line others => simp [prependToFirst]

variable [DecidableEq α] [DecidableEq β]

/-- A character that is no part of a line end joins the line behind it. -/
theorem cutLines_cons {c : α} {rest : List α} (hnewline : c ≠ newline)
    (hret : ¬ (c = ret ∧ rest.head? = some newline)) :
    cutLines newline ret (c :: rest) = prependToFirst [c] (cutLines newline ret rest) := by
  rw [cutLines, if_neg hnewline, if_neg hret]
  cases cutLines newline ret rest <;> rfl

theorem cutLines_ne_nil {text : List α} (h : text ≠ []) : cutLines newline ret text ≠ [] := by
  induction text with
  | nil => exact absurd rfl h
  | cons c rest ih =>
    rw [cutLines]
    split
    · exact List.cons_ne_nil _ _
    · split
      · next hret =>
        apply ih
        rintro rfl
        exact absurd hret.2 (by simp)
      · split <;> exact List.cons_ne_nil _ _

theorem cutLines_append {text : List α} (h : EndsLine newline text) (rest : List α) :
    cutLines newline ret (text ++ rest) =
      cutLines newline ret text ++ cutLines newline ret rest := by
  induction text with
  | nil => rfl
  | cons c text ih =>
    specialize ih h.of_cons
    by_cases hnewline : c = newline
    · rw [hnewline, List.cons_append, cutLines_newline, cutLines_newline, ih, List.cons_append]
    -- the text goes on, since it does not end with this character
    have hne : text ≠ [] := by
      rintro rfl
      exact hnewline (h c rfl)
    have hhead : (text ++ rest).head? = text.head? := List.head?_append_of_ne_nil _ hne
    by_cases hret : c = ret ∧ text.head? = some newline
    · rw [List.cons_append, cutLines, if_neg hnewline, hhead, if_pos hret, ih, cutLines,
        if_neg hnewline, if_pos hret]
    · rw [List.cons_append, cutLines_cons hnewline (hhead ▸ hret), cutLines_cons hnewline hret, ih]
      obtain ⟨line, others, hlines⟩ := List.exists_cons_of_ne_nil (cutLines_ne_nil hne)
      rw [hlines]
      rfl

/-- A line with the newline that ends it, and no other one. -/
def IsEndedLine (newline : α) (line : List α) : Prop :=
  ∃ front, newline ∉ front ∧ line = front ++ [newline]

omit [DecidableEq α] in
theorem IsEndedLine.endsLine {line : List α} (h : IsEndedLine newline line) :
    EndsLine newline line := by
  obtain ⟨front, -, rfl⟩ := h
  simp [EndsLine]

theorem IsEndedLine.length_cutLines {line : List α} (h : IsEndedLine newline line) :
    (cutLines newline ret line).length = 1 := by
  obtain ⟨front, hfront, rfl⟩ := h
  induction front with
  | nil => rw [List.nil_append, cutLines_newline, cutLines_nil, List.length_singleton]
  | cons c front ih =>
    rw [List.mem_cons, not_or] at hfront
    specialize ih hfront.2
    rw [List.cons_append, cutLines, if_neg (Ne.symm hfront.1)]
    split
    · exact ih
    · split
      · rfl
      · next hlines => rwa [hlines] at ih

/-- Lines that are written one after the other are as many when the text is cut again. -/
theorem length_cutLines_flatten {lines : List (List α)}
    (h : ∀ line ∈ lines, IsEndedLine newline line) :
    (cutLines newline ret lines.flatten).length = lines.length := by
  induction lines with
  | nil => rfl
  | cons line others ih =>
    obtain ⟨hline, hothers⟩ := List.forall_mem_cons.1 h
    rw [List.flatten_cons, cutLines_append hline.endsLine, List.length_append,
      hline.length_cutLines, ih hothers, List.length_cons, Nat.add_comm]

/-- Text without line ends joins the line behind it. -/
theorem cutLines_append_of_plain {front : List α} (hne : front ≠ [])
    (hplain : ∀ c ∈ front, c ≠ newline ∧ c ≠ ret) (rest : List α) :
    cutLines newline ret (front ++ rest) = prependToFirst front (cutLines newline ret rest) := by
  induction front with
  | nil => exact absurd rfl hne
  | cons c front ih =>
    obtain ⟨⟨hnewline, hret⟩, hfront⟩ := List.forall_mem_cons.1 hplain
    rw [List.cons_append, cutLines_cons hnewline fun h => hret h.1]
    by_cases hnil : front = []
    · rw [hnil, List.nil_append]
    · rw [ih hnil hfront, prependToFirst_prependToFirst, List.singleton_append]

/-- The lines of a spelled text are its lines, spelled. -/
theorem SpellsMarks.cutLines_flatMap (h : SpellsMarks newline ret newline' ret' spell)
    (text : List α) :
    cutLines newline' ret' (text.flatMap spell) =
      (cutLines newline ret text).map (·.flatMap spell) := by
  induction text with
  | nil => rfl
  | cons c rest ih =>
    rw [List.flatMap_cons]
    by_cases hnewline : c = newline
    · rw [hnewline, h.newline_eq, List.singleton_append, cutLines_newline, cutLines_newline, ih]
      rfl
    by_cases hret : c = ret
    · rw [hret, h.ret_eq, List.singleton_append]
      by_cases hend : rest.head? = some newline
      · rw [cutLines, if_neg h.marks_ne, if_pos ⟨rfl, (h.head?_flatMap_iff rest).2 hend⟩, cutLines,
          if_neg h.ret_ne_newline, if_pos ⟨rfl, hend⟩, ih]
      · rw [cutLines_cons h.marks_ne fun hmark => hend ((h.head?_flatMap_iff rest).1 hmark.2),
          cutLines_cons h.ret_ne_newline fun hmark => hend hmark.2, ih, map_prependToFirst,
          List.flatMap_singleton, h.ret_eq]
    · rw [cutLines_append_of_plain (h.ne_nil c) (h.plain c hnewline hret), ih,
        cutLines_cons hnewline fun hmark => hret hmark.1, map_prependToFirst,
        List.flatMap_singleton]

end PhraseStructure.Text
