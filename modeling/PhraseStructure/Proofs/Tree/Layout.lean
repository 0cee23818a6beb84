import Mathlib.Data.List.Forall2
import PhraseStructure.Proofs.Text.Newlines
import PhraseStructure.Text.Blank
import PhraseStructure.Tree.Text

/-!
# Trees over several lines

A tree that is written over several lines is cut into lines and indented once for each node above
it. Its lines can be said at once (`Tree.block`), as long as its symbols have no white space in them
and no word is empty: so every cut finds the lines that were put in. From them it is seen that the
tree says the same as on one line, and which node stands where.
-/

namespace PhraseStructure

open Text (IsFullLine onOneLine)

namespace Tree

/-! ## The lines of a tree -/

def isLoneLeaf : List Tree → Bool
  | [leaf _] => true
  | _ => false

theorem isLoneLeaf_iff {children : List Tree} :
    isLoneLeaf children = true ↔ ∃ word, children = [leaf word] := by
  unfold isLoneLeaf
  split <;> simp_all

/-- The lines with a closing bracket behind the last one. -/
def closeLast : List (List Char) → List (List Char)
  | [] => []
  | [line] => [line ++ [')']]
  | line :: next :: others => line :: closeLast (next :: others)

mutual

def block : Tree → List (List Char)
  | leaf word => [word.toList]
  | node label children =>
    if isLoneLeaf children then [(node label children).text.toList]
    else closeLast (('(' :: label.toList) :: blockAll children)

/-- The lines of several trees, indented. -/
def blockAll : List Tree → List (List Char)
  | [] => []
  | t :: ts => (block t).map ([' ', ' '] ++ ·) ++ blockAll ts

end

mutual

/-- The trees that start a line, each with its depth: the tree and all below it, every tree before
its children and these from left to right, without leaves that have no siblings. -/
def outline (depth : Nat) : Tree → List (Nat × Tree)
  | leaf word => [(depth, leaf word)]
  | node label children =>
    (depth, node label children) ::
      if isLoneLeaf children then [] else outlineAll (depth + 1) children

/-- The trees among several and below them that start a line. -/
def outlineAll (depth : Nat) : List Tree → List (Nat × Tree)
  | [] => []
  | t :: ts => outline depth t ++ outlineAll depth ts

end

/-- What stands on the line of a tree, closing brackets aside: its symbol, and the leaf below it if
this has no line of its own. -/
def heading : Tree → String
  | leaf word => word
  | node label children => "(" ++ label ++ if isLoneLeaf children then textAll children else ""

/-- The tree stands on the line, with two spaces for each step of its depth before it and nothing
but closing brackets behind it. -/
def StandsOn (entry : Nat × Tree) (line : List Char) : Prop :=
  ∃ closed, line = List.replicate (2 * entry.1) ' ' ++ entry.2.heading.toList ++
    List.replicate closed ')'

def IsUnspaced (s : String) : Prop :=
  ∀ c ∈ s.toList, Text.isBlank c = false

instance (s : String) : Decidable (IsUnspaced s) :=
  decidable_of_iff (s.toList.all (fun c => !Text.isBlank c) = true) (by simp [IsUnspaced])

/-- The symbols have no white space in them, and no word is empty. -/
def IsLegible (t : Tree) : Prop :=
  t.HasSymbols IsUnspaced fun word => word ≠ "" ∧ IsUnspaced word

theorem IsUnspaced.ne {s : String} (h : IsUnspaced s) :
    ∀ c ∈ s.toList, c ≠ ' ' ∧ c ≠ '\n' ∧ c ≠ '\r' := by
  intro c hc
  have hblank := h c hc
  refine ⟨?_, ?_, ?_⟩ <;> rintro rfl <;> exact absurd hblank (by decide)

/-! ## Closed lines -/

theorem flatMap_closeLast {f : List Char → List Char}
    (hf : ∀ line, f (line ++ [')']) = f line ++ [')']) {lines : List (List Char)}
    (hne : lines ≠ []) : (closeLast lines).flatMap f = lines.flatMap f ++ [')'] := by
  fun_induction closeLast lines with
  | case1 => exact absurd rfl hne
  | case2 line => simp [hf]
  | case3 line next others ih =>
    rw [List.flatMap_cons, ih (List.cons_ne_nil _ _), ← List.append_assoc, ← List.flatMap_cons]

theorem map_closeLast (margin : List Char) (lines : List (List Char)) :
    (closeLast lines).map (margin ++ ·) = closeLast (lines.map (margin ++ ·)) := by
  fun_induction closeLast lines with
  | case1 => rfl
  | case2 line => simp [closeLast]
  | case3 line next others ih =>
    rw [List.map_cons, ih]
    rfl

theorem forall_mem_closeLast {p : List Char → Prop} (hp : ∀ line, p line → p (line ++ [')']))
    {lines : List (List Char)} (h : ∀ line ∈ lines, p line) : ∀ line ∈ closeLast lines, p line := by
  fun_induction closeLast lines with
  | case1 => exact h
  | case2 line => simpa using hp line (h line (List.mem_singleton_self line))
  | case3 line next others ih =>
    obtain ⟨hline, hothers⟩ := List.forall_mem_cons.1 h
    exact List.forall_mem_cons.2 ⟨hline, ih hothers⟩

theorem forall₂_closeLast {entries : List (Nat × Tree)} {lines : List (List Char)}
    (h : List.Forall₂ StandsOn entries lines) :
    List.Forall₂ StandsOn entries (closeLast lines) := by
  fun_induction closeLast lines generalizing entries with
  | case1 => exact h
  | case2 line =>
    cases h with
    | cons hentry hnil =>
      obtain ⟨closed, rfl⟩ := hentry
      refine .cons ⟨closed + 1, ?_⟩ hnil
      rw [List.replicate_succ', List.append_assoc, ← List.append_assoc]
  | case3 line next others ih =>
    cases h with
    | cons hentry hothers => exact .cons hentry (ih hothers)

/-! ## The lines that are written -/

theorem pretty_of_isLoneLeaf {label : String} {children : List Tree}
    (h : isLoneLeaf children = true) :
    (node label children).pretty = (node label children).text := by
  obtain ⟨word, rfl⟩ := isLoneLeaf_iff.1 h
  simp [pretty, text, textAll, String.append_assoc]

theorem pretty_node {label : String} {children : List Tree} (h : ¬ isLoneLeaf children = true) :
    (node label children).pretty = "(" ++ label ++ prettyAll children ++ ")" := by
  rw [pretty]
  exact fun word hchildren => h (isLoneLeaf_iff.2 ⟨word, hchildren⟩)

theorem toList_indent (text : String) :
    (indent text).toList = (Text.lines text.toList).flatMap ('\n' :: ' ' :: ' ' :: ·) := by
  simp [indent, Text.stringLines, List.flatMap_def, Function.comp_def]

theorem isFullLine_text_of_isLoneLeaf {label : String} {children : List Tree}
    (hlone : isLoneLeaf children = true) (h : (node label children).IsLegible) :
    IsFullLine (node label children).text.toList := by
  obtain ⟨word, rfl⟩ := isLoneLeaf_iff.1 hlone
  obtain ⟨hlabel, hchildren⟩ := hasSymbols_node.1 h
  obtain ⟨-, hword⟩ := hasSymbols_leaf.1 (hchildren (leaf word) (List.mem_singleton_self _))
  have htext : (node label [leaf word]).text.toList =
      '(' :: (label.toList ++ ' ' :: (word.toList ++ [')'])) := by
    simp [text, textAll]
  rw [htext]
  refine ⟨List.cons_ne_nil _ _, ?_⟩
  simp only [List.forall_mem_cons, List.forall_mem_append]
  exact ⟨by decide, fun c hc => (hlabel.ne c hc).2, by decide, fun c hc => (hword.ne c hc).2,
    by decide, by simp⟩

mutual

theorem isFullLine_of_mem_block : (t : Tree) → t.IsLegible → ∀ line ∈ block t, IsFullLine line
  | leaf word, h => by
    obtain ⟨hne, hword⟩ := hasSymbols_leaf.1 h
    rw [block, List.forall_mem_singleton]
    exact ⟨mt String.toList_eq_nil_iff.1 hne, fun c hc => (hword.ne c hc).2⟩
  | node label children, h => by
    obtain ⟨hlabel, hchildren⟩ := hasSymbols_node.1 h
    rw [block]
    split
    · next hlone =>
      rw [List.forall_mem_singleton]
      exact isFullLine_text_of_isLoneLeaf hlone h
    · refine forall_mem_closeLast ?_ (List.forall_mem_cons.2 ⟨⟨List.cons_ne_nil _ _, ?_⟩,
        isFullLine_of_mem_blockAll children hchildren⟩)
      · rintro line ⟨hne, hplain⟩
        exact ⟨List.append_ne_nil_of_left_ne_nil hne _,
          List.forall_mem_append.2 ⟨hplain, by simp⟩⟩
      · exact List.forall_mem_cons.2 ⟨by decide, fun c hc => (hlabel.ne c hc).2⟩

theorem isFullLine_of_mem_blockAll : (ts : List Tree) → (∀ t ∈ ts, t.IsLegible) →
    ∀ line ∈ blockAll ts, IsFullLine line
  | [], _ => by simp [blockAll]
  | t :: ts, h => by
    obtain ⟨ht, hts⟩ := List.forall_mem_cons.1 h
    rw [blockAll, List.forall_mem_append, List.forall_mem_map]
    refine ⟨?_, isFullLine_of_mem_blockAll ts hts⟩
    intro line hline
    exact ⟨List.cons_ne_nil _ _, List.forall_mem_append.2
      ⟨by simp, (isFullLine_of_mem_block t ht line hline).2⟩⟩

end

theorem block_ne_nil (t : Tree) : block t ≠ [] := by
  cases t with
  | leaf word => exact List.cons_ne_nil _ _
  | node label children =>
    rw [block]
    split
    · exact List.cons_ne_nil _ _
    · cases blockAll children <;> exact List.cons_ne_nil _ _

/-- If a text is made of the lines of a tree, they are the lines it is cut into. -/
theorem lines_eq_block {t : Tree} (h : t.IsLegible) {text : List Char}
    (htext : '\n' :: text = (block t).flatMap ('\n' :: ·)) : Text.lines text = block t := by
  have hlines := Text.lines_newlines (block_ne_nil t) (isFullLine_of_mem_block t h)
  rw [← htext, Text.lines, Text.cutLines_newline] at hlines
  exact (List.cons.inj hlines).2

mutual

/-- A tree over several lines is made of its lines. The lines of each child are those that it is
cut into again. -/
theorem newline_pretty : (t : Tree) → t.IsLegible →
    '\n' :: t.pretty.toList = (block t).flatMap ('\n' :: ·)
  | leaf word, _ => by simp [pretty, block]
  | node label children, h => by
    by_cases hlone : isLoneLeaf children = true
    · simp [pretty_of_isLoneLeaf hlone, block, hlone]
    · have hbelow := newlines_prettyAll children (hasSymbols_node.1 h).2
      rw [pretty_node hlone, block, if_neg hlone,
        flatMap_closeLast (fun _ => rfl) (List.cons_ne_nil _ _), List.flatMap_cons, ← hbelow]
      simp

theorem newlines_prettyAll : (ts : List Tree) → (∀ t ∈ ts, t.IsLegible) →
    (prettyAll ts).toList = (blockAll ts).flatMap ('\n' :: ·)
  | [], _ => rfl
  | t :: ts, h => by
    obtain ⟨ht, hts⟩ := List.forall_mem_cons.1 h
    rw [prettyAll, String.toList_append, toList_indent, lines_eq_block ht (newline_pretty t ht),
      newlines_prettyAll ts hts, blockAll, List.flatMap_append, List.flatMap_map]
    rfl

end

/-! ## The same words on one line -/

theorem head?_pretty_ne_space {t : Tree} (h : t.IsLegible) :
    ∀ c ∈ t.pretty.toList.head?, c ≠ ' ' := by
  cases t with
  | leaf word =>
    intro c hc
    exact ((hasSymbols_leaf.1 h).2.ne c (List.mem_of_head? hc)).1
  | node label children =>
    by_cases hlone : isLoneLeaf children = true
    · simp [pretty_of_isLoneLeaf hlone, text]
    · simp [pretty_node hlone]

mutual

/-- On one line a tree is made of the same lines without their margins. -/
theorem space_text : (t : Tree) → t.IsLegible →
    ' ' :: t.text.toList = (block t).flatMap fun line => ' ' :: line.dropWhile (· = ' ')
  | leaf word, h => by
    have hhead : ∀ c ∈ word.toList.head?, c ≠ ' ' := fun c hc =>
      ((hasSymbols_leaf.1 h).2.ne c (List.mem_of_head? hc)).1
    rw [block, List.flatMap_singleton, Text.dropWhile_space_eq hhead, text]
  | node label children, h => by
    by_cases hlone : isLoneLeaf children = true
    · simp [block, hlone, text]
    · have hbelow := spaces_textAll children (hasSymbols_node.1 h).2
      have hclose : ∀ line : List Char, ' ' :: (line ++ [')']).dropWhile (· = ' ') =
          (' ' :: line.dropWhile (· = ' ')) ++ [')'] := by
        intro line
        rw [Text.dropWhile_space_append (by simp) line, List.cons_append]
      rw [block, if_neg hlone, flatMap_closeLast hclose (List.cons_ne_nil _ _), List.flatMap_cons,
        ← hbelow]
      simp [text]

theorem spaces_textAll : (ts : List Tree) → (∀ t ∈ ts, t.IsLegible) →
    (textAll ts).toList = (blockAll ts).flatMap fun line => ' ' :: line.dropWhile (· = ' ')
  | [], _ => rfl
  | t :: ts, h => by
    obtain ⟨ht, hts⟩ := List.forall_mem_cons.1 h
    have hmargin : ∀ line : List Char, ([' ', ' '] ++ line).dropWhile (· = ' ') =
        line.dropWhile (· = ' ') := fun _ => rfl
    simp only [blockAll, List.flatMap_append, List.flatMap_map, hmargin, ← space_text t ht,
      ← spaces_textAll ts hts]
    simp [textAll]

end

/-! ## Trees on their lines -/

theorem standsOn_text_of_isLoneLeaf {label : String} {children : List Tree} (depth : Nat)
    (h : isLoneLeaf children = true) : StandsOn (depth, node label children)
      (List.replicate (2 * depth) ' ' ++ (node label children).text.toList) :=
  ⟨1, by simp [heading, h, text]⟩

mutual

/-- At any depth, the trees that start a line stand on the lines of the tree, in this order. -/
theorem forall₂_outline_block (depth : Nat) : (t : Tree) →
    List.Forall₂ StandsOn (outline depth t)
      ((block t).map (List.replicate (2 * depth) ' ' ++ ·))
  | leaf word => .cons ⟨0, by simp [heading]⟩ .nil
  | node label children => by
    rw [outline, block]
    by_cases hlone : isLoneLeaf children = true
    · rw [if_pos hlone, if_pos hlone]
      exact .cons (standsOn_text_of_isLoneLeaf depth hlone) .nil
    · rw [if_neg hlone, if_neg hlone, map_closeLast, List.map_cons]
      exact forall₂_closeLast (.cons ⟨0, by simp [heading, hlone]⟩
        (forall₂_outlineAll_blockAll depth children))

theorem forall₂_outlineAll_blockAll (depth : Nat) : (ts : List Tree) →
    List.Forall₂ StandsOn (outlineAll (depth + 1) ts)
      ((blockAll ts).map (List.replicate (2 * depth) ' ' ++ ·))
  | [] => .nil
  | t :: ts => by
    have hmargin : (block t).map (List.replicate (2 * (depth + 1)) ' ' ++ ·) =
        ((block t).map ([' ', ' '] ++ ·)).map (List.replicate (2 * depth) ' ' ++ ·) := by
      rw [List.map_map]
      apply List.map_congr_left
      intro line _
      rw [Nat.mul_succ, List.replicate_add, Function.comp_apply, List.append_assoc]
      rfl
    rw [outlineAll, blockAll, List.map_append, ← hmargin]
    exact List.rel_append (forall₂_outline_block (depth + 1) t)
      (forall₂_outlineAll_blockAll depth ts)

end

/-- If no symbol has white space in it and no word is empty, then a tree over several lines says
what it says on one line, as soon as each newline and the spaces behind it are made one space. And
its lines are those of the nodes and leaves, apart from leaves without siblings, each node before
those below it and these from left to right, indented by twice their depth. -/
theorem onOneLine_pretty {t : Tree} (h : t.IsLegible) :
    onOneLine t.pretty.toList = t.text.toList ∧
      List.Forall₂ StandsOn (t.outline 0) (Text.pieces '\n' t.pretty.toList) := by
  have hnewline : ∀ line ∈ block t, '\n' ∉ line :=
    fun line hline => (isFullLine_of_mem_block t h line hline).newline_notMem
  constructor
  · have hline := Text.onOneLine_newlines hnewline
    rw [← newline_pretty t h, ← space_text t h, onOneLine, if_pos rfl,
      Text.dropWhile_space_eq (head?_pretty_ne_space h)] at hline
    exact (List.cons.inj hline).2
  · have hpieces := Text.pieces_newlines hnewline
    rw [← newline_pretty t h, Text.pieces, if_pos rfl] at hpieces
    rw [(List.cons.inj hpieces).2]
    simpa using forall₂_outline_block 0 t

/-- A leaf beside nodes, whose word is a bracket, a node without a label and one without
siblings. -/
def unevenDogs : Tree :=
  .node "S" [.node "NP" [.leaf "dogs"], .leaf "(", .node "" [],
    .node "VP" [.node "V" [.leaf "bark"]]]

/-- Eight nodes and leaves on six lines, since two leaves stand on the lines of their parents. -/
theorem onOneLine_pretty_unevenDogs :
    unevenDogs.IsLegible ∧
    onOneLine "(S\n  (NP dogs)\n  (\n  ()\n  (VP\n    (V bark)))".toList =
      "(S (NP dogs) ( () (VP (V bark)))".toList ∧
    (Text.pieces '\n' unevenDogs.pretty.toList).length = 6 := by
  have hlegible : unevenDogs.IsLegible := by
    have hsymbols : ∀ s ∈ ["S", "NP", "dogs", "(", "", "VP", "V", "bark"], IsUnspaced s := by decide
    simp [IsLegible, HasSymbols, unevenDogs, nodes, nodesAll, leaves, leavesAll, hsymbols]
  have hpretty : unevenDogs.pretty = "(S\n  (NP dogs)\n  (\n  ()\n  (VP\n    (V bark)))" := by
    decide
  have htext : unevenDogs.text = "(S (NP dogs) ( () (VP (V bark)))" := by decide
  obtain ⟨hline, hstands⟩ := onOneLine_pretty hlegible
  rw [hpretty, htext] at hline
  exact ⟨hlegible, hline, hstands.length_eq.symm⟩

end Tree

end PhraseStructure
