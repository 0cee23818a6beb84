import PhraseStructure.RoundTrip

/-!
# The words of a line

The words of a line depend on its letters and spaces alone, and those on the two sides of a space
do not depend on each other. So the brackets of a written tree add no words, and the words of the
tree are those of its label, followed by those of its children.
-/

namespace PhraseStructure

/-- A name made of one or more of the letters `a` to `z` and `A` to `Z`. -/
def IsName (s : String) : Prop :=
  s ≠ "" ∧ ∀ c ∈ s.toList, c.isAlpha = true

instance (s : String) : Decidable (IsName s) :=
  decidable_of_iff ((s == "") = false ∧ s.toList.all Char.isAlpha = true) (by simp [IsName])

theorem IsName.space_notMem {s : String} (h : IsName s) : ' ' ∉ s.toList := by
  intro hspace
  exact absurd (h.2 _ hspace) (by decide)

namespace Text

theorem mem_of_mem_pieces {α : Type} [DecidableEq α] {mark : α} {text piece : List α}
    (h : piece ∈ pieces mark text) {c : α} (hc : c ∈ piece) : c ∈ text := by
  induction text generalizing piece with
  | nil =>
    obtain rfl := List.mem_singleton.1 h
    exact hc
  | cons d rest ih =>
    rw [pieces] at h
    split at h
    · rcases List.mem_cons.1 h with rfl | h
      · cases hc
      · exact List.mem_cons_of_mem _ (ih h hc)
    · split at h
      · exact absurd ‹_› (pieces_ne_nil mark rest)
      · next first others hpieces =>
        rw [hpieces] at ih
        rcases List.mem_cons.1 h with rfl | h
        · rcases List.mem_cons.1 hc with rfl | hc
          · exact List.mem_cons_self
          · exact List.mem_cons_of_mem _ (ih List.mem_cons_self hc)
        · exact List.mem_cons_of_mem _ (ih (List.mem_cons_of_mem _ h) hc)

/-- Whether a character matters for the words of a line. -/
def isSpelling (c : Char) : Bool :=
  c = ' ' || c.isAlpha

/-- Whether brackets and the like are dropped before a text is cut or after makes no difference. -/
theorem map_filter_pieces (text : List Char) :
    (pieces ' ' text).map (List.filter Char.isAlpha) =
      (pieces ' ' (text.filter isSpelling)).map (List.filter Char.isAlpha) := by
  induction text with
  | nil => rfl
  | cons c rest ih =>
    by_cases hspace : c = ' '
    · simp [pieces, hspace, isSpelling, ih]
    by_cases halpha : c.isAlpha = true
    · rw [List.filter_cons_of_pos (by simp [isSpelling, halpha])]
      simp only [pieces, if_neg hspace]
      revert ih
      cases hpieces : pieces ' ' rest with
      | nil => exact absurd hpieces (pieces_ne_nil _ _)
      | cons piece others =>
        cases hpieces' : pieces ' ' (rest.filter isSpelling) with
        | nil => exact absurd hpieces' (pieces_ne_nil _ _)
        | cons piece' others' => simp [halpha]
    · rw [List.filter_cons_of_neg (by simp [isSpelling, halpha, hspace]), ← ih]
      simp only [pieces, if_neg hspace]
      cases hpieces : pieces ' ' rest with
      | nil => exact absurd hpieces (pieces_ne_nil _ _)
      | cons piece others => simp [halpha]

end Text

namespace RoundTrip

variable {g : Grammar}

/-- The words of a line depend on its letters and spaces alone. -/
theorem sentenceTokens_congr {line line' : String}
    (h : line.toList.filter Text.isSpelling = line'.toList.filter Text.isSpelling) :
    sentenceTokens g line = sentenceTokens g line' := by
  have hpieces : ∀ text : List Char,
      ((Text.pieces ' ' text).map fun piece => String.ofList (piece.filter Char.isAlpha)) =
        ((Text.pieces ' ' text).map (List.filter Char.isAlpha)).map String.ofList := by
    intro text
    rw [List.map_map]
    rfl
  rw [sentenceTokens, sentenceTokens, hpieces, hpieces, Text.map_filter_pieces, h,
    ← Text.map_filter_pieces]

theorem sentenceTokens_append_space (line line' : String) :
    sentenceTokens g (line ++ " " ++ line') = sentenceTokens g line ++ sentenceTokens g line' := by
  have hchars : (line ++ " " ++ line').toList = line.toList ++ ' ' :: line'.toList := by
    simp
  simp only [sentenceTokens, hchars, Text.pieces_append_mark, List.map_append, List.filter_append]

/-- The words of a line and of several trees behind it. -/
theorem sentenceTokens_append_textAll (line : String) (ts : List Tree) :
    sentenceTokens g (line ++ Tree.textAll ts) =
      sentenceTokens g line ++ ts.flatMap fun t => sentenceTokens g t.text := by
  induction ts generalizing line with
  | nil => simp [Tree.textAll]
  | cons t ts ih =>
    have hsplit : line ++ (" " ++ t.text ++ Tree.textAll ts) =
        line ++ " " ++ (t.text ++ Tree.textAll ts) := by
      simp only [String.append_assoc]
    rw [Tree.textAll, hsplit, sentenceTokens_append_space, ih, List.flatMap_cons]

theorem sentenceTokens_node (label : String) (children : List Tree) :
    sentenceTokens g (Tree.node label children).text =
      sentenceTokens g label ++ children.flatMap fun t => sentenceTokens g t.text := by
  rw [← sentenceTokens_append_textAll]
  apply sentenceTokens_congr
  have hopen : Text.isSpelling '(' = false := by decide
  have hclose : Text.isSpelling ')' = false := by decide
  simp [Tree.text, hopen, hclose]

/-! ## Written trees -/

mutual

/-- If the labels of a tree are no words, its words are those of its leaves. -/
theorem sentenceTokens_text : (t : Tree) → (∀ node ∈ t.nodes, sentenceTokens g node.1 = []) →
    sentenceTokens g t.text = t.leaves.flatMap (sentenceTokens g)
  | .leaf word, _ => by
    rw [Tree.text, Tree.leaves, List.flatMap_singleton]
  | .node label children, hlabels => by
    obtain ⟨hlabel, hbelow⟩ := List.forall_mem_cons.1 hlabels
    rw [sentenceTokens_node, hlabel, List.nil_append, sentenceTokens_texts children hbelow,
      Tree.leaves]

theorem sentenceTokens_texts : (ts : List Tree) →
    (∀ node ∈ Tree.nodesAll ts, sentenceTokens g node.1 = []) →
    ts.flatMap (fun t => sentenceTokens g t.text) =
      (Tree.leavesAll ts).flatMap (sentenceTokens g)
  | [], _ => rfl
  | t :: ts, hlabels => by
    obtain ⟨hfirst, hothers⟩ := List.forall_mem_append.1 hlabels
    rw [List.flatMap_cons, sentenceTokens_text t hfirst, sentenceTokens_texts ts hothers,
      Tree.leavesAll, List.flatMap_append]

end

/-! ## Single symbols -/

theorem sentenceTokens_of_isName {name : String} (h : IsName name) :
    sentenceTokens g name = if g.isTerminal name then [name] else [] := by
  have hmark : name ∉ sentenceMarks := by
    intro hmark
    simp only [sentenceMarks, List.mem_cons, List.not_mem_nil, or_false] at hmark
    rcases hmark with rfl | rfl
    · exact absurd (h.2 '.' (by decide)) (by decide)
    · exact absurd (h.2 '!' (by decide)) (by decide)
  rw [sentenceTokens, Text.pieces_of_notMem h.space_notMem, List.map_singleton,
    List.filter_eq_self.2 h.2, String.ofList_toList]
  by_cases hterminal : g.isTerminal name = true
  · rw [List.filter_cons_of_pos (by simp [h.1, hterminal, hmark]), if_pos hterminal,
      List.filter_nil]
  · rw [List.filter_cons_of_neg (by simp [hterminal]), if_neg hterminal, List.filter_nil]

theorem sentenceTokens_eq_nil {line : String} (h : ∀ c ∈ line.toList, c.isAlpha = false) :
    sentenceTokens g line = [] := by
  rw [sentenceTokens, List.filter_eq_nil_iff]
  intro word hword
  obtain ⟨piece, hpiece, rfl⟩ := List.mem_map.1 hword
  have hfilter : piece.filter Char.isAlpha = [] := by
    rw [List.filter_eq_nil_iff]
    intro c hc
    simp [h c (Text.mem_of_mem_pieces hpiece hc)]
  simp [hfilter]

theorem sentenceTokens_of_nonterminal {label : String} (h : g.isTerminal label = false)
    (hletters : ∀ c ∈ label.toList, c.isAlpha = true) : sentenceTokens g label = [] := by
  by_cases hempty : label = ""
  · rw [hempty]
    exact sentenceTokens_eq_nil (by simp)
  · rw [sentenceTokens_of_isName ⟨hempty, hletters⟩, if_neg (by simp [h])]

theorem isName_of_mem_sentenceTokens {line word : String} (h : word ∈ sentenceTokens g line) :
    IsName word ∧ g.isTerminal word = true := by
  rw [sentenceTokens, List.mem_filter] at h
  obtain ⟨hword, hkept⟩ := h
  simp only [Bool.and_eq_true, decide_eq_true_eq] at hkept
  obtain ⟨piece, -, rfl⟩ := List.mem_map.1 hword
  refine ⟨⟨hkept.1.1, ?_⟩, hkept.1.2⟩
  intro c hc
  rw [String.toList_ofList] at hc
  exact (List.mem_filter.1 hc).2

theorem sentenceTokens_node_mark (hstart : g.isTerminal Generator.defaultStart = false) (t : Tree)
    {mark : Char} (hmark : mark.isAlpha = false) :
    sentenceTokens g
        (Tree.node Generator.defaultStart [t, .leaf (String.singleton mark)]).text =
      sentenceTokens g t.text := by
  have hletters : Generator.defaultStart.toList.all Char.isAlpha = true := by decide
  have hlabel := sentenceTokens_of_nonterminal hstart (List.all_eq_true.1 hletters)
  have hnone : sentenceTokens g (String.singleton mark) = [] :=
    sentenceTokens_eq_nil (by simpa using hmark)
  rw [sentenceTokens_node, hlabel, List.nil_append, List.flatMap_cons, List.flatMap_singleton,
    Tree.text, hnone, List.append_nil]

theorem sentenceMark_append (line : String) (c : Char) :
    sentenceMark (line ++ String.singleton c ++ ")") = some c := by
  have hreverse : (line ++ String.singleton c ++ ")").toList.reverse =
      ')' :: c :: line.toList.reverse := by
    simp
  have hclose : Text.isBlank ')' = false := by decide
  rw [sentenceMark, Text.trimEnd, hreverse, List.dropWhile_cons_of_neg (by simp [hclose]),
    List.reverse_reverse]
  rfl

end RoundTrip

end PhraseStructure
