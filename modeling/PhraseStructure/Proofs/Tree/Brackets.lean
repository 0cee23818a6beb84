import PhraseStructure.Proofs.RoundTrip.FixedPoints

/-!
# Trees told from their texts

In a written tree whose symbols have no spaces and no brackets, a symbol ends where the next space
or bracket stands, and a node ends with the bracket that closes it. So a text that starts with such
a tree starts with no other one, whatever follows (`Tree.text_append_inj`), and two trees with the
same text are the same. This also holds of nodes without children and of empty symbols.
-/

namespace PhraseStructure.Tree

/-! ## Reading on after a tree -/

def IsBareSymbol (s : String) : Prop :=
  ∀ c ∈ s.toList, c ≠ ' ' ∧ c ≠ '(' ∧ c ≠ ')'

/-- A tree with such symbols only. -/
def IsBare (t : Tree) : Prop :=
  t.HasSymbols IsBareSymbol IsBareSymbol

/-- What may stand behind a tree: nothing, a space or a closing bracket. -/
def EndsTree (rest : List Char) : Prop :=
  ∀ c ∈ rest.head?, c = ' ' ∨ c = ')'

@[simp] theorem endsTree_nil : EndsTree [] := by
  simp [EndsTree]

theorem endsTree_textAll (ts : List Tree) (rest : List Char) :
    EndsTree ((textAll ts).toList ++ ')' :: rest) := by
  cases ts <;> simp [EndsTree, textAll]

variable {rest rest' : List Char}

/-- A symbol ends where the text can go on behind a tree. -/
theorem IsBareSymbol.append_inj {s s' : String} (hs : IsBareSymbol s) (hs' : IsBareSymbol s')
    (hrest : EndsTree rest) (hrest' : EndsTree rest')
    (h : s.toList ++ rest = s'.toList ++ rest') : s = s' ∧ rest = rest' := by
  -- one symbol starts with the other; a character more would be no part of a symbol
  rcases List.append_eq_append_iff.1 h with ⟨more, hmore, rfl⟩ | ⟨more, hmore, rfl⟩
  · cases more with
    | nil => exact ⟨String.toList_inj.1 (by rw [hmore, List.append_nil]), rfl⟩
    | cons c more =>
      obtain ⟨hspace, -, hclose⟩ := hs' c (by simp [hmore])
      rcases hrest c rfl with hc | hc <;> contradiction
  · cases more with
    | nil => exact ⟨String.toList_inj.1 (by rw [hmore, List.append_nil]), rfl⟩
    | cons c more =>
      obtain ⟨hspace, -, hclose⟩ := hs c (by simp [hmore])
      rcases hrest' c rfl with hc | hc <;> contradiction

/-- A symbol is not opened by a bracket, and neither is what stands behind it. -/
theorem IsBareSymbol.append_ne_open {s : String} (hs : IsBareSymbol s) (hrest : EndsTree rest)
    (text : List Char) : s.toList ++ rest ≠ '(' :: text := by
  intro h
  cases hchars : s.toList with
  | nil =>
    rw [hchars, List.nil_append] at h
    rcases hrest '(' (by rw [h]; rfl) with hc | hc <;> exact absurd hc (by decide)
  | cons c more =>
    rw [hchars] at h
    exact (hs c (by simp [hchars])).2.1 (List.cons.inj h).1

theorem toList_text_node (label : String) (children : List Tree) :
    (node label children).text.toList ++ rest =
      '(' :: (label.toList ++ ((textAll children).toList ++ ')' :: rest)) := by
  simp [text]

mutual

/-- A text starts with at most one tree, and what stands behind it is as well determined. -/
theorem text_append_inj : (t u : Tree) → t.IsBare → u.IsBare → {rest rest' : List Char} →
    EndsTree rest → EndsTree rest' → t.text.toList ++ rest = u.text.toList ++ rest' →
    t = u ∧ rest = rest'
  | leaf v, leaf w, ht, hu, _, _, hrest, hrest', h => by
    obtain ⟨rfl, hsame⟩ :=
      (hasSymbols_leaf.1 ht).append_inj (hasSymbols_leaf.1 hu) hrest hrest' h
    exact ⟨rfl, hsame⟩
  | leaf v, node m us, ht, _, _, _, hrest, _, h => by
    rw [toList_text_node] at h
    exact absurd h ((hasSymbols_leaf.1 ht).append_ne_open hrest _)
  | node l ts, leaf w, _, hu, _, _, _, hrest', h => by
    rw [toList_text_node] at h
    exact absurd h.symm ((hasSymbols_leaf.1 hu).append_ne_open hrest' _)
  | node l ts, node m us, ht, hu, _, _, _, _, h => by
    obtain ⟨hl, hts⟩ := hasSymbols_node.1 ht
    obtain ⟨hm, hus⟩ := hasSymbols_node.1 hu
    rw [toList_text_node, toList_text_node] at h
    obtain ⟨rfl, hchildren⟩ := hl.append_inj hm (endsTree_textAll ts _) (endsTree_textAll us _)
      (List.cons.inj h).2
    obtain ⟨rfl, hsame⟩ := textAll_append_inj ts us hts hus hchildren
    exact ⟨rfl, hsame⟩

theorem textAll_append_inj : (ts us : List Tree) → (∀ t ∈ ts, t.IsBare) → (∀ u ∈ us, u.IsBare) →
    {rest rest' : List Char} →
    (textAll ts).toList ++ ')' :: rest = (textAll us).toList ++ ')' :: rest' →
    ts = us ∧ rest = rest'
  | [], [], _, _, _, _, h => ⟨rfl, (List.cons.inj h).2⟩
  | [], _ :: _, _, _, _, _, h => by simp [textAll] at h
  | _ :: _, [], _, _, _, _, h => by simp [textAll] at h
  | t :: ts, u :: us, hall, hall', rest, rest', h => by
    obtain ⟨ht, hts⟩ := List.forall_mem_cons.1 hall
    obtain ⟨hu, hus⟩ := List.forall_mem_cons.1 hall'
    have hnext : t.text.toList ++ ((textAll ts).toList ++ ')' :: rest) =
        u.text.toList ++ ((textAll us).toList ++ ')' :: rest') := by
      simpa [textAll] using h
    obtain ⟨rfl, hothers⟩ :=
      text_append_inj t u ht hu (endsTree_textAll ts _) (endsTree_textAll us _) hnext
    obtain ⟨rfl, hsame⟩ := textAll_append_inj ts us hts hus hothers
    exact ⟨rfl, hsame⟩

end

/-! ## Whole texts -/

/-- Trees without spaces and brackets in their symbols have the same text only if they are the same.
So a line with such a tree that comes back as another one is counted as correct exactly if the two
trees are the same. -/
theorem text_eq_text_iff {t u : Tree} (ht : t.IsBare) (hu : u.IsBare) :
    (t.text = u.text ↔ t = u) ∧
      ∀ g : Grammar, RoundTrip.reparse g t.text = .ok u.text →
        ∀ tally : RoundTrip, tally.record g t.text =
          ⟨tally.total + 1, tally.correct + if t = u then 1 else 0⟩ := by
  have hiff : t.text = u.text ↔ t = u := by
    constructor
    · intro h
      exact (text_append_inj t u ht hu endsTree_nil endsTree_nil (by rw [h])).1
    · rintro rfl
      rfl
  refine ⟨hiff, ?_⟩
  intro g hreparse tally
  simp [RoundTrip.record, RoundTrip.isExact, hreparse, eq_comm (a := u.text), hiff]

/-- A sentence with a node without children, a leaf without a word and a node too many. -/
def restlessDogs : Tree :=
  .node "ROOT" [.node "S" [.node "NP" [.leaf "dogs"], .node "" [],
    .node "VP" [.node "VP" [.leaf "bark"], .leaf ""]], .leaf "."]

def calmDogs : Tree :=
  .node "ROOT" [.node "S" [.node "NP" [.leaf "dogs"], .node "VP" [.leaf "bark"]], .leaf "."]

theorem reparse_restlessDogs :
    RoundTrip.reparse Generator.barkingDogs.grammar restlessDogs.text = .ok calmDogs.text := by
  have htext : restlessDogs.text = "(ROOT (S (NP dogs) () (VP (VP bark) )) .)" := by decide
  have hwords : ((Text.pieces ' ' "(ROOT (S (NP dogs) () (VP (VP bark) )) .)".toList).map
      fun piece => String.ofList (piece.filter Char.isAlpha)) =
        ["ROOT", "S", "NP", "dogs", "", "VP", "VP", "bark", "", ""] := by
    decide
  have hdogs := Generator.isTerminal_words_barkingDogs "dogs" (by decide)
  have hbark := Generator.isTerminal_words_barkingDogs "bark" (by decide)
  have hlabels : ∀ label ∈ ["ROOT", "S", "NP", "VP"],
      Generator.barkingDogs.grammar.isTerminal label = false :=
    fun _ => Generator.isTerminal_barkingDogs.2
  have htokens : RoundTrip.sentenceTokens Generator.barkingDogs.grammar restlessDogs.text =
      ["dogs", "bark"] := by
    rw [htext, RoundTrip.sentenceTokens, hwords]
    simp [hdogs, hbark, hlabels, RoundTrip.sentenceMarks]
  have hmark : RoundTrip.sentenceMark restlessDogs.text = some '.' := by
    rw [htext]
    decide
  rw [RoundTrip.reparse, htokens, RoundTrip.parse_barkingDogs, hmark]
  rfl

/-- The two texts differ, so the line counts as one that did not come back. -/
theorem text_eq_text_iff_restlessDogs :
    (restlessDogs.IsBare ∧ calmDogs.IsBare ∧
      RoundTrip.reparse Generator.barkingDogs.grammar restlessDogs.text = .ok calmDogs.text) ∧
    restlessDogs.text ≠ calmDogs.text ∧
    RoundTrip.record ⟨7, 5⟩ Generator.barkingDogs.grammar restlessDogs.text = ⟨8, 5⟩ := by
  have hrestless : restlessDogs.IsBare := by
    simp [IsBare, HasSymbols, IsBareSymbol, restlessDogs, nodes, nodesAll, leaves, leavesAll]
  have hcalm : calmDogs.IsBare := by
    simp [IsBare, HasSymbols, IsBareSymbol, calmDogs, nodes, nodesAll, leaves, leavesAll]
  have hne : restlessDogs ≠ calmDogs := by decide
  obtain ⟨hiff, hrecord⟩ := text_eq_text_iff hrestless hcalm
  refine ⟨⟨hrestless, hcalm, reparse_restlessDogs⟩, mt hiff.1 hne, ?_⟩
  rw [hrecord _ reparse_restlessDogs, if_neg hne]

end PhraseStructure.Tree
