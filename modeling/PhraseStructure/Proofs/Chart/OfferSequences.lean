import PhraseStructure.Proofs.Chart.Offers

/-!
# Sequences of offers

An offer adds an entry at the end of a cell, takes the place of a less probable one, or changes
nothing (`Entry.improve?_eq_some_iff`). After any sequence of offers a cell has one entry for each
symbol that was offered, and this entry can be said from the offers for its symbol alone: it is one
of them, not beaten by any, and the first of the best if all of them are numbers.
-/

namespace PhraseStructure

/-! ## One offer -/

/-- The entries with a new one at the end, for a symbol that they do not have. -/
def Entry.AddsTo (new : Entry) (entries after : List Entry) : Prop :=
  new.symbol ∉ entries.map (·.symbol) ∧ after = entries ++ [new]

/-- The entries with a new one in the place of the first one for its symbol, which is less
probable. -/
def Entry.ReplacesIn (new : Entry) (entries after : List Entry) : Prop :=
  ∃ front old back, entries = front ++ old :: back ∧ after = front ++ new :: back ∧
    new.symbol ∉ front.map (·.symbol) ∧ old.symbol = new.symbol ∧ old.prob < new.prob

namespace Entry

variable {new e : Entry} {entries rest after : List Entry}

@[simp] theorem addsTo_nil : new.AddsTo [] after ↔ after = [new] := by
  simp [AddsTo]

@[simp] theorem not_replacesIn_nil : ¬ new.ReplacesIn [] after := by
  rintro ⟨front, old, back, hentries, -⟩
  simp at hentries

theorem not_addsTo_cons (h : e.symbol = new.symbol) : ¬ new.AddsTo (e :: rest) after := by
  rintro ⟨hnew, -⟩
  simp [h] at hnew

theorem replacesIn_cons_of_eq (h : e.symbol = new.symbol) :
    new.ReplacesIn (e :: rest) after ↔ e.prob < new.prob ∧ after = new :: rest := by
  constructor
  · rintro ⟨front, old, back, hentries, rfl, hnew, -, hlt⟩
    cases front with
    | nil =>
      obtain ⟨rfl, rfl⟩ := List.cons.inj hentries
      exact ⟨hlt, rfl⟩
    | cons first front =>
      obtain ⟨rfl, -⟩ := List.cons.inj hentries
      simp [h] at hnew
  · rintro ⟨hlt, rfl⟩
    exact ⟨[], e, rest, rfl, rfl, by simp, h, hlt⟩

theorem addsTo_cons_of_ne (h : e.symbol ≠ new.symbol) :
    new.AddsTo (e :: rest) after ↔ ∃ others, new.AddsTo rest others ∧ after = e :: others := by
  simp [AddsTo, h.symm, and_assoc]

theorem replacesIn_cons_of_ne (h : e.symbol ≠ new.symbol) :
    new.ReplacesIn (e :: rest) after ↔
      ∃ others, new.ReplacesIn rest others ∧ after = e :: others := by
  constructor
  · rintro ⟨front, old, back, hentries, rfl, hnew, hsymbol, hlt⟩
    cases front with
    | nil =>
      obtain ⟨rfl, rfl⟩ := List.cons.inj hentries
      exact absurd hsymbol h
    | cons first front =>
      obtain ⟨rfl, rfl⟩ := List.cons.inj hentries
      rw [List.map_cons, List.mem_cons, not_or] at hnew
      exact ⟨_, ⟨front, old, back, rfl, rfl, hnew.2, hsymbol, hlt⟩, rfl⟩
  · rintro ⟨_, ⟨front, old, back, rfl, rfl, hnew, hsymbol, hlt⟩, rfl⟩
    refine ⟨e :: front, old, back, rfl, rfl, ?_, hsymbol, hlt⟩
    rw [List.map_cons, List.mem_cons, not_or]
    exact ⟨h.symm, hnew⟩

theorem improve?_eq_some_iff :
    new.improve? entries = some after ↔
      new.AddsTo entries after ∨ new.ReplacesIn entries after := by
  induction entries generalizing after with
  | nil => simp [improve?, eq_comm]
  | cons e rest ih =>
    rw [improve?]
    by_cases hsymbol : e.symbol = new.symbol
    · rw [if_pos hsymbol, replacesIn_cons_of_eq hsymbol]
      by_cases hlt : e.prob < new.prob
      · simp [not_addsTo_cons hsymbol, hlt, eq_comm]
      · simp [not_addsTo_cons hsymbol, hlt]
    · rw [if_neg hsymbol, Option.map_eq_some_iff, addsTo_cons_of_ne hsymbol,
        replacesIn_cons_of_ne hsymbol, ← exists_or]
      simp only [ih, ← or_and_right, eq_comm (a := after)]

theorem AddsTo.ne (h : new.AddsTo entries after) : after ≠ entries := by
  rintro rfl
  simpa using h.2

theorem ReplacesIn.ne (h : new.ReplacesIn entries after) : after ≠ entries := by
  obtain ⟨front, old, back, rfl, rfl, -, -, hlt⟩ := h
  intro heq
  obtain ⟨rfl, -⟩ := List.cons.inj (List.append_cancel_left heq)
  exact Binary64.lt_irrefl _ hlt

end Entry

namespace Cell

/-- An offer is taken up exactly if it adds an entry to the cell or replaces one, and this is if it
changes the cell. -/
theorem isSome_offer?_iff (cell : Cell) (new : Entry) :
    ((cell.offer? new).isSome ↔ new.AddsTo cell.entries (cell.offer new).entries ∨
      new.ReplacesIn cell.entries (cell.offer new).entries) ∧
    ((cell.offer? new).isSome ↔ cell.offer new ≠ cell) := by
  rw [← Entry.improve?_eq_some_iff]
  have hcell : cell.offer? new = (new.improve? cell.entries).map fun entries =>
    { cell with entries } := rfl
  cases hentries : new.improve? cell.entries with
  | none =>
    rw [hentries, Option.map_none] at hcell
    simp [offer, hcell]
  | some after =>
    rw [hentries, Option.map_some] at hcell
    have hne : after ≠ cell.entries := by
      rcases Entry.improve?_eq_some_iff.1 hentries with h | h
      · exact h.ne
      · exact h.ne
    have hcellne : ({ cell with entries := after } : Cell) ≠ cell :=
      fun heq => hne (congrArg Cell.entries heq)
    simp [offer, hcell, hcellne]

/-! ## All offers for a symbol -/

/-- Offers for other symbols make no difference. -/
theorem get?_ofOffers_filter (word : Option String) (offers : List Entry) (symbol : String) :
    (ofOffers word (offers.filter (·.symbol = symbol))).get? symbol =
      (ofOffers word offers).get? symbol := by
  induction offers using List.reverseRecOn with
  | nil => rfl
  | append_singleton offers new ih =>
    rw [List.filter_append, ofOffers_append_singleton, get?_offer]
    by_cases h : new.symbol = symbol
    · rw [List.filter_cons_of_pos (by simpa using h), List.filter_nil, ofOffers_append_singleton,
        get?_offer, if_pos h, if_pos h, ih]
    · rw [List.filter_cons_of_neg (by simpa using h), List.filter_nil, List.append_nil, if_neg h,
        ih]

end Cell

/-- What is left for a symbol after some offers: one of them for this symbol, and none for it is
more probable. If they are all numbers, those before it are less probable and those behind it are
not more so. -/
structure Entry.IsKept (offers : List Entry) (e : Entry) : Prop where
  mem : e ∈ offers
  not_lt : ∀ o ∈ offers, o.symbol = e.symbol → ¬ e.prob < o.prob
  first : (∀ o ∈ offers, o.symbol = e.symbol → o.prob.isNaN = false) →
    ∃ before after, offers = before ++ e :: after ∧
      (∀ o ∈ before, o.symbol = e.symbol → o.prob < e.prob) ∧
      ∀ o ∈ after, o.symbol = e.symbol → o.prob ≤ e.prob

namespace Cell

variable {word : Option String} {offers : List Entry}

theorem isKept_of_get?_ofOffers {symbol : String} {e : Entry}
    (h : (ofOffers word offers).get? symbol = some e) : e.IsKept offers := by
  obtain rfl := symbol_of_get? h
  have hmem := mem_of_get?_ofOffers h
  have hnotLt := not_lt_of_get?_ofOffers h
  refine ⟨hmem, hnotLt, ?_⟩
  intro hnumber
  obtain ⟨before, after, rfl, hbefore⟩ := exists_append_of_get?_ofOffers h hnumber
  refine ⟨before, after, rfl, hbefore, ?_⟩
  intro o ho hsymbol
  have hoffered : o ∈ before ++ e :: after := by simp [ho]
  exact Binary64.le_of_not_lt (hnumber o hoffered hsymbol) (hnumber e hmem rfl)
    (hnotLt o hoffered hsymbol)

/-- A cell after any sequence of offers. The word is as it was. There is one entry for each symbol
that was offered, in the order of first offers; it is what is left of the offers for its symbol, and
no others matter for it. One more offer is taken up exactly if it adds an entry or replaces one, and
otherwise the cell stays as it is. -/
theorem ofOffers_contents (word : Option String) (offers : List Entry) :
    (ofOffers word offers).word = word ∧
    (ofOffers word offers).entries.map (·.symbol) = (offers.map (·.symbol)).eraseDups ∧
    (∀ e ∈ (ofOffers word offers).entries,
      (ofOffers word offers).get? e.symbol = some e ∧ e.IsKept offers) ∧
    (∀ symbol, (ofOffers word offers).get? symbol =
      (ofOffers word (offers.filter (·.symbol = symbol))).get? symbol) ∧
    ∀ new, ofOffers word (offers ++ [new]) = (ofOffers word offers).offer new ∧
      (((ofOffers word offers).offer? new).isSome ↔
        new.AddsTo (ofOffers word offers).entries (ofOffers word (offers ++ [new])).entries ∨
        new.ReplacesIn (ofOffers word offers).entries (ofOffers word (offers ++ [new])).entries) ∧
      (((ofOffers word offers).offer? new).isSome ↔
        ofOffers word (offers ++ [new]) ≠ ofOffers word offers) := by
  refine ⟨word_ofOffers word offers, map_symbol_ofOffers, ?_,
    fun symbol => (get?_ofOffers_filter word offers symbol).symm, ?_⟩
  · intro e he
    have hget := get?_ofOffers_of_mem he
    exact ⟨hget, isKept_of_get?_ofOffers hget⟩
  · intro new
    have hnext := ofOffers_append_singleton word offers new
    rw [hnext]
    exact ⟨rfl, isSome_offer?_iff _ new⟩

/-- An offer that is no number stays, and one for another symbol is made as if it were alone. -/
example : ((ofOffers none [⟨"A", 0.0 / 0.0, .word⟩, ⟨"B", 0.25, .word⟩, ⟨"A", 0.5, .split 0 0⟩,
    ⟨"B", 0.0 / 0.0, .split 1 0⟩, ⟨"B", 0.75, .split 2 0⟩]).entries.map fun e =>
      (e.symbol, e.prob.isNaN, e.origin)) = [("A", true, .word), ("B", false, .split 2 0)] := by
  decide +kernel

end Cell

end PhraseStructure
