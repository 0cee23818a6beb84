import Mathlib.Data.List.Induction
import Mathlib.Data.List.Nodup
import PhraseStructure.Chart.Cell
import PhraseStructure.Proofs.Binary64.Value

/-!
# Offers

What a cell holds after some offers depends, for each symbol, on the offers for this symbol alone.
The entry it keeps is one of them, and none of them is strictly more probable.
-/

namespace PhraseStructure

namespace Entry

/-- Of the entry that was found for a symbol, if any, and a new one, the one that is kept. -/
def best (found : Option Entry) (new : Entry) : Entry :=
  match found with
  | none => new
  | some e => if e.prob < new.prob then new else e

/-- The entries after an offer, whether it changes anything or not. -/
def improved (new : Entry) (entries : List Entry) : List Entry :=
  (new.improve? entries).getD entries

@[simp] theorem improved_nil (new : Entry) : new.improved [] = [new] := rfl

theorem improved_cons (new e : Entry) (rest : List Entry) :
    new.improved (e :: rest) =
      if e.symbol = new.symbol then best (some e) new :: rest else e :: new.improved rest := by
  by_cases hsymbol : e.symbol = new.symbol
  · by_cases hprob : e.prob < new.prob
    · simp [improved, improve?, best, hsymbol, hprob]
    · simp [improved, improve?, best, hsymbol, hprob]
  · rw [if_neg hsymbol, improved, improve?, if_neg hsymbol, improved]
    cases new.improve? rest <;> rfl

theorem best_cases (found : Option Entry) (new : Entry) :
    best found new = new ∨ found = some (best found new) := by
  cases found with
  | none => exact .inl rfl
  | some e =>
    unfold best
    dsimp only
    split
    · exact .inl rfl
    · exact .inr rfl

theorem not_best_lt_new (found : Option Entry) (new : Entry) :
    ¬ (best found new).prob < new.prob := by
  unfold best
  split
  · exact Binary64.lt_irrefl new.prob
  · split
    · exact Binary64.lt_irrefl new.prob
    · exact ‹_›

theorem not_best_lt {e new o : Entry} (h : ¬ e.prob < o.prob) :
    ¬ (best (some e) new).prob < o.prob := by
  unfold best
  dsimp only
  split
  · intro hlt
    exact h (Binary64.lt_trans ‹_› hlt)
  · exact h

theorem symbol_best {e new : Entry} (h : e.symbol = new.symbol) :
    (best (some e) new).symbol = new.symbol := by
  rcases best_cases (some e) new with hbest | hbest
  · rw [hbest]
  · rw [← Option.some.inj hbest]
    exact h

theorem map_symbol_improved (new : Entry) (entries : List Entry) :
    (new.improved entries).map (·.symbol) =
      entries.map (·.symbol) ++
        if new.symbol ∈ entries.map (·.symbol) then [] else [new.symbol] := by
  induction entries with
  | nil => rfl
  | cons e rest ih =>
    rw [improved_cons]
    by_cases h : e.symbol = new.symbol
    · simp [h, symbol_best h]
    · have h' : ¬ new.symbol = e.symbol := by
        intro eq
        exact h eq.symm
      simp [h, h', ih]

theorem improved_of_notMem {new : Entry} {entries : List Entry}
    (h : new.symbol ∉ entries.map (·.symbol)) : new.improved entries = entries ++ [new] := by
  induction entries with
  | nil => rfl
  | cons e rest ih =>
    rw [List.map_cons, List.mem_cons, not_or] at h
    rw [improved_cons, if_neg (Ne.symm h.1), ih h.2, List.cons_append]

theorem find?_improved (new : Entry) (entries : List Entry) (symbol : String) :
    (new.improved entries).find? (·.symbol = symbol) =
      if new.symbol = symbol then some (best (entries.find? (·.symbol = symbol)) new)
      else entries.find? (·.symbol = symbol) := by
  induction entries with
  | nil => by_cases h : new.symbol = symbol <;> simp [best, h]
  | cons e rest ih =>
    rw [improved_cons]
    by_cases h : e.symbol = new.symbol
    · rw [if_pos h]
      by_cases hsymbol : new.symbol = symbol
      · simp [hsymbol, h.trans hsymbol, (symbol_best h).trans hsymbol]
      · simp [hsymbol, h, symbol_best h]
    · rw [if_neg h]
      by_cases hsymbol : e.symbol = symbol
      · have hne : new.symbol ≠ symbol := by
          intro eq
          exact h (hsymbol.trans eq.symm)
        simp [hsymbol, hne]
      · simp [hsymbol, ih]

end Entry

namespace Cell

theorem entries_offer (cell : Cell) (new : Entry) :
    (cell.offer new).entries = new.improved cell.entries := by
  unfold offer offer? Entry.improved
  cases new.improve? cell.entries <;> rfl

theorem get?_offer (cell : Cell) (new : Entry) (symbol : String) :
    (cell.offer new).get? symbol =
      if new.symbol = symbol then some (Entry.best (cell.get? symbol) new)
      else cell.get? symbol := by
  rw [get?, entries_offer, Entry.find?_improved]
  rfl

theorem ofOffers_append_singleton (word : Option String) (offers : List Entry) (new : Entry) :
    ofOffers word (offers ++ [new]) = (ofOffers word offers).offer new := by
  rw [ofOffers, List.foldl_append]
  rfl

theorem symbol_of_get? {cell : Cell} {symbol : String} {e : Entry}
    (h : cell.get? symbol = some e) : e.symbol = symbol := by
  simpa using List.find?_some h

theorem mem_of_get? {cell : Cell} {symbol : String} {e : Entry}
    (h : cell.get? symbol = some e) : e ∈ cell.entries :=
  List.mem_of_find?_eq_some h

variable {word : Option String} {offers : List Entry} {symbol : String}

theorem isSome_get?_ofOffers :
    ((ofOffers word offers).get? symbol).isSome ↔ ∃ o ∈ offers, o.symbol = symbol := by
  induction offers using List.reverseRecOn with
  | nil => simp [ofOffers, get?]
  | append_singleton offers new ih =>
    rw [ofOffers_append_singleton, get?_offer]
    by_cases h : new.symbol = symbol
    · rw [if_pos h, Option.isSome_some]
      exact ⟨fun _ => ⟨new, by simp, h⟩, fun _ => rfl⟩
    · rw [if_neg h, ih]
      simp [h]

theorem mem_of_get?_ofOffers {e : Entry} (h : (ofOffers word offers).get? symbol = some e) :
    e ∈ offers := by
  induction offers using List.reverseRecOn generalizing e with
  | nil => simp [ofOffers, get?] at h
  | append_singleton offers new ih =>
    rw [ofOffers_append_singleton, get?_offer] at h
    split at h
    · obtain rfl := Option.some.inj h
      cases hfound : (ofOffers word offers).get? symbol with
      | none => simp [Entry.best]
      | some old =>
        rw [Entry.best]
        split
        · simp
        · exact List.mem_append_left _ (ih hfound)
    · exact List.mem_append_left _ (ih h)

/-- No offer for a symbol is strictly more probable than what is found, whatever the
probabilities are. -/
theorem not_lt_of_get?_ofOffers {e : Entry} (h : (ofOffers word offers).get? symbol = some e) :
    ∀ o ∈ offers, o.symbol = symbol → ¬ e.prob < o.prob := by
  induction offers using List.reverseRecOn generalizing e with
  | nil => simp
  | append_singleton offers new ih =>
    rw [ofOffers_append_singleton, get?_offer] at h
    intro o ho hsymbol
    by_cases hnew : new.symbol = symbol
    · rw [if_pos hnew] at h
      obtain rfl := Option.some.inj h
      rcases List.mem_append.1 ho with ho | ho
      · obtain ⟨old, hold⟩ := Option.isSome_iff_exists.1
          ((@isSome_get?_ofOffers word _ _).2 ⟨o, ho, hsymbol⟩)
        rw [hold]
        exact Entry.not_best_lt (ih hold o ho hsymbol)
      · rw [List.mem_singleton.1 ho]
        exact Entry.not_best_lt_new _ new
    · rw [if_neg hnew] at h
      rcases List.mem_append.1 ho with ho | ho
      · exact ih h o ho hsymbol
      · rw [List.mem_singleton.1 ho] at hsymbol
        exact absurd hsymbol hnew

theorem exists_get?_ofOffers_of_mem {o : Entry} (h : o ∈ offers) :
    ∃ kept, (ofOffers word offers).get? o.symbol = some kept ∧ ¬ kept.prob < o.prob := by
  obtain ⟨kept, hkept⟩ := Option.isSome_iff_exists.1
    ((@isSome_get?_ofOffers word _ _).2 ⟨o, h, rfl⟩)
  exact ⟨kept, hkept, not_lt_of_get?_ofOffers hkept o h rfl⟩

theorem nodup_symbols_ofOffers : ((ofOffers word offers).entries.map (·.symbol)).Nodup := by
  induction offers using List.reverseRecOn with
  | nil => simp [ofOffers]
  | append_singleton offers new ih =>
    rw [ofOffers_append_singleton, entries_offer, Entry.map_symbol_improved]
    split
    · rwa [List.append_nil]
    · rw [← List.concat_eq_append]
      exact ih.concat ‹_›

theorem get?_ofOffers_of_mem {e : Entry} (h : e ∈ (ofOffers word offers).entries) :
    (ofOffers word offers).get? e.symbol = some e := by
  have hsome : ((ofOffers word offers).get? e.symbol).isSome := by
    rw [get?, List.find?_isSome]
    exact ⟨e, h, by simp⟩
  obtain ⟨e', he'⟩ := Option.isSome_iff_exists.1 hsome
  rw [he', List.inj_on_of_nodup_map nodup_symbols_ofOffers (mem_of_get? he') h
    (symbol_of_get? he')]

theorem map_symbol_ofOffers :
    (ofOffers word offers).entries.map (·.symbol) = (offers.map (·.symbol)).eraseDups := by
  induction offers using List.reverseRecOn with
  | nil => rfl
  | append_singleton offers new ih =>
    rw [ofOffers_append_singleton, entries_offer, Entry.map_symbol_improved, ih, List.map_append,
      List.eraseDups_append]
    generalize offers.map (·.symbol) = seen
    by_cases h : new.symbol ∈ seen <;>
      simp [List.mem_eraseDups, List.removeAll, List.eraseDups_cons, h]

theorem entries_ofOffers_of_nodup (h : (offers.map (·.symbol)).Nodup) :
    (ofOffers word offers).entries = offers := by
  induction offers using List.reverseRecOn with
  | nil => rfl
  | append_singleton offers new ih =>
    rw [List.map_append, List.map_singleton, ← List.concat_eq_append, List.nodup_concat] at h
    rw [ofOffers_append_singleton, entries_offer, ih h.2, Entry.improved_of_notMem h.1]

/-- Of comparable offers for a symbol the first one that is most probable is kept. -/
theorem exists_append_of_get?_ofOffers {e : Entry}
    (h : (ofOffers word offers).get? symbol = some e)
    (hnumber : ∀ o ∈ offers, o.symbol = symbol → o.prob.isNaN = false) :
    ∃ before after, offers = before ++ e :: after ∧
      ∀ o ∈ before, o.symbol = symbol → o.prob < e.prob := by
  induction offers using List.reverseRecOn generalizing e with
  | nil => simp [ofOffers, get?] at h
  | append_singleton offers new ih =>
    have ih := fun {e} h => @ih e h fun o ho => hnumber o (List.mem_append_left _ ho)
    rw [ofOffers_append_singleton, get?_offer] at h
    by_cases hsymbol : new.symbol = symbol
    · rw [if_pos hsymbol] at h
      obtain rfl := Option.some.inj h
      cases hfound : (ofOffers word offers).get? symbol with
      | none =>
        refine ⟨offers, [], rfl, ?_⟩
        intro o ho hosymbol
        have hsome := (@isSome_get?_ofOffers word _ _).2 ⟨o, ho, hosymbol⟩
        rw [hfound] at hsome
        cases hsome
      | some old =>
        unfold Entry.best
        dsimp only
        split
        · next hlt =>
          refine ⟨offers, [], rfl, ?_⟩
          intro o ho hosymbol
          have hold := hnumber old (List.mem_append_left _ (mem_of_get?_ofOffers hfound))
            (symbol_of_get? hfound)
          have hle := Binary64.le_of_not_lt (hnumber o (List.mem_append_left _ ho) hosymbol) hold
            (not_lt_of_get?_ofOffers hfound o ho hosymbol)
          exact Binary64.lt_of_le_of_lt hle hlt
        · obtain ⟨before, after, rfl, hbefore⟩ := ih hfound
          exact ⟨before, after ++ [new], by simp, hbefore⟩
    · rw [if_neg hsymbol] at h
      obtain ⟨before, after, rfl, hbefore⟩ := ih h
      exact ⟨before, after ++ [new], by simp, hbefore⟩

end Cell

end PhraseStructure
