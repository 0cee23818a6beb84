import PhraseStructure.Decimal.Shortest

/-!
# Chart cells

A cell holds the best derivation of each symbol over one span, in the order in which the symbols
were first found. An offer enters if its symbol is new or if it is strictly more probable than the
entry it would replace.
-/

namespace PhraseStructure

/-- How a derivation was built: from the span's one word, or by a rule from the spans before and
after a split, where the first part ends at token `position`. -/
inductive Origin where
  | word
  | split (rule position : Nat)
deriving DecidableEq, Repr

/-- A derivation of one symbol over one span. -/
structure Entry where
  symbol : String
  prob : Float
  origin : Origin
deriving Repr

/-- The word of a span of one token, and the best derivation of each symbol over the span. -/
structure Cell where
  word : Option String := none
  entries : List Entry := []
deriving Repr

namespace Entry

/-- The entries after an offer, or `none` if the offer changes nothing. -/
def improve? (new : Entry) : List Entry → Option (List Entry)
  | [] => some [new]
  | e :: rest =>
    if e.symbol = new.symbol then
      if e.prob < new.prob then some (new :: rest) else none
    else (improve? new rest).map (e :: ·)

/-- The entry on a line of its own: its symbol, its probability and the end of its first part. -/
def text (e : Entry) : String :=
  let place := match e.origin with
    | .word => ""
    | .split _ position => " split " ++ toString position
  "  " ++ e.symbol ++ " " ++ Decimal.withExponent e.prob ++ place ++ "\n"

end Entry

namespace Cell

def isEmpty (cell : Cell) : Bool :=
  cell.entries.isEmpty

def get? (cell : Cell) (symbol : String) : Option Entry :=
  cell.entries.find? (·.symbol = symbol)

/-- The cell after an offer, or `none` if the offer changes nothing. -/
def offer? (cell : Cell) (new : Entry) : Option Cell :=
  (new.improve? cell.entries).map fun entries => { cell with entries }

def offer (cell : Cell) (new : Entry) : Cell :=
  (cell.offer? new).getD cell

/-- The cell of a word, or of no single word, after some offers in order. -/
def ofOffers (word : Option String) (offers : List Entry) : Cell :=
  offers.foldl offer { word }

/-- The span and its word on a line, then each entry; an empty cell is not shown. -/
def text (cell : Cell) (start stop : Nat) : String :=
  if cell.isEmpty then ""
  else
    let name := match cell.word with
      | none => ""
      | some word => " `" ++ word ++ "`"
    toString start ++ "..=" ++ toString stop ++ name ++ ":\n" ++
      String.join (cell.entries.map Entry.text)

@[simp] theorem word_offer (cell : Cell) (new : Entry) : (cell.offer new).word = cell.word := by
  unfold offer offer?
  cases new.improve? cell.entries <;> rfl

@[simp] theorem word_ofOffers (word : Option String) (offers : List Entry) :
    (ofOffers word offers).word = word := by
  suffices h : ∀ cell : Cell, (offers.foldl offer cell).word = cell.word from h _
  induction offers with
  | nil => exact fun _ => rfl
  | cons e rest ih => exact fun cell => (ih _).trans (word_offer cell e)

end Cell

end PhraseStructure
