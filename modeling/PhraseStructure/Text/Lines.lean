/-!
# Lines

How a text falls into lines. Each newline ends a line, a carriage return right before it belongs
to the line end, and nothing follows the last newline. The same rule cuts characters and bytes,
so it takes the two marks as arguments.
-/

namespace PhraseStructure.Text

variable {α : Type} [DecidableEq α]

/-- The pieces between newlines, without a return mark that stands right before a newline. -/
def cutLines (newline ret : α) : List α → List (List α)
  | [] => []
  | c :: rest =>
    if c = newline then [] :: cutLines newline ret rest
    else if c = ret ∧ rest.head? = some newline then cutLines newline ret rest
    else match cutLines newline ret rest with
      | [] => [[c]]
      | line :: others => (c :: line) :: others

def lines (text : List Char) : List (List Char) :=
  cutLines '\n' '\r' text

def stringLines (text : String) : List String :=
  (lines text.toList).map String.ofList

def byteLines (text : List UInt8) : List (List UInt8) :=
  cutLines 10 13 text

/-- The 1-based line on which `rest` starts, where `rest` is a suffix of `text`. -/
def lineOf (text rest : List Char) : Nat :=
  (text.take (text.length - rest.length)).count '\n' + 1

@[simp] theorem cutLines_nil (newline ret : α) : cutLines newline ret [] = [] := rfl

@[simp] theorem cutLines_newline (newline ret : α) (rest : List α) :
    cutLines newline ret (newline :: rest) = [] :: cutLines newline ret rest := by
  simp [cutLines]

@[simp] theorem lineOf_self (text : List Char) : lineOf text text = 1 := by
  simp [lineOf]

theorem lineOf_append (before rest : List Char) :
    lineOf (before ++ rest) rest = before.count '\n' + 1 := by
  simp [lineOf]

end PhraseStructure.Text
