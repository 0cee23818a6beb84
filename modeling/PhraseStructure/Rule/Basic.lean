import PhraseStructure.Decimal.Shortest

/-!
# Rules

A weighted rule expands one symbol into one or two symbols. Weights are relative to the other
rules of the same left-hand side and need not sum to one.
-/

namespace PhraseStructure

/-- The right-hand side of a rule. A unary rule emits a word or renames a category; a binary rule
combines two adjacent spans. -/
inductive Rhs where
  | unary (symbol : String)
  | binary (left right : String)
deriving DecidableEq, Hashable, Repr

namespace Rhs

def first : Rhs → String
  | unary symbol => symbol
  | binary left _ => left

def second : Rhs → Option String
  | unary _ => none
  | binary _ right => some right

def symbols : Rhs → List String
  | unary symbol => [symbol]
  | binary left right => [left, right]

def isUnary : Rhs → Bool
  | unary _ => true
  | binary _ _ => false

def isBinary : Rhs → Bool
  | unary _ => false
  | binary _ _ => true

/-- The right-hand side with one or two given symbols. -/
def ofSymbols? : List String → Option Rhs
  | [symbol] => some (unary symbol)
  | [left, right] => some (binary left right)
  | _ => none

/-- The symbols, a space between them. -/
def text : Rhs → String
  | unary symbol => symbol
  | binary left right => left ++ " " ++ right

@[simp] theorem ofSymbols?_symbols (r : Rhs) : ofSymbols? r.symbols = some r := by
  cases r <;> rfl

theorem ofSymbols?_eq_some_iff {ss : List String} {r : Rhs} :
    ofSymbols? ss = some r ↔ ss = r.symbols := by
  constructor
  · intro h
    unfold ofSymbols? at h
    split at h <;> cases h <;> rfl
  · rintro rfl
    exact ofSymbols?_symbols r

end Rhs

/-- A rule with its weight. -/
structure Rule where
  lhs : String
  rhs : Rhs
  weight : Float
deriving BEq, Repr

namespace Rule

/-- Whether this is a unary rule whose one symbol is `word`. -/
def emits (rule : Rule) (word : String) : Bool :=
  rule.rhs = .unary word

/-- The rule as it stands in grammar text, its weight always written. -/
def text (rule : Rule) : String :=
  rule.lhs ++ " -> " ++ rule.rhs.text ++ " [" ++ Decimal.inFull rule.weight ++ "]"

end Rule

end PhraseStructure
