import PhraseStructure.Decimal.Reading
import PhraseStructure.Rule.Basic
import PhraseStructure.Rule.Layout
import PhraseStructure.Text.Lines

/-!
# Reading rules

A rule in grammar text is a left-hand side, an arrow, one or two symbols, an optional weight in
brackets and a semicolon, with layout in between. A text that is no list of rules is refused with
the line on which its first malformed rule starts and the cause.
-/

namespace PhraseStructure

/-- What keeps a text from being a list of rules. Where something was missing, `found` is the rest
of the line at that place, or nothing at the end of the line or of the text. -/
inductive RuleFault where
  | noLhs (found : Option String)
  | noArrow (found : Option String)
  | noSymbol (found : Option String)
  | openWeight (found : Option String)
  | notANumber (numeral : String)
  | weightOutOfRange (numeral : String)
  | noSemicolon (found : Option String)
  | unfinished (lhs : String)
  | arity (lhs : String) (count : Nat)
  | noRules
deriving DecidableEq, Repr

/-- A text with a malformed rule: the 1-based line where the rule starts, and the cause. -/
structure FormatError where
  line : Nat
  fault : RuleFault
deriving DecidableEq, Repr

namespace RuleFault

/-- How a place in the text is named. -/
def place : Option String → String
  | none => "end of input"
  | some rest => "`" ++ rest ++ "`"

def message : RuleFault → String
  | noLhs found => "rule lhs: expected symbol at " ++ place found
  | noArrow found => "rule arrow: expected `->` at " ++ place found
  | noSymbol found => "rule rhs: expected symbol at " ++ place found
  | openWeight found => "rule weight: expected closed weight `[...]` at " ++ place found
  | notANumber numeral => "rule weight: weight `" ++ numeral ++ "` is not a number"
  | weightOutOfRange numeral =>
    "rule weight: weight `" ++ numeral ++ "` must be finite and non-negative"
  | noSemicolon found => "expected `;` after weight at " ++ place found
  | unfinished lhs => "rule for `" ++ lhs ++ "` is missing its closing `;`"
  | arity lhs count =>
    "rule for `" ++ lhs ++ "` has " ++ toString count ++ " rhs symbols, expected 1 or 2"
  | noRules => "empty ruleset"

end RuleFault

namespace FormatError

def message (e : FormatError) : String :=
  "line " ++ toString e.line ++ ": " ++ e.fault.message

end FormatError

namespace Rule

/-- The rest of the line at the start of a text, without the blanks at its end. -/
def restOfLine (text : List Char) : Option String :=
  match (Text.lines text).head? with
  | none => none
  | some [] => none
  | some line => some (String.ofList (Text.trimEnd line))

/-- Symbols hold any character but blanks, semicolons and brackets. -/
def isSymbolChar (c : Char) : Bool :=
  !Text.isBlank c && c ≠ ';' && c ≠ '[' && c ≠ ']'

/-- The symbol at the start of a text, as long as possible, and what follows it. -/
def readSymbol? (text : List Char) : Option (String × List Char) :=
  match text.takeWhile isSymbolChar with
  | [] => none
  | name => some (String.ofList name, text.dropWhile isSymbolChar)

/-- What may stand between the brackets of a weight: anything but a bracket on one line. -/
def isWeightChar (c : Char) : Bool :=
  c ≠ ']' && c ≠ '\n'

/-- A weight behind its opening bracket, and what follows its closing bracket. -/
def readWeight (text : List Char) : Except RuleFault (Float × List Char) :=
  match text.dropWhile isWeightChar with
  | ']' :: rest =>
    let numeral := Text.trim (text.takeWhile isWeightChar)
    match Decimal.read? numeral with
    | none => .error (.notANumber (String.ofList numeral))
    | some weight =>
      if weight.isFinite ∧ ¬ weight < 0 then .ok (weight, rest)
      else .error (.weightOutOfRange (String.ofList numeral))
  | _ => .error (.openWeight (restOfLine ('[' :: text)))

/-- The end of a rule, its layout skipped: an optional weight and a semicolon. Without a weight
the rule weighs one. -/
def readEnd (lhs : String) (text : List Char) : Except RuleFault (Float × List Char) :=
  match text with
  | ';' :: rest => .ok (1.0, rest)
  | '[' :: rest =>
    match readWeight rest with
    | .error fault => .error fault
    | .ok (weight, rest) =>
      match skipLayout rest with
      | ';' :: rest => .ok (weight, rest)
      | rest => .error (.noSemicolon (restOfLine rest))
  | _ => .error (.unfinished lhs)

theorem suffix_of_readSymbol? {text rest : List Char} {symbol : String}
    (h : readSymbol? text = some (symbol, rest)) :
    rest <:+ text ∧ rest.length < text.length := by
  unfold readSymbol? at h
  split at h
  · cases h
  · next hne =>
    cases h
    have hsum := congrArg List.length
      (List.takeWhile_append_dropWhile (p := isSymbolChar) (l := text))
    rw [List.length_append] at hsum
    have hpos := List.length_pos_iff.2 hne
    exact ⟨List.dropWhile_suffix _, by omega⟩

/-- The symbols up to a semicolon, an opening bracket or the end of the text. -/
def readSymbols (text : List Char) : Except RuleFault (List String × List Char) :=
  match hskip : skipLayout text with
  | [] => .ok ([], [])
  | c :: more =>
    if c = ';' ∨ c = '[' then .ok ([], c :: more)
    else
      match hsymbol : readSymbol? (c :: more) with
      | none => .error (.noSymbol (restOfLine (c :: more)))
      | some (symbol, rest) =>
        have : rest.length < text.length :=
          Nat.lt_of_lt_of_le (suffix_of_readSymbol? hsymbol).2
            (hskip ▸ (skipLayout_suffix text).length_le)
        match readSymbols rest with
        | .error fault => .error fault
        | .ok (symbols, rest) => .ok (symbol :: symbols, rest)
termination_by text.length

/-- A rule at the start of a text, and what follows its semicolon. -/
def read (text : List Char) : Except RuleFault (Rule × List Char) :=
  match readSymbol? text with
  | none => .error (.noLhs (restOfLine text))
  | some (lhs, afterLhs) =>
    match skipLayout afterLhs with
    | '-' :: '>' :: afterArrow =>
      match readSymbols afterArrow with
      | .error fault => .error fault
      | .ok (symbols, afterSymbols) =>
        match readEnd lhs afterSymbols with
        | .error fault => .error fault
        | .ok (weight, rest) =>
          match Rhs.ofSymbols? symbols with
          | none => .error (.arity lhs symbols.length)
          | some rhs => .ok (⟨lhs, rhs, weight⟩, rest)
    | other => .error (.noArrow (restOfLine other))

theorem suffix_of_readWeight {text rest : List Char} {weight : Float}
    (h : readWeight text = .ok (weight, rest)) : rest <:+ text := by
  have hdrop := List.dropWhile_suffix (l := text) isWeightChar
  unfold readWeight at h
  split at h
  · next rest' heq =>
    rw [heq] at hdrop
    dsimp only at h
    split at h
    · cases h
    · split at h <;> cases h
      exact (List.suffix_cons _ _).trans hdrop
  · cases h

theorem suffix_of_readEnd {lhs : String} {text rest : List Char} {weight : Float}
    (h : readEnd lhs text = .ok (weight, rest)) : rest <:+ text := by
  unfold readEnd at h
  split at h
  · cases h
    exact List.suffix_cons _ _
  · split at h
    · cases h
    · next hweight =>
      split at h
      · next hskip =>
        cases h
        have hlayout := hskip ▸ skipLayout_suffix _
        exact (((List.suffix_cons _ _).trans hlayout).trans
          (suffix_of_readWeight hweight)).trans (List.suffix_cons _ _)
      · cases h
  · cases h

theorem suffix_of_readSymbols {text rest : List Char} {symbols : List String}
    (h : readSymbols text = .ok (symbols, rest)) : rest <:+ text := by
  fun_induction readSymbols text generalizing symbols rest with
  | case1 =>
    cases h
    exact List.nil_suffix
  | case2 text c more hskip =>
    cases h
    exact hskip ▸ skipLayout_suffix text
  | case3 => cases h
  | case4 => cases h
  | case5 text c more hskip _ symbol rest' hsymbol _ symbols' rest'' hmore ih =>
    cases h
    exact ((ih hmore).trans (suffix_of_readSymbol? hsymbol).1).trans
      (hskip ▸ skipLayout_suffix text)

/-- Reading a rule uses up a part of the text, at least its first symbol. -/
theorem suffix_of_read {text rest : List Char} {rule : Rule}
    (h : read text = .ok (rule, rest)) : rest <:+ text ∧ rest.length < text.length := by
  unfold read at h
  split at h
  · cases h
  · next lhs afterLhs hlhs =>
    have hfirst := suffix_of_readSymbol? hlhs
    split at h
    · next afterArrow harrow =>
      have hlayout := harrow ▸ skipLayout_suffix afterLhs
      split at h
      · cases h
      · next hsymbols =>
        split at h
        · cases h
        · next hend =>
          split at h
          · cases h
          · cases h
            have hrest := (suffix_of_readEnd hend).trans (suffix_of_readSymbols hsymbols)
            have hall := ((hrest.trans (List.suffix_cons _ _)).trans
              (List.suffix_cons _ _)).trans hlayout
            exact ⟨hall.trans hfirst.1, Nat.lt_of_le_of_lt hall.length_le hfirst.2⟩
    · cases h

/-- The rules of a text that is the end of `source`. -/
def readRest (source text : List Char) : Except FormatError (List Rule) :=
  match hskip : skipLayout text with
  | [] => .ok []
  | c :: more =>
    match hread : read (c :: more) with
    | .error fault => .error ⟨Text.lineOf source (c :: more), fault⟩
    | .ok (rule, rest) =>
      have : rest.length < text.length :=
        Nat.lt_of_lt_of_le (suffix_of_read hread).2
          (hskip ▸ (skipLayout_suffix text).length_le)
      match readRest source rest with
      | .error e => .error e
      | .ok rules => .ok (rule :: rules)
termination_by text.length

/-- All rules of a text in order. A text of nothing but layout holds none. -/
def readAll (text : List Char) : Except FormatError (List Rule) :=
  readRest text text

end Rule

end PhraseStructure
