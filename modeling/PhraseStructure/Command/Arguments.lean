import PhraseStructure.Chart.BestTree
import PhraseStructure.Decimal.Basic
import PhraseStructure.Generator
import PhraseStructure.Text.Pieces

/-!
# Command arguments

The command generates sentences or parses them. Options have a long name behind two hyphens, some
also a letter behind one; letters of options without values may stand together. A value follows
its option in the same argument or in the next one. No option may be given twice.
-/

namespace PhraseStructure.Command

/-- The options of the two commands. -/
inductive Setting where
  | amount
  | start
  | seed
  | maxDepth
  | maxAttempts
  | root
  | chart
  | pretty
  | help
deriving DecidableEq, Repr

namespace Setting

def name : Setting → String
  | amount => "amount"
  | start => "start"
  | seed => "seed"
  | maxDepth => "max-depth"
  | maxAttempts => "max-attempts"
  | root => "root"
  | chart => "chart"
  | pretty => "pretty"
  | help => "help"

def letter : Setting → Option Char
  | amount => some 'n'
  | start => some 's'
  | seed => none
  | maxDepth => none
  | maxAttempts => none
  | root => some 'r'
  | chart => some 'c'
  | pretty => some 'p'
  | help => some 'h'

def takesValue : Setting → Bool
  | amount => true
  | start => true
  | seed => true
  | maxDepth => true
  | maxAttempts => true
  | root => true
  | chart => false
  | pretty => false
  | help => false

def isNumeric : Setting → Bool
  | amount => true
  | seed => true
  | maxDepth => true
  | maxAttempts => true
  | start => false
  | root => false
  | chart => false
  | pretty => false
  | help => false

def forGenerate : List Setting :=
  [amount, start, seed, maxDepth, maxAttempts, pretty, help]

def forParse : List Setting :=
  [root, chart, pretty, help]

end Setting

/-- Why the arguments are no request. -/
inductive UsageError where
  | missingCommand
  | unknownCommand (text : String)
  | unknownOption (text : String)
  | missingValue (setting : Setting)
  | unexpectedValue (setting : Setting)
  | repeated (setting : Setting)
  | invalidNumber (setting : Setting) (text : String)
  | missingPath
  | emptyPath
  | extraArgument (text : String)
deriving DecidableEq, Repr

def UsageError.message : UsageError → String
  | missingCommand => "no command is given"
  | unknownCommand text => "there is no command " ++ text
  | unknownOption text => "there is no option " ++ text
  | missingValue setting => "--" ++ setting.name ++ " needs a value"
  | unexpectedValue setting => "--" ++ setting.name ++ " takes no value"
  | repeated setting => "--" ++ setting.name ++ " is given twice"
  | invalidNumber setting text => "--" ++ setting.name ++ " needs a number, not " ++ text
  | missingPath => "no grammar file is given"
  | emptyPath => "the path of the grammar file is empty"
  | extraArgument text => "there is no use for " ++ text

/-- One part of a command's arguments: an option, with its value if it takes one, or what stands
on its own. -/
inductive Item where
  | setting (setting : Setting) (value : Option String)
  | operand (text : String)
deriving DecidableEq, Repr

namespace Item

def setting? : Item → Option Setting
  | setting s _ => some s
  | operand _ => none

/-- The text that stands on its own. -/
def operand? : Item → Option String
  | setting _ _ => none
  | operand text => some text

/-- A number in digits, with a plus in front or not, that fits 64 bits. -/
def readNumber? (text : String) : Option Nat :=
  let ds := match text.toList with
    | '+' :: rest => rest
    | ds => ds
  if ds ≠ [] ∧ ds.all Char.isDigit ∧ Decimal.ofDigits ds < UInt64.size then
    some (Decimal.ofDigits ds)
  else none

/-- Whether an argument cannot be the value of the option before it. A single hyphen can. -/
def looksLikeOption (argument : String) : Bool :=
  argument.toList.head? = some '-' && argument ≠ "-"

/-- A long option, split at its first equals sign. -/
def splitLong (text : List Char) : List Char × Option String :=
  match text.dropWhile (· ≠ '=') with
  | [] => (text, none)
  | _ :: value => (text.takeWhile (· ≠ '='), some (String.ofList value))

/-- The options of a run of letters, and the last of them if its value is not in the run. Nothing
after a request for help counts. -/
def readLetters (settings : List Setting) :
    List Char → Except UsageError (List Item × Option Setting)
  | [] => .ok ([], none)
  | c :: rest =>
    match settings.find? (·.letter = some c) with
    | none => .error (.unknownOption ("-" ++ String.singleton c))
    | some s =>
      if s.takesValue then
        match rest with
        | [] => .ok ([], some s)
        | '=' :: value => .ok ([setting s (some (String.ofList value))], none)
        | value => .ok ([setting s (some (String.ofList value))], none)
      else if s = .help then .ok ([setting s none], none)
      else
        match readLetters settings rest with
        | .error e => .error e
        | .ok (items, pending) => .ok (setting s none :: items, pending)

def asksHelp (items : List Item) : Bool :=
  items.any fun item => item.setting? = some .help

/-- The parts of a command's arguments, up to a request for help. After two hyphens everything
stands on its own. -/
def readAll (settings : List Setting) : List String → Except UsageError (List Item)
  | [] => .ok []
  | argument :: rest =>
    match argument.toList with
    | ['-', '-'] => .ok (rest.map operand)
    | '-' :: '-' :: long =>
      let (name, value) := splitLong long
      match settings.find? (·.name.toList = name) with
      | none => .error (.unknownOption argument)
      | some s =>
        if s.takesValue then
          match value, rest with
          | some value, rest => (readAll settings rest).map (setting s (some value) :: ·)
          | none, [] => .error (.missingValue s)
          | none, next :: rest =>
            if looksLikeOption next then .error (.missingValue s)
            else (readAll settings rest).map (setting s (some next) :: ·)
        else if value.isSome then .error (.unexpectedValue s)
        else if s = .help then .ok [setting s none]
        else (readAll settings rest).map (setting s none :: ·)
    | '-' :: c :: letters =>
      match readLetters settings (c :: letters) with
      | .error e => .error e
      | .ok (items, none) =>
        if asksHelp items then .ok items else (readAll settings rest).map (items ++ ·)
      | .ok (items, some s) =>
        match rest with
        | [] => .error (.missingValue s)
        | next :: rest =>
          if looksLikeOption next then .error (.missingValue s)
          else (readAll settings rest).map (items ++ setting s (some next) :: ·)
    | _ => (readAll settings rest).map (operand argument :: ·)

/-- The first option that is given again later. -/
def firstRepeated? : List Setting → Option Setting
  | [] => none
  | s :: rest => if s ∈ rest then some s else firstRepeated? rest

def value? (items : List Item) (s : Setting) : Option String :=
  items.findSome? fun
    | setting t value => if t = s then value else none
    | operand _ => none

def number? (items : List Item) (s : Setting) : Option Nat :=
  (value? items s).bind readNumber?

def has (items : List Item) (s : Setting) : Bool :=
  items.any fun item => item.setting? = some s

/-- The first fault in the parts of a command's arguments: a repeated option, a number that is
none, or a second or an empty path. -/
def firstFault? (items : List Item) : Option UsageError :=
  let numberFault := items.findSome? fun
    | setting s (some value) =>
      if s.isNumeric && (readNumber? value).isNone then some (.invalidNumber s value) else none
    | _ => none
  let operandFault := match items.filterMap operand? with
    | [] => none
    | path :: others =>
      if path = "" then some .emptyPath else others.head?.map .extraArgument
  ((firstRepeated? (items.filterMap setting?)).map .repeated).or (numberFault.or operandFault)

end Item

/-- Which sentences to generate and how to print them. -/
structure GenerateRequest where
  path : String
  amount : Nat := 1
  start : String := Generator.defaultStart
  seed : Option UInt64 := none
  maxDepth : Nat := Generator.defaultMaxDepth
  maxAttempts : Option Nat := none
  pretty : Bool := false
deriving DecidableEq, Repr

/-- How to parse sentences and what to print of them. -/
structure ParseRequest where
  path : String
  root : String := Grammar.parseRoot
  chart : Bool := false
  pretty : Bool := false
deriving DecidableEq, Repr

/-- What the arguments ask for. -/
inductive Request where
  | help
  | generate (request : GenerateRequest)
  | parse (request : ParseRequest)
deriving DecidableEq, Repr

namespace Request

/-- The parts of a command's arguments and the path among them, or `none` where help is asked
for. -/
def readItems (settings : List Setting) (arguments : List String) :
    Except UsageError (Option (String × List Item)) :=
  match Item.readAll settings arguments with
  | .error e => .error e
  | .ok items =>
    match Item.firstFault? items with
    | some fault => .error fault
    | none =>
      if Item.asksHelp items then .ok none
      else
        match (items.filterMap Item.operand?).head? with
        | none => .error .missingPath
        | some path => .ok (some (path, items))

def readGenerate (arguments : List String) : Except UsageError Request :=
  match readItems Setting.forGenerate arguments with
  | .error e => .error e
  | .ok none => .ok .help
  | .ok (some (path, items)) => .ok (.generate {
      path
      amount := (Item.number? items .amount).getD 1
      start := (Item.value? items .start).getD Generator.defaultStart
      seed := (Item.number? items .seed).map Nat.toUInt64
      maxDepth := (Item.number? items .maxDepth).getD Generator.defaultMaxDepth
      maxAttempts := Item.number? items .maxAttempts
      pretty := Item.has items .pretty })

def readParse (arguments : List String) : Except UsageError Request :=
  match readItems Setting.forParse arguments with
  | .error e => .error e
  | .ok none => .ok .help
  | .ok (some (path, items)) => .ok (.parse {
      path
      root := (Item.value? items .root).getD Grammar.parseRoot
      chart := Item.has items .chart
      pretty := Item.has items .pretty })

/-- The arguments that ask for help or for the version before any command. -/
def helpArguments : List String := ["--help", "--version"]

/-- The letters that ask for help or for the version before any command. -/
def helpLetters : List Char := ['h', 'V']

/-- What the arguments ask for. -/
def ofArguments : List String → Except UsageError Request
  | [] => .error .missingCommand
  | "generate" :: rest => readGenerate rest
  | "parse" :: rest => readParse rest
  | ["help"] => .ok .help
  | ["help", command] =>
    if command ∈ ["generate", "parse", "help"] then .ok .help
    else .error (.unknownCommand command)
  | argument :: _ =>
    if argument ∈ helpArguments then .ok .help
    else
      match argument.toList with
      | '-' :: c :: _ =>
        if c ∈ helpLetters then .ok .help else .error (.unknownOption argument)
      | _ => .error (.unknownCommand argument)

def readsInput : Request → Bool
  | help => false
  | generate _ => false
  | parse _ => true

def path? : Request → Option String
  | help => none
  | generate request => some request.path
  | parse request => some request.path

end Request

end PhraseStructure.Command
