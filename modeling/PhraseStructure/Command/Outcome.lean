import PhraseStructure.Command.Arguments
import PhraseStructure.Draws.ChaCha
import PhraseStructure.Grammar.Loading
import PhraseStructure.RoundTrip
import PhraseStructure.Text.Blank
import PhraseStructure.Text.Lines

/-!
# Command outcomes

What a run of the command prints and how it ends, as a function of its arguments, of the files
that it can read and of its standard input. Generation prints all sentences or none. Parsing
answers line by line and ends with the share of exact round trips, where lines are compared.
-/

namespace PhraseStructure.Command

/-- How a run ends. -/
inductive Outcome where
  | help
  | usage (e : UsageError)
  | done (printed : String)
  | failed (printed record : String)
  /-- What was asked for has no room. -/
  | oversize (e : Oversize)
  /-- The sentences were not complete when the fuel was used up. -/
  | unfinished
deriving DecidableEq, Repr

def errorLine (record : String) : String :=
  "Error: " ++ record ++ "\n"

namespace GenerateRequest

def generator (request : GenerateRequest) (g : Grammar) : Generator where
  grammar := g
  start := request.start
  maxDepth := request.maxDepth
  maxAttempts := request.maxAttempts

/-- The trees of a request, each on its own line or lines. -/
def print (request : GenerateRequest) (trees : List Tree) : String :=
  String.join (trees.map fun tree => tree.render request.pretty ++ "\n")

/-- The draws of a request: those of its seed, or of any source if it has none. -/
def draws (request : GenerateRequest) (unseeded : Draws) : Draws :=
  match request.seed with
  | none => unseeded
  | some seed => .ofSeed seed

/-- Generates sentences. Without a seed the draws are those of `unseeded`. -/
def run (request : GenerateRequest) (g : Grammar) (fuel : Nat) (unseeded : Draws) : Outcome :=
  match ((request.generator g).generate fuel request.amount (request.draws unseeded)).1 with
  | none => .unfinished
  | some (.error (.exhausted e)) => .failed "" (errorLine e.record)
  | some (.error (.oversize e)) => .oversize e
  | some (.ok trees) => .done (request.print trees)

end GenerateRequest

namespace ParseRequest

/-- Whether lines are compared with their round trips. -/
def compares (request : ParseRequest) : Bool :=
  request.root = Grammar.parseRoot && !request.pretty

/-- The chart of a line, if it is asked for. -/
def chartText (request : ParseRequest) (g : Grammar) (line : String) : String :=
  if request.chart then
    "chart:\n" ++ (Chart.fill g (RoundTrip.sentenceTokens g line)).text ++ "\n"
  else ""

/-- The tree of a line, or its round trip where lines are compared, or why there is none. -/
def treeText (request : ParseRequest) (g : Grammar) (line : String) : String :=
  let result :=
    if request.compares then RoundTrip.reparse g line
    else
      ((Chart.fill g (RoundTrip.sentenceTokens g line)).bestTree g request.root).map
        (·.render request.pretty)
  match result with
  | .ok text => text ++ "\n"
  | .error e => e.message ++ "\n"

/-- Whether a line is answered: blank ones are not. -/
def isAnswered (line : String) : Bool :=
  !line.toList.all Text.isBlank

/-- The share of exact round trips on a line of its own, if there is one. -/
def summary (tally : RoundTrip) : String :=
  match tally.accuracy with
  | none => ""
  | some share => Decimal.inFull share ++ "\n"

/-- What is printed after some lines, and the tally of those that were compared. -/
structure Progress where
  printed : String := ""
  tally : RoundTrip := {}

/-- Goes over one more line. -/
def step (request : ParseRequest) (g : Grammar) (progress : Progress) (line : String) : Progress :=
  if isAnswered line then
    { printed := progress.printed ++ (request.chartText g line ++ request.treeText g line)
      tally := if request.compares then progress.tally.record g line else progress.tally }
  else progress

/-- Goes on with some lines, up to the first that is no text. -/
def runFrom (request : ParseRequest) (g : Grammar) (progress : Progress) :
    List (List UInt8) → Outcome
  | [] => .done (progress.printed ++ summary progress.tally)
  | bytes :: rest =>
    match String.fromUTF8? ⟨bytes.toArray⟩ with
    | none => .failed progress.printed (errorLine ReadError.notText.record)
    | some line => runFrom request g (request.step g progress line) rest

/-- Answers the lines of the standard input one after the other. -/
def run (request : ParseRequest) (g : Grammar) (input : List UInt8) : Outcome :=
  request.runFrom g {} (Text.byteLines input)

end ParseRequest

namespace Request

/-- Runs a request on what reading its grammar file gave. -/
def run (request : Request) (content : Except ReadError ByteArray) (input : List UInt8)
    (fuel : Nat) (unseeded : Draws) : Outcome :=
  match request with
  | help => .help
  | generate request =>
    match Grammar.load request.path content with
    | .error e => .failed "" (errorLine e.record)
    | .ok g => request.run g fuel unseeded
  | parse request =>
    match Grammar.load request.path content with
    | .error e => .failed "" (errorLine e.record)
    | .ok g => request.run g input

end Request

namespace Outcome

/-- The outcome for some arguments, where `read` gives the contents of files. -/
def ofArguments (arguments : List String) (read : String → Except ReadError ByteArray)
    (input : List UInt8) (fuel : Nat) (unseeded : Draws) : Outcome :=
  match Request.ofArguments arguments with
  | .error e => .usage e
  | .ok request =>
    let content := match request.path? with
      | none => .error .notFound
      | some path => read path
    request.run content input fuel unseeded

def exitCode : Outcome → UInt8
  | help => 0
  | usage _ => 2
  | done _ => 0
  | failed _ _ => 1
  | oversize _ => 101
  | unfinished => 1

end Outcome

end PhraseStructure.Command
