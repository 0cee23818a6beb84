import PhraseStructure.Grammar.Text
import PhraseStructure.Text.Quoted

/-!
# Loading grammars

A grammar is loaded from the text of a file. Either the file cannot be read or its text is no
grammar; both errors have a form in words and a form as a record of their fields.
-/

namespace PhraseStructure

/-- Why a file does not give a text. -/
inductive ReadError where
  | notFound
  | isDirectory
  | notDirectory
  | nulInPath
  | notText
deriving DecidableEq, Repr

namespace ReadError

def message : ReadError → String
  | notFound => "No such file or directory (os error 2)"
  | isDirectory => "Is a directory (os error 21)"
  | notDirectory => "Not a directory (os error 20)"
  | nulInPath => "file name contained an unexpected NUL byte"
  | notText => "stream did not contain valid UTF-8"

/-- A reason that comes from the system, as a record. -/
def systemRecord (code : Nat) (kind message : String) : String :=
  "Os \x7b code: " ++ toString code ++ ", kind: " ++ kind ++ ", message: \"" ++ message ++ "\" \x7d"

/-- A reason that comes from elsewhere, as a record. -/
def plainRecord (kind message : String) : String :=
  "Error \x7b kind: " ++ kind ++ ", message: \"" ++ message ++ "\" \x7d"

def record : ReadError → String
  | notFound => systemRecord 2 "NotFound" "No such file or directory"
  | isDirectory => systemRecord 21 "IsADirectory" "Is a directory"
  | notDirectory => systemRecord 20 "NotADirectory" "Not a directory"
  | nulInPath => plainRecord "InvalidInput" nulInPath.message
  | notText => plainRecord "InvalidData" notText.message

end ReadError

/-- Why a grammar cannot be loaded. -/
inductive GrammarError where
  | load (path : String) (cause : ReadError)
  | format (e : FormatError)
deriving DecidableEq, Repr

namespace GrammarError

def message : GrammarError → String
  | load path cause => "couldn't read grammar " ++ path ++ ": " ++ cause.message
  | format e => e.message

def record : GrammarError → String
  | load path cause =>
    "Load \x7b path: " ++ Text.quoted path ++ ", source: " ++ cause.record ++ " \x7d"
  | format e =>
    "Format \x7b line: " ++ toString e.line ++ ", message: " ++ Text.quoted e.fault.message ++
      " \x7d"

end GrammarError

/-- What reading a file gave, as a text. -/
def decodeText (content : Except ReadError ByteArray) : Except ReadError String :=
  match content with
  | .error e => .error e
  | .ok bytes =>
    match String.fromUTF8? bytes with
    | none => .error .notText
    | some text => .ok text

/-- The grammar in a file, from what reading the file gave. -/
def Grammar.load (path : String) (content : Except ReadError ByteArray) :
    Except GrammarError Grammar :=
  match decodeText content with
  | .error cause => .error (.load path cause)
  | .ok text =>
    match Grammar.ofText text with
    | .error e => .error (.format e)
    | .ok g => .ok g

end PhraseStructure
