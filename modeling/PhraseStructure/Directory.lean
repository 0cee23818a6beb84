import PhraseStructure.Grammar.Loading
import PhraseStructure.Text.Pieces

/-!
# Directories

A working directory that holds some files and no further directories, and how a path is followed
in it. Above it there are directories only, of which nothing else is known.
-/

namespace PhraseStructure

/-- The files of a working directory by name. -/
structure Directory where
  files : List (String × ByteArray) := []

namespace Directory

/-- Where a path has led so far: to the working directory, to a directory above it, or to a
file. -/
inductive Place where
  | here
  | above
  | file (content : ByteArray)

/-- The place that a path starts from. -/
def origin (path : List Char) : Place :=
  if path.head? = some '/' then .above else .here

def step (directory : Directory) (place : Place) (part : List Char) : Except ReadError Place :=
  match place with
  | .file _ => .error .notDirectory
  | .above =>
    if part = [] ∨ part = ['.'] ∨ part = ['.', '.'] then .ok .above else .error .notFound
  | .here =>
    if part = [] ∨ part = ['.'] then .ok .here
    else if part = ['.', '.'] then .ok .above
    else
      match directory.files.lookup (String.ofList part) with
      | none => .error .notFound
      | some content => .ok (.file content)

/-- What reading the file at a path gives. -/
def read (directory : Directory) (path : String) : Except ReadError ByteArray :=
  let text := path.toList
  if text = [] then .error .notFound
  else if '\x00' ∈ text then .error .nulInPath
  else
    match (Text.pieces '/' text).foldlM directory.step (origin text) with
    | .error e => .error e
    | .ok (.file content) => .ok content
    | .ok _ => .error .isDirectory

end Directory

end PhraseStructure
