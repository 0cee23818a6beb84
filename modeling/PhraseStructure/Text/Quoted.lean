import PhraseStructure.Text.Visible

/-!
# Quoted text

A text between double quotes on one line: the usual control characters have short names, a quote
or a backslash stands behind a backslash, and what does not show is written by its number.
-/

namespace PhraseStructure.Text

/-- A character written by its number, in lower-case hexadecimal digits. -/
def numbered (c : Char) : List Char :=
  '\\' :: 'u' :: '\x7b' :: Nat.toDigits 16 c.toNat ++ ['\x7d']

/-- How one character is written between quotes. -/
def escape (c : Char) : List Char :=
  if c = '\x00' then ['\\', '0']
  else if c = '\t' then ['\\', 't']
  else if c = '\r' then ['\\', 'r']
  else if c = '\n' then ['\\', 'n']
  else if c = '\\' ∨ c = '"' then ['\\', c]
  else if shows c then [c]
  else numbered c

def quoted (text : String) : String :=
  "\"" ++ String.ofList (text.toList.flatMap escape) ++ "\""

end PhraseStructure.Text
