import SiddhiEditor.Text.Hidden

/-!
# Quoted text

Messages show a piece of a document between double quotes, on one line and
without ambiguity.  A backslash stands before the quote, before itself and
before the letter of a short escape.  Every hidden character without a short
escape is spelled by its code point in hexadecimal, between braces.  All other
characters stand for themselves, single quotes included.
-/

namespace SiddhiEditor.Text

/-- A code point in lower-case hexadecimal, as an escape. -/
def escapedCode (n : Nat) : List Char :=
  ['\\', 'u', '\x7b'] ++ Nat.toDigits 16 n ++ ['\x7d']

/-- The spelling of one character inside quotes. -/
def quotedChar (c : Char) : List Char :=
  if c == '\x00' then ['\\', '0']
  else if c == '\t' then ['\\', 't']
  else if c == '\r' then ['\\', 'r']
  else if c == '\n' then ['\\', 'n']
  else if c == '\\' || c == '\"' then ['\\', c]
  else if isHidden c then escapedCode c.toNat
  else [c]

/-- A text between double quotes. -/
def quoted (s : String) : String :=
  String.ofList (['\"'] ++ s.toList.flatMap quotedChar ++ ['\"'])

end SiddhiEditor.Text
