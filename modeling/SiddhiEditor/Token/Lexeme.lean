import SiddhiEditor.Text.Blank
import SiddhiEditor.Token

/-!
# Lexemes

The scanner looks at the first character of what is left of a document and at
the characters behind it, and takes the longest lexeme of the class that they
select.  The classes are these.

* A blank run.
* A line comment, `--` or `//` and all that follows on the line.
* A block comment, `/*` up to the first `*/` behind it, or to the end of the
  document when there is none.
* A word, a letter or `_` followed by letters, digits and `_`.  It is a keyword
  when its lower-case form spells one.
* A number, digits with an optional fraction `.` digits, an optional exponent
  and an optional suffix.  The digits of fraction and exponent may be missing.
  The suffix `l` makes a plain digit run a long number, and `f` or `d` make any
  number a float.
* A string, from a quote to the next quote of the same sort, or to the end of
  the document when there is none.
* Any other character alone.

Letters and digits are ASCII.  Nothing is rejected, so half-typed text always
scans.  `Lexeme.next c cs` gives the kind and the number of characters of `cs`
that belong to the lexeme starting with `c`, and `Token.scanFrom` repeats it.  The
skip counter of `Token.scanFrom` runs over the characters of the last lexeme,
which keeps the recursion on the list of characters.
-/

namespace SiddhiEditor

namespace Lexeme

open Text (isBlank)

/-- The length of the leading run of characters with the property `p`. -/
def run (p : Char → Bool) (cs : List Char) : Nat := (cs.takeWhile p).length

/-! ## Words -/

/-- A character that starts a word. -/
def isWordStart (c : Char) : Bool := c.isAlpha || c == '_'

/-- A character that continues a word. -/
def isWordPart (c : Char) : Bool := c.isAlphanum || c == '_'

/-- The kind of a word, which is a keyword in any letter case. -/
def wordKind (word : List Char) : Kind :=
  match Keyword.ofSpelling? (String.ofList (word.map Char.toLower)) with
  | some k => .keyword k
  | none => .identifier

/-! ## Numbers -/

/-- The length of a fraction, the point included. -/
def fraction : List Char → Nat
  | '.' :: cs => run Char.isDigit cs + 1
  | _ => 0

/-- The length of a sign. -/
def sign : List Char → Nat
  | '+' :: _ => 1
  | '-' :: _ => 1
  | _ => 0

/-- The length of an exponent, its letter included. -/
def exponent : List Char → Nat
  | [] => 0
  | c :: cs =>
    if c == 'e' || c == 'E' then
      let signed := sign cs
      signed + run Char.isDigit (cs.drop signed) + 1
    else 0

/-- The kind that a suffix gives to a number, which is `plain` when it has
neither fraction nor exponent. -/
def suffixKind? (plain : Bool) : List Char → Option Kind
  | [] => none
  | c :: _ =>
    if plain && (c == 'l' || c == 'L') then some .longLiteral
    else if c == 'f' || c == 'F' || c == 'd' || c == 'D' then some .floatLiteral
    else none

/-- The kind of a number and its length behind the first digit. -/
def number (cs : List Char) : Kind × Nat :=
  let whole := run Char.isDigit cs
  let fractional := whole + fraction (cs.drop whole)
  let scaled := fractional + exponent (cs.drop fractional)
  let plain := scaled == whole
  match suffixKind? plain (cs.drop scaled) with
  | some kind => (kind, scaled + 1)
  | none => (if plain then .intLiteral else .floatLiteral, scaled)

/-! ## Comments and strings -/

/-- The length up to and with the first `*/`, or of the whole text. -/
def blockEnd : List Char → Nat
  | [] => 0
  | '*' :: '/' :: _ => 2
  | _ :: cs => blockEnd cs + 1

/-- The length up to and with the first `quote`, or of the whole text. -/
def stringEnd (quote : Char) : List Char → Nat
  | [] => 0
  | c :: cs => if c == quote then 1 else stringEnd quote cs + 1

/-! ## The next lexeme -/

/-- The kind of a character that stands alone. -/
def markKind : Char → Kind
  | '(' => .openPar
  | ')' => .closePar
  | '[' => .openSquare
  | ']' => .closeSquare
  | ',' => .comma
  | ';' => .semicolon
  | '.' => .dot
  | '#' => .hash
  | '@' => .atSign
  | ':' => .colon
  | '=' => .assign
  | c => .other c

/-- Two equal characters that open a line comment. -/
def opensLineComment (c : Char) (cs : List Char) : Bool :=
  (c == '-' || c == '/') && cs.head? == some c

/-- The two characters that open a block comment. -/
def opensBlockComment (c : Char) (cs : List Char) : Bool :=
  c == '/' && cs.head? == some '*'

/-- The kind of the lexeme that starts with `c`, and how many characters of the
rest `cs` belong to it. -/
def next (c : Char) (cs : List Char) : Kind × Nat :=
  if isBlank c then (.whitespace, run isBlank cs)
  else if opensLineComment c cs then (.lineComment, run (· != '\n') cs)
  else if opensBlockComment c cs then (.blockComment, blockEnd (cs.drop 1) + 1)
  else if isWordStart c then
    let more := run isWordPart cs
    (wordKind (c :: cs.take more), more)
  else if c.isDigit then number cs
  else if c == '\'' || c == '"' then (.stringLiteral, stringEnd c cs)
  else (markKind c, 0)

end Lexeme

/-! ## Scanning -/

namespace Token

/-- The tokens of a text that starts at the offset `start`, after `skip`
characters that belong to the token before. -/
def scanFrom (start : Nat) : (skip : Nat) → List Char → List Token
  | _, [] => []
  | skip + 1, _ :: cs => scanFrom start skip cs
  | 0, c :: cs =>
    let (kind, more) := Lexeme.next c cs
    let token : Token := ⟨kind, String.ofList (c :: cs.take more), start⟩
    token :: scanFrom token.stop more cs

/-- The tokens of a text. -/
def scan (text : String) : List Token := scanFrom 0 0 text.toList

end Token

end SiddhiEditor
