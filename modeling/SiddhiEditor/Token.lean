import SiddhiEditor.Keyword

/-!
# Tokens

A token is a piece of the document with its kind and the byte offset it starts
at.  Blank runs and comments are tokens too, so the tokens of a document tile
it.  They are *trivia*, and a token that is not trivia is *visible*.  *Words*
are the tokens a user types letter by letter, and the cursor may rest at the end
of one while it is still being completed.
-/

namespace SiddhiEditor

/-- What a token is. -/
inductive Kind where
  | identifier
  | keyword (k : Keyword)
  | intLiteral
  | longLiteral
  | floatLiteral
  | stringLiteral
  | openPar
  | closePar
  | openSquare
  | closeSquare
  | comma
  | semicolon
  | dot
  | hash
  | atSign
  | colon
  | assign
  /-- A character of no other kind. -/
  | other (c : Char)
  | lineComment
  | blockComment
  | whitespace
  deriving DecidableEq, Repr

namespace Kind

/-- A comment of either form. -/
def isComment : Kind → Bool
  | lineComment | blockComment => true
  | _ => false

/-- A comment or a blank run. -/
def isTrivia : Kind → Bool
  | lineComment | blockComment | whitespace => true
  | _ => false

/-- A name, a keyword or a number. -/
def isWord : Kind → Bool
  | identifier | keyword _ | intLiteral | longLiteral | floatLiteral => true
  | _ => false

end Kind

/-- A piece of a document. -/
structure Token where
  /-- What the piece is. -/
  kind : Kind
  /-- The piece itself. -/
  text : String
  /-- The offset of its first byte. -/
  start : Nat
  deriving DecidableEq, Repr

namespace Token

/-- The length in bytes. -/
def length (t : Token) : Nat := t.text.utf8ByteSize

/-- The offset behind the last byte. -/
def stop (t : Token) : Nat := t.start + t.length

/-- The token covers the byte at `offset`. -/
def contains (t : Token) (offset : Nat) : Bool := t.start ≤ offset && offset < t.stop

/-- The cursor at `offset` is inside the token or right behind it. -/
def touches (t : Token) (offset : Nat) : Bool := t.start < offset && offset ≤ t.stop

/-- A token that is not trivia. -/
def isVisible (t : Token) : Bool := !t.kind.isTrivia

/-- The same token, `n` bytes further on. -/
def shift (n : Nat) (t : Token) : Token := { t with start := t.start + n }

end Token

end SiddhiEditor
