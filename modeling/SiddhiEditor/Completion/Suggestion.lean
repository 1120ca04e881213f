import SiddhiEditor.Catalog.Definition
import SiddhiEditor.Text.Bytes

/-!
# Suggestions

A suggestion is what the popup shows and what accepting it inserts.  Keywords
insert a space behind them so that typing can go on.  Names insert themselves.

A suggestion matches what has been typed when its label starts with it, up to
the case of ASCII letters.  The start of the label is cut at the number of bytes
typed, and a cut inside a character matches nothing.
-/

namespace SiddhiEditor

/-- What a suggestion stands for. -/
inductive SuggestionKind where
  | keyword
  | stream
  | table
  | «attribute»
  | function
  | operator
  deriving DecidableEq, Repr

/-- The word for a kind of suggestion. -/
def SuggestionKind.word : SuggestionKind → String
  | keyword => "keyword"
  | stream => "stream"
  | table => "table"
  | «attribute» => "attribute"
  | function => "function"
  | operator => "operator"

/-- An entry of the popup. -/
structure Suggestion where
  /-- What is shown. -/
  label : String
  /-- What is inserted. -/
  insertText : String
  /-- What it stands for. -/
  kind : SuggestionKind
  deriving DecidableEq, Repr

namespace Suggestion

/-- A keyword or a phrase of keywords. -/
def keyword (label : String) : Suggestion := ⟨label, label ++ " ", .keyword⟩

/-- Keywords in order. -/
def keywords (labels : List String) : List Suggestion := labels.map keyword

/-- A function. -/
def function (label : String) : Suggestion := ⟨label, label, .function⟩

/-- The name of an attribute. -/
def ofAttribute (a : Attribute) : Suggestion := ⟨a.name, a.name, .attribute⟩

/-- The kind of the suggestions for definitions.  Windows are read as streams. -/
def definitionKind : DefinitionKind → SuggestionKind
  | .table => .table
  | .stream | .window => .stream

/-- The name of a definition. -/
def ofDefinition (d : Definition) : Suggestion := ⟨d.name, d.name, definitionKind d.kind⟩

/-- The label with its kind in parentheses. -/
def display (s : Suggestion) : String := s!"{s.label} ({s.kind.word})"

/-- The label starts with the text typed, up to the case of ASCII letters. -/
def isMatch (s : Suggestion) (typed : String) : Bool :=
  match Text.takeBytes? typed.utf8ByteSize s.label.toList with
  | none => false
  | some start => start.map Char.toLower == typed.toList.map Char.toLower

end Suggestion

end SiddhiEditor
