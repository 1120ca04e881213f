/-!
# Code style

How a document is indented.  Indentation is measured in columns, and the style
says whether tabs may cover a part of them.  Widths and columns are natural
numbers, without an upper bound.  Sums of columns in machine words agree with them
exactly as long as the column fits into a word (`Tree.wordColumn?_eq`).
-/

namespace SiddhiEditor

/-- How a document is indented. -/
structure CodeStyle where
  /-- The columns for each partition around a line. -/
  indentSize : Nat := 4
  /-- The columns for the lines of a query behind its first. -/
  continuationSize : Nat := 4
  /-- The columns that a tab covers. -/
  tabSize : Nat := 4
  /-- Tabs are used where they fit. -/
  useTabs : Bool := false
  /-- Lines that start with a block comment are not indented. -/
  blockCommentsFirst : Bool := false
  /-- Lines that start with a line comment are not indented. -/
  lineCommentsFirst : Bool := false
  deriving DecidableEq, Repr

/-- The blanks that cover a number of columns, tabs first. -/
def CodeStyle.blanks (style : CodeStyle) (columns : Nat) : List Char :=
  if style.useTabs && 0 < style.tabSize then
    List.replicate (columns / style.tabSize) '\t' ++ List.replicate (columns % style.tabSize) ' '
  else List.replicate columns ' '

/-- What is configured for all documents. -/
structure Config where
  /-- How documents are indented. -/
  codeStyle : CodeStyle := {}
  deriving DecidableEq, Repr

end SiddhiEditor
