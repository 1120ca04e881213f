import SiddhiEditor.Layout.CodeStyle
import SiddhiEditor.Text.Blank
import SiddhiEditor.Text.Bytes
import SiddhiEditor.Tree.Offset

/-!
# Re-indentation

Re-indenting a document changes the blanks that its lines start with, and
nothing else but blank lines.

* A blank line keeps its line end only.
* A line that starts inside a token, such as a string over several lines, is kept
  as it is.
* Any other line starts with a leaf, and is put at the column of that leaf.  The
  leaf is indented for each partition around it, except by the partition's own
  first line and its closing `end`.  Inside a query, every line behind the first
  is indented further.
* A style may ask for comments of either form to stay at the first column.
-/

namespace SiddhiEditor

/-! ## Lines -/

/-- The lines of a text, each with its newline. -/
def lines : List Char → List (List Char)
  | [] => []
  | c :: cs =>
    if c == '\n' then [c] :: lines cs
    else
      match lines cs with
      | [] => [[c]]
      | line :: rest => (c :: line) :: rest

/-- A character that indents. -/
def isIndent (c : Char) : Bool := c == ' ' || c == '\t'

/-- A character that ends a line. -/
def isLineEnd (c : Char) : Bool := c == '\r' || c == '\n'

/-- The end of a line. -/
def lineEnd (line : List Char) : List Char := (line.reverse.takeWhile isLineEnd).reverse

namespace Tree

/-! ## Columns -/

/-- The leaf is the first visible one of the partition, or its closing `end`. -/
def bounds (t : Tree) (partition leaf : NodeId) (kind : Kind) : Bool :=
  t.firstVisible? partition == some leaf ||
    (t.parent? leaf == some partition && kind == .keyword .end)

/-- The number of partitions that indent a leaf. -/
def depth (t : Tree) (leaf : NodeId) (kind : Kind) : Nat :=
  (t.ancestors leaf).countP fun x => t.hasRule .partition x && !t.bounds x leaf kind

/-- The leaf comes behind the first visible leaf of the query around it. -/
def continuesQuery (t : Tree) (leaf : NodeId) : Bool :=
  ((t.ancestor? .query leaf).bind t.firstVisible?).any (· < leaf)

/-- The style keeps a token of this kind at the first column. -/
def staysFirst (style : CodeStyle) : Kind → Bool
  | .lineComment => style.lineCommentsFirst
  | .blockComment => style.blockCommentsFirst
  | _ => false

/-- The column of a line that starts with a leaf of the given kind. -/
def column (t : Tree) (style : CodeStyle) (leaf : NodeId) (kind : Kind) : Nat :=
  if staysFirst style kind then 0
  else
    t.depth leaf kind * style.indentSize +
      if t.continuesQuery leaf then style.continuationSize else 0

/-! ## The document -/

/-- A line that starts at the offset `start`, indented anew. -/
def reindentLine (t : Tree) (style : CodeStyle) (start : Nat) (line : List Char) :
    Except Error (List Char) :=
  let body := line.dropWhile isIndent
  let first := start + Text.byteCount (line.takeWhile isIndent)
  if body.all Text.isBlank then .ok (lineEnd line)
  else
    match t.leafAt? first with
    | none => .ok line
    | some leaf => do
      let token ← t.token leaf
      if token.start < first then return line
      else return style.blanks (t.column style leaf token.kind) ++ body

/-- Lines from the offset `start` on, indented anew. -/
def reindentLines (t : Tree) (style : CodeStyle) :
    (start : Nat) → List (List Char) → Except Error (List Char)
  | _, [] => .ok []
  | start, line :: rest => do
    let indented ← t.reindentLine style start line
    let others ← t.reindentLines style (start + Text.byteCount line) rest
    return indented ++ others

/-- The text of the document, indented anew. -/
def reindent (t : Tree) (style : CodeStyle) : Except Error String := do
  let text ← t.reindentLines style 0 (lines t.source.toList)
  return String.ofList text

/-- The text of the document, indented in the configured style. -/
def format (t : Tree) (config : Config) : Except Error String := t.reindent config.codeStyle

end Tree

end SiddhiEditor
