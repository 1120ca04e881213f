import SiddhiEditor.Error
import SiddhiEditor.Token

/-!
# Document trees

A tree is a table of nodes.  The number of a node is its row, and the rows
stand in pre-order, so a node comes after its parent and before the nodes that
follow its subtree in the document.  A node carries either the rule of an
interior node or a token.  It also keeps the number of its parent, its place
among the children of the parent, and the list of its own children.  Siblings
are read off these lists, and subtrees off the parent numbers.

The table also lists the numbers of its leaves, in document order, for the
search by offset.

The climb to the root is bounded by the number of the node it starts from.  A
parent's number is below its child's, so the bound is never what stops it.
-/

namespace SiddhiEditor

/-- The number of a node. -/
abbrev NodeId := Nat

/-- What a node carries. -/
inductive Label where
  /-- An interior node. -/
  | rule (r : Rule)
  /-- A leaf. -/
  | token (t : Token)
  deriving DecidableEq, Repr

namespace Label

/-- The rule of an interior node. -/
def rule? : Label → Option Rule
  | rule r => some r
  | token _ => none

/-- The token of a leaf. -/
def token? : Label → Option Token
  | rule _ => none
  | token t => some t

end Label

/-- A row of the table. -/
structure Node where
  /-- What the node carries. -/
  label : Label
  /-- The node it hangs under, unless it is the root. -/
  parent : Option NodeId
  /-- Its place among the children of that node. -/
  index : Nat
  /-- The nodes that hang under it, in order. -/
  children : Array NodeId
  deriving DecidableEq, Repr

/-- A document tree. -/
structure Tree where
  /-- The rows, in pre-order. -/
  nodes : Array Node
  /-- The numbers of the leaves, in document order. -/
  leaves : Array NodeId
  deriving DecidableEq, Repr

namespace Tree

/-- The root. -/
def root : NodeId := 0

/-- The number of nodes. -/
def size (t : Tree) : Nat := t.nodes.size

/-- The rule of an interior node. -/
def rule? (t : Tree) (x : NodeId) : Option Rule := t.nodes[x]?.bind (·.label.rule?)

/-- The token of a leaf. -/
def token? (t : Tree) (x : NodeId) : Option Token := t.nodes[x]?.bind (·.label.token?)

/-- The token of a node that has to be a leaf.  Only rows are asked about.  Any
other number would be refused like an interior node with the rule for errors. -/
def token (t : Tree) (x : NodeId) : Except Error Token :=
  match t.token? x with
  | some tok => .ok tok
  | none => .error (.interiorNode x ((t.rule? x).getD .error))

/-- A node tagged with the rule `r`. -/
def hasRule (t : Tree) (r : Rule) (x : NodeId) : Bool := t.rule? x == some r

/-- A node that carries a token. -/
def isLeaf (t : Tree) (x : NodeId) : Bool := (t.token? x).isSome

/-- A node that carries a token which is not trivia. -/
def isVisible (t : Tree) (x : NodeId) : Bool := (t.token? x).any Token.isVisible

/-! ## Parents, children and siblings -/

/-- The node that `x` hangs under. -/
def parent? (t : Tree) (x : NodeId) : Option NodeId := t.nodes[x]?.bind (·.parent)

/-- The place of `x` among the children of its parent. -/
def index (t : Tree) (x : NodeId) : Nat := (t.nodes[x]?.map (·.index)).getD 0

/-- The nodes that hang under `x`, in order. -/
def children (t : Tree) (x : NodeId) : List NodeId :=
  (t.nodes[x]?.map (·.children.toList)).getD []

/-- The siblings before `x`, nearest first. -/
def siblingsBefore (t : Tree) (x : NodeId) : List NodeId :=
  match t.parent? x with
  | none => []
  | some p => ((t.children p).take (t.index x)).reverse

/-- The siblings behind `x`, nearest first. -/
def siblingsAfter (t : Tree) (x : NodeId) : List NodeId :=
  match t.parent? x with
  | none => []
  | some p => (t.children p).drop (t.index x + 1)

/-- The sibling right before `x`. -/
def prevSibling? (t : Tree) (x : NodeId) : Option NodeId :=
  match t.parent? x, t.index x with
  | some p, i + 1 => (t.children p)[i]?
  | _, _ => none

/-- The sibling right behind `x`. -/
def nextSibling? (t : Tree) (x : NodeId) : Option NodeId :=
  match t.parent? x with
  | some p => (t.children p)[t.index x + 1]?
  | none => none

/-! ## Ancestors -/

/-- At most `bound` strict ancestors of a node, nearest first. -/
def climb (t : Tree) : (bound : Nat) → NodeId → List NodeId
  | 0, _ => []
  | bound + 1, x =>
    match t.parent? x with
    | none => []
    | some p => p :: t.climb bound p

/-- The strict ancestors of a node, nearest first. -/
def ancestors (t : Tree) (x : NodeId) : List NodeId := t.climb x x

/-- The nearest strict ancestor tagged with the rule `r`. -/
def ancestor? (t : Tree) (r : Rule) (x : NodeId) : Option NodeId :=
  (t.ancestors x).find? (t.hasRule r)

/-- Some strict ancestor is tagged with the rule `r`. -/
def isWithin (t : Tree) (r : Rule) (x : NodeId) : Bool := (t.ancestor? r x).isSome

/-! ## Subtrees -/

/-- The nodes behind `x` in the table. -/
def idsAfter (t : Tree) (x : NodeId) : List NodeId := List.range' (x + 1) (t.size - (x + 1))

/-- A node and all nodes below it, in order.  They are consecutive rows, and the
first row behind them hangs under a node before `x`. -/
def subtree (t : Tree) (x : NodeId) : List NodeId :=
  x :: (t.idsAfter x).takeWhile fun y => (t.parent? y).any (x ≤ ·)

/-- The leaves at or below a node, in order. -/
def leavesOf (t : Tree) (x : NodeId) : List NodeId := (t.subtree x).filter t.isLeaf

/-- The nodes at or below `x` that are tagged with the rule `r`, in order. -/
def descendants (t : Tree) (r : Rule) (x : NodeId) : List NodeId :=
  (t.subtree x).filter (t.hasRule r)

/-- The first leaf at or below a node. -/
def firstLeaf? (t : Tree) (x : NodeId) : Option NodeId := (t.subtree x).find? t.isLeaf

/-- The first visible leaf at or below a node. -/
def firstVisible? (t : Tree) (x : NodeId) : Option NodeId := (t.subtree x).find? t.isVisible

/-- The last visible leaf at or below a node. -/
def lastVisible? (t : Tree) (x : NodeId) : Option NodeId :=
  (t.subtree x).reverse.find? t.isVisible

/-- The text that a node covers. -/
def text (t : Tree) (x : NodeId) : String :=
  String.join ((t.subtree x).filterMap fun y => (t.token? y).map (·.text))

/-- The text of the document. -/
def source (t : Tree) : String := t.text root

/-! ## The visible leaf before a node -/

/-- The nearest visible leaf before `x` in the document.  It is looked for in
the siblings before `x`, nearest first, then in the siblings before each
ancestor in turn. -/
def prevVisible? (t : Tree) (x : NodeId) : Option NodeId :=
  (x :: t.ancestors x).findSome? fun y => (t.siblingsBefore y).findSome? t.lastVisible?

end Tree

end SiddhiEditor
