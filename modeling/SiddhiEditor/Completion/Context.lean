import SiddhiEditor.Tree.Offset

/-!
# The context of a request

A completion request is about an *element* of the tree, and what may stand there
is decided by the two visible leaves before it.  When no visible leaf comes
before the element there is no context.

A request at an offset is about the word under or before the cursor, or about
the leaf that covers the cursor.  Punctuation that ends right at the cursor is
already behind it, so it is itself the leaf before.  When that punctuation is
`)` or `;` the cursor stands behind every node that it closes, and the element is
the outermost of these.  A `)` never closes a query, because a query goes on up
to its `;`.
-/

namespace SiddhiEditor

/-- A leaf with the kind of its token. -/
structure Seen where
  /-- The leaf. -/
  node : NodeId
  /-- The kind of its token. -/
  kind : Kind
  deriving DecidableEq, Repr

/-- What a completion request is about. -/
structure Context where
  /-- The element. -/
  element : NodeId
  /-- The visible leaf before it. -/
  prev : Seen
  /-- The visible leaf before that. -/
  prevPrev : Option Seen
  deriving DecidableEq, Repr

namespace Tree

/-- A leaf with the kind of its token. -/
def seen (t : Tree) (x : NodeId) : Except Error Seen := do
  let token ← t.token x
  return ⟨x, token.kind⟩

/-- The visible leaf before `x`, with its kind. -/
def seenBefore (t : Tree) (x : NodeId) : Except Error (Option Seen) :=
  match t.prevVisible? x with
  | none => .ok none
  | some leaf => do
    let before ← t.seen leaf
    return some before

/-- The outermost node that the leaf closes.  The nodes from the leaf upwards are
closed as long as the leaf is the last visible one in them. -/
def closedBy (t : Tree) (leaf : NodeId) (kind : Kind) : NodeId :=
  let closes (x : NodeId) : Bool :=
    t.lastVisible? x == some leaf && !(t.hasRule .query x && kind != .semicolon)
  if kind == .closePar || kind == .semicolon then
    ((t.ancestors leaf).takeWhile closes).getLast?.getD leaf
  else leaf

end Tree

namespace Context

/-- The context of an element. -/
def ofElement (t : Tree) (x : NodeId) : Except Error (Option Context) := do
  match ← t.seenBefore x with
  | none => return none
  | some prev => return some ⟨x, prev, ← t.seenBefore prev.node⟩

/-- The context right behind a punctuation leaf. -/
def behind (t : Tree) (leaf : NodeId) (kind : Kind) : Except Error (Option Context) := do
  return some ⟨t.closedBy leaf kind, ⟨leaf, kind⟩, ← t.seenBefore leaf⟩

/-- The context of a request at an offset. -/
def ofOffset (t : Tree) (offset : Nat) : Except Error (Option Context) :=
  match t.elementAt? offset with
  | none => .ok none
  | some leaf => do
    let token ← t.token leaf
    if token.kind.isTrivia || token.kind.isWord || offset < token.stop then ofElement t leaf
    else behind t leaf token.kind

/-- The nearest node of the rule `r` around the element. -/
def enclosing? (c : Context) (t : Tree) (r : Rule) : Option NodeId := t.ancestor? r c.element

/-- The element is inside a node of the rule `r`. -/
def isWithin (c : Context) (t : Tree) (r : Rule) : Bool := t.isWithin r c.element

/-- The leaf before is inside a node of the rule `r`. -/
def prevWithin (c : Context) (t : Tree) (r : Rule) : Bool := t.isWithin r c.prev.node

/-- The leaf before that is inside a node of the rule `r`. -/
def prevPrevWithin (c : Context) (t : Tree) (r : Rule) : Bool :=
  c.prevPrev.any fun leaf => t.isWithin r leaf.node

/-- The leaf before is of a given kind. -/
def prevIs (c : Context) (kind : Kind) : Bool := c.prev.kind == kind

/-- The leaf before that is of a given kind. -/
def prevPrevIs (c : Context) (kind : Kind) : Bool := c.prevPrev.any fun leaf => leaf.kind == kind

end Context

end SiddhiEditor
