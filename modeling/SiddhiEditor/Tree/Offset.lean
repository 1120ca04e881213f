import SiddhiEditor.Tree

/-!
# Look-up by offset

The leaves of a tree tile the document, so their ends never decrease along the
list of leaves, and a leaf is found by halving the list.  `boundary p n` is the
first index below `n` at which `p` fails, for a `p` that holds up to some index
and fails from there on.

Each halving leaves a shorter interval, so the length of the first interval
bounds the number of steps.
-/

namespace SiddhiEditor

/-- The search for the first failure of `p` between `low` and `high`, in at most
`steps` steps. -/
def bisect (p : Nat → Bool) : (steps low high : Nat) → Nat
  | 0, low, _ => low
  | steps + 1, low, high =>
    if low < high then
      let mid := (low + high) / 2
      if p mid then bisect p steps (mid + 1) high else bisect p steps low mid
    else low

/-- The first index below `n` at which `p` fails, or `n`. -/
def boundary (p : Nat → Bool) (n : Nat) : Nat := bisect p n 0 n

namespace Tree

/-- The offset behind a leaf. -/
def stop (t : Tree) (x : NodeId) : Nat := ((t.token? x).map Token.stop).getD 0

/-- The first leaf in the list of leaves whose end fails `p`. -/
def leafFrom? (t : Tree) (p : Nat → Bool) : Option NodeId :=
  t.leaves[boundary (fun i => t.leaves[i]?.any fun x => p (t.stop x)) t.leaves.size]?

/-- The leaf that covers the byte at `offset`. -/
def leafAt? (t : Tree) (offset : Nat) : Option NodeId :=
  (t.leafFrom? (· ≤ offset)).filter fun x => (t.token? x).any (·.contains offset)

/-- The word that the cursor at `offset` is inside of or right behind. -/
def wordAt? (t : Tree) (offset : Nat) : Option NodeId :=
  (t.leafFrom? (· < offset)).filter fun x =>
    (t.token? x).any fun tok => tok.kind.isWord && tok.touches offset

/-- The last leaf, when the document ends at `offset`. -/
def lastLeafAt? (t : Tree) (offset : Nat) : Option NodeId :=
  t.leaves.back?.filter fun x => t.stop x == offset

/-- The leaf a request at `offset` is about.  A word under or before the cursor
comes first, then the leaf that covers the cursor, then the last leaf at the end
of the document. -/
def elementAt? (t : Tree) (offset : Nat) : Option NodeId :=
  (t.wordAt? offset).or <| (t.leafAt? offset).or <| t.lastLeafAt? offset

end Tree

end SiddhiEditor
