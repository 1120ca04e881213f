/-!
# First occurrences

Names read twice are listed once, and of two suggestions with one label the
first is kept.  `firstsBy key` keeps, of all members with the same key, the
first, and does not change the order.
-/

namespace SiddhiEditor

/-- The members whose key no member before them has. -/
def firstsBy {α β : Type} [DecidableEq β] (key : α → β) : List α → List α
  | [] => []
  | x :: xs => x :: (firstsBy key xs).filter fun y => key y != key x

end SiddhiEditor
