import SiddhiEditor.Catalog
import SiddhiEditor.Firsts

/-!
# References

An identifier is the same kind of leaf wherever it stands.  What it refers to is
decided by its place in the tree.

1. A target right behind `into` names a stream, unless it belongs to
   `update or insert into`.
2. Any other identifier inside a target names the target of the output.
3. An attribute name inside an attribute reference names an attribute.
4. An identifier inside a stream name names a stream.

Streams and targets resolve to the first definition of the name.  Attributes
resolve among the streams that the query around them reads, and then among all
definitions.
-/

namespace SiddhiEditor

/-- What an identifier refers to. -/
inductive Role where
  /-- A stream, table or window that is read or inserted into. -/
  | streamId
  /-- The target of an output. -/
  | target
  /-- An attribute in an expression. -/
  | attributeName
  deriving DecidableEq, Repr

namespace Tree

/-- The visible leaf before `x` is the keyword `k`. -/
def follows (t : Tree) (k : Keyword) (x : NodeId) : Except Error Bool :=
  match t.prevVisible? x with
  | none => .ok false
  | some leaf => do
    let token ← t.token leaf
    return token.kind == .keyword k

/-- The role of an identifier by its ancestors alone. -/
def roleByAncestry? (t : Tree) (leaf : NodeId) : Option Role :=
  if t.isWithin .target leaf then some .target
  else if t.isWithin .attributeName leaf && t.isWithin .attributeReference leaf then
    some .attributeName
  else if t.isWithin .streamId leaf then some .streamId
  else none

/-- The leaf is a target right behind `into`, outside `update or insert into`. -/
def isIntoTarget (t : Tree) (leaf : NodeId) : Except Error Bool :=
  if t.isWithin .target leaf && !t.isWithin .updateOrInsertInto leaf then t.follows .into leaf
  else .ok false

/-- The role of a leaf, which only identifiers in certain places have. -/
def role? (t : Tree) (leaf : NodeId) : Except Error (Option Role) := do
  let token ← t.token leaf
  if token.kind == .identifier then
    let intoTarget ← t.isIntoTarget leaf
    return if intoTarget then some .streamId else t.roleByAncestry? leaf
  else return none

/-- The leaves that name the streams a query reads, in order. -/
def inputStreamLeaves (t : Tree) (query : NodeId) : List NodeId :=
  (((t.children query).filter (t.hasRule .queryInput)).flatMap (t.descendants .streamId)).filterMap
    t.firstVisible?

/-- The names of the streams that the query around `x` reads, each once. -/
def inputStreams (t : Tree) (x : NodeId) : Except Error (List String) :=
  match t.ancestor? .query x with
  | none => .ok []
  | some query => do
    let tokens ← (t.inputStreamLeaves query).mapM t.token
    return firstsBy id (tokens.map (·.text))

end Tree

namespace Catalog

/-- The attribute that `name` refers to where the streams `read` are read. -/
def attribute? (c : Catalog) (read : List String) (name : String) : Option Attribute :=
  ((c.attributesOf read).find? fun a => a.name == name).or
    (c.definitions.findSome? fun d => d.attribute? name)

/-- The leaf of the definition or attribute that a leaf refers to. -/
def resolve? (c : Catalog) (t : Tree) (leaf : NodeId) : Except Error (Option NodeId) := do
  match ← t.role? leaf with
  | none => return none
  | some .attributeName =>
    let token ← t.token leaf
    let read ← t.inputStreams leaf
    return (c.attribute? read token.text).map (·.node)
  | some _ =>
    let token ← t.token leaf
    return (c.definition? token.text).map (·.node)

end Catalog

end SiddhiEditor
