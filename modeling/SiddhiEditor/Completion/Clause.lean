import SiddhiEditor.Completion.Region
import SiddhiEditor.Completion.Suggestion
import SiddhiEditor.Completion.Vocabulary

/-!
# Suggestions for the clauses of a query

Four regions cover a whole clause each, and what is offered there depends on the
leaf before the element.  A clause is a function from the tree and the context to
suggestions, so a caller may put another in its place.
-/

namespace SiddhiEditor

/-- The suggestions for a context in a tree. -/
abbrev Clause := Tree → Context → Except Error (List Suggestion)

namespace Clause

open Suggestion (keyword keywords function)

/-- The names of all definitions. -/
def definitionNames (t : Tree) : Except Error (List Suggestion) := do
  let catalog ← Catalog.ofTree t
  return catalog.definitions.map Suggestion.ofDefinition

/-- The names of all tables. -/
def tableNames (t : Tree) : Except Error (List Suggestion) := do
  let catalog ← Catalog.ofTree t
  return (catalog.ofKind .table).map Suggestion.ofDefinition

/-- The attributes of the streams that the query around `x` reads. -/
def inputAttributes (t : Tree) (x : NodeId) : Except Error (List Suggestion) := do
  let catalog ← Catalog.ofTree t
  let read ← t.inputStreams x
  return (catalog.attributesOf read).map Suggestion.ofAttribute

/-- The whole event, as `select` may take it. -/
def wholeEvent : Suggestion := ⟨"*", "* ", .operator⟩

/-- In the input of a query: streams, windows and what may follow a stream. -/
def queryInput : Clause := fun t c =>
  match c.prev.kind with
  | .hash => .ok [function "window."]
  | .dot =>
    if c.prevPrevIs (.keyword .window) then .ok (Vocabulary.windowFunctions.map function)
    else definitionNames t
  | .identifier | .closePar | .closeSquare =>
    .ok (keywords (Vocabulary.afterStream ++ Vocabulary.afterQueryInput))
  | _ => definitionNames t

/-- The leaf before asks for an attribute.  An operator other than `*` does, and
a `*` is a finished selection. -/
def asksForAttribute : Kind → Bool
  | .comma | .openPar | .keyword .by | .keyword .having | .keyword .and | .keyword .or
  | .keyword .not => true
  | .other c => c != '*'
  | _ => false

/-- In the section from `select` on: attributes of the streams being read, and
the words of the section once something is selected. -/
def querySection : Clause := fun t c =>
  match c.prev.kind with
  | .keyword .select => do
    let attributes ← inputAttributes t c.element
    return wholeEvent :: attributes
  | .keyword .group | .keyword .order => .ok [keyword "by"]
  | kind =>
    if asksForAttribute kind then inputAttributes t c.element
    else .ok (keywords (Vocabulary.querySection ++ Vocabulary.afterQueryInput.drop 1))

/-- In the output rate: how many events, or how much time. -/
def outputRate : Clause := fun _ c =>
  match c.prev.kind with
  | .keyword .output => .ok (keywords Vocabulary.rateTypes)
  | .keyword .all | .keyword .last | .keyword .first | .keyword .snapshot => .ok [keyword "every"]
  | .intLiteral | .longLiteral => .ok (keywords ("events" :: Vocabulary.timeUnits))
  | _ => .ok []

/-- The kind of the first visible leaf of the output around the leaf before. -/
def outputVerb? (t : Tree) (c : Context) : Except Error (Option Kind) :=
  match (t.ancestor? .queryOutput c.prev.node).bind t.firstVisible? with
  | none => .ok none
  | some leaf => do
    let token ← t.token leaf
    return some token.kind

/-- Behind the target of an output, which has a condition when rows of a table
are deleted or updated. -/
def afterTarget : Clause := fun t c => do
  match ← outputVerb? t c with
  | some (.keyword .delete) | some (.keyword .update) => return keywords Vocabulary.afterTable
  | _ => return []

/-- In the output of a query: what is done, and to which stream or table. -/
def queryOutput : Clause := fun t c =>
  let otherwise : Except Error (List Suggestion) :=
    if c.prevWithin t .target then afterTarget t c
    else .ok (keywords Vocabulary.queryOutputStart)
  match c.prev.kind with
  | .keyword .into => definitionNames t
  | .keyword .delete => tableNames t
  | .keyword .update => do
    let tables ← tableNames t
    return tables ++ [keyword "or insert into"]
  | .keyword .or =>
    if c.prevPrevIs (.keyword .update) then .ok [keyword "insert into"] else otherwise
  | .keyword .return => .ok (keywords Vocabulary.eventTypes)
  | _ => otherwise

end Clause

end SiddhiEditor
