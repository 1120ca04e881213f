import SiddhiEditor.Completion.Clause
import SiddhiEditor.Firsts

/-!
# Completion

An engine holds a clause for each region that covers a whole clause of a query.
The other regions have fixed suggestions.

A request at an offset is answered in four steps.  The context is found, it is
classified, the region gives suggestions, and these are narrowed to the ones that
match what has been typed of the word at the cursor.  Of two suggestions with one
label the first is kept.  Without a context a statement may start, and a context
in no region offers nothing.
-/

namespace SiddhiEditor

/-- The clauses that answer requests. -/
structure Engine where
  /-- For the input of a query. -/
  queryInput : Clause
  /-- For the section from `select` on. -/
  querySection : Clause
  /-- For the output rate. -/
  outputRate : Clause
  /-- For the output of a query. -/
  queryOutput : Clause

namespace Engine

open Suggestion (keyword keywords)

/-- The engine with the clauses of this library. -/
def standard : Engine where
  queryInput := Clause.queryInput
  querySection := Clause.querySection
  outputRate := Clause.outputRate
  queryOutput := Clause.queryOutput

/-- The suggestions of a region. -/
def resolve (e : Engine) (t : Tree) (c : Context) : Region → Except Error (List Suggestion)
  | .topLevel => .ok (keywords Vocabulary.topLevel)
  | .queryInput => e.queryInput t c
  | .afterAnonymousStreamInput => .ok (keywords Vocabulary.afterQueryInput)
  | .querySection => e.querySection t c
  | .outputRate => e.outputRate t c
  | .startOfQueryOutput => .ok (keywords Vocabulary.queryOutputStart)
  | .afterInsertKeyword => .ok (keywords (Vocabulary.eventTypes ++ [Vocabulary.into]))
  | .afterOutputEventType => .ok [keyword Vocabulary.into]
  | .queryOutput => e.queryOutput t c

/-- The suggestions for a context, or for the place before everything visible. -/
def suggestions (e : Engine) (t : Tree) : Option Context → Except Error (List Suggestion)
  | none => .ok (keywords Vocabulary.topLevel)
  | some c => do
    match ← Region.classify t c with
    | none => return []
    | some region => e.resolve t c region

/-- The part of a token before the cursor at `offset`, if the token is a word and
the cursor inside it or right behind it. -/
def typedPart (token : Token) (offset : Nat) : String :=
  if token.kind.isWord && token.touches offset then
    String.ofList ((Text.takeBytes? (offset - token.start) token.text.toList).getD [])
  else ""

/-- What has been typed of the word at the cursor. -/
def typed (t : Tree) (offset : Nat) : Except Error String :=
  match t.elementAt? offset with
  | none => .ok ""
  | some leaf => do
    let token ← t.token leaf
    return typedPart token offset

/-- The suggestions with distinct labels. -/
def distinct (suggestions : List Suggestion) : List Suggestion := firstsBy (·.label) suggestions

/-- The answer to a request at an offset. -/
def complete (e : Engine) (t : Tree) (offset : Nat) : Except Error (List Suggestion) := do
  let context? ← Context.ofOffset t offset
  let offered ← e.suggestions t context?
  let typed ← typed t offset
  return distinct (offered.filter (·.isMatch typed))

/-- The answer to a request about an element, whatever has been typed. -/
def completeAt (e : Engine) (t : Tree) (x : NodeId) : Except Error (List Suggestion) := do
  let context? ← Context.ofElement t x
  let offered ← e.suggestions t context?
  return distinct offered

end Engine

/-- The answer of the standard engine to a request at an offset. -/
def Tree.suggest (t : Tree) (offset : Nat) : Except Error (List Suggestion) :=
  Engine.standard.complete t offset

end SiddhiEditor
