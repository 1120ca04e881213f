import SiddhiEditor.Completion.Context
import SiddhiEditor.Reference

/-!
# Regions

A region is a zone of the language in which the same suggestions make sense.
`classify` tries the regions in a fixed order and takes the first that fits.
Several of them overlap, so the order decides what is offered.

An element outside every query is between statements, or in no region at all.
Inside a query the order is this.

1. The element is in the input of the query.
2. The leaf before ends an anonymous stream, whose output events were named.
3. The element is in the section from `select` on.
4. The element is in the output rate.
5. The leaf before ends an output rate that counts events.
6. The leaf before is an `insert` behind another part of the query.
7. The leaf before belongs to the event type behind `insert`.
8. Anything else is the output of the query.
-/

namespace SiddhiEditor

/-- A zone of the language. -/
inductive Region where
  /-- Between statements. -/
  | topLevel
  /-- The input of a query. -/
  | queryInput
  /-- Behind an anonymous stream that named its output events. -/
  | afterAnonymousStreamInput
  /-- The section of a query from `select` on. -/
  | querySection
  /-- The output rate of a query. -/
  | outputRate
  /-- Behind a complete output rate. -/
  | startOfQueryOutput
  /-- Behind `insert`. -/
  | afterInsertKeyword
  /-- Behind the event type that follows `insert`. -/
  | afterOutputEventType
  /-- The output of a query. -/
  | queryOutput
  deriving DecidableEq, Repr

namespace Context

/-- The rules that may stand around a statement. -/
def mayHoldStatements : Option Rule → Bool
  | some .siddhiApp | some .partition | some .error => true
  | _ => false

/-- The leaf before ends a statement or opens a block of statements. -/
def afterStatement (c : Context) (t : Tree) : Bool :=
  match c.prev.kind with
  | .semicolon | .keyword .begin => true
  | .closePar => c.prevWithin t .annotationRule
  | _ => false

/-- The element stands between statements. -/
def betweenStatements (c : Context) (t : Tree) : Bool :=
  (t.ancestors c.element).all (fun x => mayHoldStatements (t.rule? x)) && c.afterStatement t

/-- The leaf before ends an anonymous stream that named its output events. -/
def afterAnonymousStream (c : Context) (t : Tree) : Bool :=
  c.prevWithin t .queryInput && c.prevWithin t .anonymousStream &&
    (c.prevWithin t .outputEventType ||
      (c.prevIs .closePar && c.prevPrevWithin t .outputEventType))

/-- The leaf before ends an output rate that counts events. -/
def afterEventRate (c : Context) (t : Tree) : Bool :=
  c.prevWithin t .outputRate && c.prevIs (.keyword .events) && c.prevPrevIs .intLiteral

/-- The leaf before is an `insert` behind another part of the query. -/
def afterInsert (c : Context) (t : Tree) : Bool :=
  c.prevIs (.keyword .insert) &&
    (c.prevPrevWithin t .outputRate || c.prevPrevWithin t .querySection ||
      c.prevPrevWithin t .queryInput)

/-- The leaf before is a direct part of an event type behind `insert`. -/
def afterInsertedEventType (c : Context) (t : Tree) : Except Error Bool :=
  match (t.parent? c.prev.node).filter (t.hasRule .outputEventType) with
  | none => .ok false
  | some eventType => t.follows .insert eventType

end Context

namespace Region

/-- The region of a context. -/
def classify (t : Tree) (c : Context) : Except Error (Option Region) :=
  if !c.isWithin t .query then
    .ok (if c.betweenStatements t then some .topLevel else none)
  else if c.isWithin t .queryInput then .ok (some .queryInput)
  else if c.afterAnonymousStream t then .ok (some .afterAnonymousStreamInput)
  else if c.isWithin t .querySection then .ok (some .querySection)
  else if c.isWithin t .outputRate then .ok (some .outputRate)
  else if c.afterEventRate t then .ok (some .startOfQueryOutput)
  else if c.afterInsert t then .ok (some .afterInsertKeyword)
  else do
    let behindEventType ← c.afterInsertedEventType t
    return some (if behindEventType then .afterOutputEventType else .queryOutput)

end Region

end SiddhiEditor
