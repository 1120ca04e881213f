/-!
# Grammar rules

The interior nodes of a document's tree carry the grammar rule that produced
them.  A rule has a name, by which the bracket notation refers to it.
-/

namespace SiddhiEditor

/-- The rule of an interior node. -/
inductive Rule where
  | siddhiApp
  | annotationRule
  | definitionStream
  | definitionTable
  | definitionWindow
  | streamId
  | attributeName
  | attributeType
  | partition
  | query
  | queryInput
  | standardStream
  | anonymousStream
  | querySection
  | outputAttribute
  | attributeReference
  | groupBy
  | having
  | orderBy
  | limit
  | outputRate
  | queryOutput
  | outputEventType
  | target
  | updateOrInsertInto
  /-- Text that no other rule matches, kept so that its positions stay addressable. -/
  | error
  deriving DecidableEq, Repr

namespace Rule

/-- The name of a rule. -/
def name : Rule → String
  | siddhiApp => "SiddhiApp"
  | annotationRule => "Annotation"
  | definitionStream => "DefinitionStream"
  | definitionTable => "DefinitionTable"
  | definitionWindow => "DefinitionWindow"
  | streamId => "StreamId"
  | attributeName => "AttributeName"
  | attributeType => "AttributeType"
  | partition => "Partition"
  | query => "Query"
  | queryInput => "QueryInput"
  | standardStream => "StandardStream"
  | anonymousStream => "AnonymousStream"
  | querySection => "QuerySection"
  | outputAttribute => "OutputAttribute"
  | attributeReference => "AttributeReference"
  | groupBy => "GroupBy"
  | having => "Having"
  | orderBy => "OrderBy"
  | limit => "Limit"
  | outputRate => "OutputRate"
  | queryOutput => "QueryOutput"
  | outputEventType => "OutputEventType"
  | target => "Target"
  | updateOrInsertInto => "UpdateOrInsertInto"
  | error => "Error"

/-- Every rule, once. -/
def all : List Rule :=
  [siddhiApp, annotationRule, definitionStream, definitionTable, definitionWindow, streamId,
    attributeName, attributeType, partition, query, queryInput, standardStream,
    anonymousStream, querySection, outputAttribute, attributeReference, groupBy, having,
    orderBy, limit, outputRate, queryOutput, outputEventType, target, updateOrInsertInto,
    error]

/-- The rules that introduce a named source of events. -/
def definitions : List Rule := [definitionStream, definitionTable, definitionWindow]

/-- A rule that introduces a named source of events. -/
def isDefinition (r : Rule) : Bool := definitions.contains r

/-- The rule with a given name. -/
def ofName? (name : String) : Option Rule := all.find? fun r => r.name == name

/-- A name is looked up to the rule that has it, and to nothing else. -/
theorem ofName?_eq_some_iff {name : String} {r : Rule} :
    ofName? name = some r ↔ r.name = name := by
  constructor
  · intro h
    simpa using List.find?_some h
  · rintro rfl
    cases r <;> decide

end Rule

end SiddhiEditor
