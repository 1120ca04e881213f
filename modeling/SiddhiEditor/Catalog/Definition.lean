import SiddhiEditor.Catalog.AttributeType
import SiddhiEditor.Text.Blank
import SiddhiEditor.Tree

/-!
# Definitions

A definition introduces a stream, a table or a window.  Its name is the first
visible leaf of the first stream name that is a child of the definition's node.
A definition whose name is still missing is none yet.

Every attribute name inside the node, at any depth, is an attribute once it has a
visible leaf.  Its type is the next attribute type among the siblings behind the
name, unless another attribute name comes first.  A type that is missing or
misspelled leaves the attribute without one.
-/

namespace SiddhiEditor

/-- A named and typed part of the events of a definition. -/
structure Attribute where
  /-- The name. -/
  name : String
  /-- The type, unless it is missing or misspelled. -/
  type : Option AttributeType
  /-- The leaf of the name. -/
  node : NodeId
  deriving DecidableEq, Repr

/-- What a definition introduces. -/
inductive DefinitionKind where
  | stream
  | table
  | window
  deriving DecidableEq, Repr

/-- What a node of the rule `r` introduces. -/
def DefinitionKind.ofRule? : Rule → Option DefinitionKind
  | .definitionStream => some .stream
  | .definitionTable => some .table
  | .definitionWindow => some .window
  | _ => none

/-- A stream, a table or a window with its attributes. -/
structure Definition where
  /-- The name. -/
  name : String
  /-- What is introduced. -/
  kind : DefinitionKind
  /-- The attributes, in order. -/
  attributes : List Attribute
  /-- The leaf of the name. -/
  node : NodeId
  deriving DecidableEq, Repr

namespace Tree

/-- A word in lower case and without blanks at its ends. -/
def foldedWord (word : String) : String :=
  String.ofList ((Text.trim word).toList.map Char.toLower)

/-- The attribute type that belongs to the attribute name `x`. -/
def typeAfter? (t : Tree) (x : NodeId) : Option AttributeType :=
  let decides (y : NodeId) : Bool := t.hasRule .attributeType y || t.hasRule .attributeName y
  match (t.siblingsAfter x).find? decides with
  | none => none
  | some y =>
    if t.hasRule .attributeType y then AttributeType.ofSpelling? (foldedWord (t.text y)) else none

/-- The attribute names below `x` that have a visible leaf, each with that leaf. -/
def attributeNames (t : Tree) (x : NodeId) : List (NodeId × NodeId) :=
  (t.descendants .attributeName x).filterMap fun y => (t.firstVisible? y).map (y, ·)

/-- The attribute of an attribute name and its leaf. -/
def attributeOf (t : Tree) (named : NodeId × NodeId) : Except Error Attribute := do
  let token ← t.token named.2
  return ⟨token.text, t.typeAfter? named.1, named.2⟩

/-- The leaf of the name that the definition node `x` gives. -/
def nameLeaf? (t : Tree) (x : NodeId) : Option NodeId :=
  ((t.children x).find? (t.hasRule .streamId)).bind t.firstVisible?

end Tree

namespace Definition

/-- The definition at a node, if it is a definition node and the name is there. -/
def ofNode? (t : Tree) (x : NodeId) : Except Error (Option Definition) :=
  match (t.rule? x).bind DefinitionKind.ofRule?, t.nameLeaf? x with
  | some kind, some leaf => do
    let token ← t.token leaf
    let attributes ← (t.attributeNames x).mapM t.attributeOf
    return some ⟨token.text, kind, attributes, leaf⟩
  | _, _ => .ok none

/-- The first attribute of a given name. -/
def attribute? (d : Definition) (name : String) : Option Attribute :=
  d.attributes.find? fun a => a.name == name

end Definition

end SiddhiEditor
