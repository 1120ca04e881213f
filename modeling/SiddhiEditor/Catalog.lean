import SiddhiEditor.Catalog.Definition

/-!
# The catalog of a document

The catalog lists the definitions of a document in the order of their names'
leaves.  Definitions with the same leaf, which nested nodes may share, keep the
order streams, tables, windows and then the order of the document.  Of several
definitions of one name the first counts, and names are compared as they are
written.
-/

namespace SiddhiEditor

/-- The definitions of a document. -/
structure Catalog where
  /-- The definitions, in order. -/
  definitions : List Definition
  deriving DecidableEq, Repr

namespace Catalog

/-- The definition nodes of a tree, streams first, then tables, then windows. -/
def definitionNodes (t : Tree) : List NodeId :=
  Rule.definitions.flatMap fun r => t.descendants r Tree.root

/-- The definitions of a tree. -/
def ofTree (t : Tree) : Except Error Catalog := do
  let found ← (definitionNodes t).mapM (Definition.ofNode? t)
  return ⟨(found.filterMap id).mergeSort fun a b => a.node ≤ b.node⟩

/-- The first definition of a name. -/
def definition? (c : Catalog) (name : String) : Option Definition :=
  c.definitions.find? fun d => d.name == name

/-- The definitions of one kind. -/
def ofKind (c : Catalog) (kind : DefinitionKind) : List Definition :=
  c.definitions.filter fun d => d.kind == kind

/-- The attributes of the named definitions, in the order of the names.  A name
without a definition has none. -/
def attributesOf (c : Catalog) (names : List String) : List Attribute :=
  (names.filterMap c.definition?).flatMap (·.attributes)

end Catalog

end SiddhiEditor
