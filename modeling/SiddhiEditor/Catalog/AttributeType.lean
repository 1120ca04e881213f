/-!
# Attribute types

The types that an attribute of a stream, table or window may have.  A document
may spell them in any letter case.  The look-up expects the lower-case form.
-/

namespace SiddhiEditor

/-- The type of an attribute. -/
inductive AttributeType where
  | string
  | int
  | long
  | float
  | double
  | bool
  | object
  deriving DecidableEq, Repr

namespace AttributeType

/-- The lower-case spelling. -/
def spelling : AttributeType → String
  | string => "string"
  | int => "int"
  | long => "long"
  | float => "float"
  | double => "double"
  | bool => "bool"
  | object => "object"

/-- Every type, once. -/
def all : List AttributeType := [string, int, long, float, double, bool, object]

/-- The type with a given spelling. -/
def ofSpelling? (word : String) : Option AttributeType := all.find? fun a => a.spelling == word

end AttributeType

end SiddhiEditor
