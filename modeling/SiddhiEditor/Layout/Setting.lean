import SiddhiEditor.Error
import SiddhiEditor.Layout.CodeStyle

/-!
# Settings

The configuration is read from named settings, one for each field of the code
style, in the order of the fields.  A setting that is not given keeps the default.
The first setting that cannot be read decides.

What is given, how a value is read, and what is said about a value that cannot be
read, is up to the surroundings of the program (`Surroundings`).
-/

namespace SiddhiEditor

/-- Where settings are read.  A field of the code style and the name of its setting
give a value, or nothing if the setting is not given, or the reason why the value
cannot be read. -/
structure Surroundings where
  /-- Reads a setting that is a number. -/
  number : (field name : String) → Except String (Option Nat)
  /-- Reads a setting that is a truth value. -/
  flag : (field name : String) → Except String (Option Bool)

/-- The setting of one field, with the field's name, its own name, and the code
style that a value, or the lack of one, makes of another. -/
inductive Setting where
  /-- A setting that is a number. -/
  | number (field name : String) (put : Option Nat → CodeStyle → CodeStyle)
  /-- A setting that is a truth value. -/
  | flag (field name : String) (put : Option Bool → CodeStyle → CodeStyle)

namespace Setting

/-- The code style that a setting makes of another. -/
def apply (env : Surroundings) (style : CodeStyle) : Setting → Except String CodeStyle
  | number field name put => do return put (← env.number field name) style
  | flag field name put => do return put (← env.flag field name) style

/-- The code style that settings make of another, one after the other. -/
def applyAll (env : Surroundings) : CodeStyle → List Setting → Except Error CodeStyle
  | style, [] => .ok style
  | style, s :: rest =>
    match s.apply env style with
    | .ok next => applyAll env next rest
    | .error reason => .error (.config reason)

/-- The settings, in the order of the fields. -/
def all : List Setting :=
  [number "indent_size" "SIDDHI_INDENT_SIZE"
      fun n style => { style with indentSize := n.getD style.indentSize },
    number "continuation_indent_size" "SIDDHI_CONTINUATION_INDENT_SIZE"
      fun n style => { style with continuationSize := n.getD style.continuationSize },
    number "tab_size" "SIDDHI_TAB_SIZE"
      fun n style => { style with tabSize := n.getD style.tabSize },
    flag "use_tab_character" "SIDDHI_USE_TAB_CHARACTER"
      fun b style => { style with useTabs := b.getD style.useTabs },
    flag "block_comment_at_first_column" "SIDDHI_BLOCK_COMMENT_AT_FIRST_COLUMN"
      fun b style => { style with blockCommentsFirst := b.getD style.blockCommentsFirst },
    flag "line_comment_at_first_column" "SIDDHI_LINE_COMMENT_AT_FIRST_COLUMN"
      fun b style => { style with lineCommentsFirst := b.getD style.lineCommentsFirst }]

end Setting

/-- The configuration that the surroundings give. -/
def Config.load (env : Surroundings) : Except Error Config := do
  return ⟨← Setting.applyAll env {} Setting.all⟩

end SiddhiEditor
