import SiddhiEditor.Rule
import SiddhiEditor.Text.Quoted

/-!
# Errors

A tree under construction refuses a step for one of the reasons of
`BuildFault`.  A question about a finished tree fails when a node that should be
a token is an interior node.  Settings fail when a value cannot be read.  A
completion clause that a caller supplies may fail in any of these ways, with a
reason of its own.  The wording of every message is in this module.
-/

namespace SiddhiEditor

/-- Why a tree under construction refuses a step. -/
inductive BuildFault where
  /-- A node is closed while none is open. -/
  | nothingOpen
  /-- A token arrives while no node is open. -/
  | tokenOutside (text : String) (offset : Nat)
  /-- The tree is finished while nodes are open. -/
  | leftOpen (count innermost : Nat) (rule : Option Rule)
  /-- The tree is finished without any node. -/
  | noRoot
  /-- A reason given by a caller. -/
  | stated (reason : String)
  deriving DecidableEq, Repr

namespace BuildFault

/-- The rule of the innermost open node, as the message shows it. -/
def shownRule : Option Rule → String
  | some r => s!"Some({r.name})"
  | none => "None"

/-- The reason in words. -/
def reason : BuildFault → String
  | nothingOpen => "finish_node without an open node"
  | tokenOutside text offset => s!"token {Text.quoted text} at offset {offset} outside any node"
  | leftOpen count innermost rule =>
    s!"{count} node(s) left open, innermost #{innermost} ({shownRule rule})"
  | noRoot => "no root node"
  | stated reason => reason

end BuildFault

/-- Why a question has no answer. -/
inductive Error where
  /-- The node is an interior node, and a token was expected. -/
  | interiorNode (node : Nat) (rule : Rule)
  /-- A step of construction was refused. -/
  | build (fault : BuildFault)
  /-- A setting cannot be read. -/
  | config (reason : String)
  deriving DecidableEq, Repr

/-- The message of an error. -/
def Error.message : Error → String
  | interiorNode node rule =>
    s!"Malformed tree: node #{node} is a {rule.name} node, expected a token"
  | build fault => s!"Tree builder error: {fault.reason}"
  | config reason => s!"Configuration error: {reason}"

end SiddhiEditor
