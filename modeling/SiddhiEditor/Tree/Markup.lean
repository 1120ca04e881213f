import SiddhiEditor.Tree.Draft

/-!
# Bracket notation for trees

A tree is written as text with brackets.  An opening brace and a rule name open
a node, a closing brace closes it, and a dollar sign marks the cursor.  All else
is text of the document and goes to the innermost open node.

* A rule name runs up to a space, a closing brace or the end.  One space right
  behind it belongs to the notation and not to the document.
* The text between two items is scanned on its own, so a cursor inside a word
  divides it into two tokens.
* The last cursor counts.  Without one the cursor is at the end of the document.

`items` divides a notation into its items, and `Tree.ofMarkup` carries them out
in order.  It fails at the first item that cannot be carried out.
-/

namespace SiddhiEditor

namespace Markup

/-! ## Items -/

/-- An item of the notation. -/
inductive Item where
  /-- Open a node of the rule with this name. -/
  | opening (name : String)
  /-- Close the innermost open node. -/
  | closing
  /-- Put the cursor here. -/
  | cursor
  /-- Text of the document. -/
  | text (chunk : String)
  deriving DecidableEq, Repr

/-- What the characters being read belong to. -/
inductive Mode where
  /-- The text of the document. -/
  | text
  /-- The name of a rule. -/
  | name
  deriving DecidableEq, Repr

/-- Items behind a run of text, with an item for the run unless it is empty. -/
def withText : List Char × List Item → List Item
  | ([], items) => items
  | (run@(_ :: _), items) => .text (String.ofList run) :: items

/-- The run of characters that a notation starts with in a given mode, and the
items behind it. -/
def split : Mode → List Char → List Char × List Item
  | _, [] => ([], [])
  | .text, c :: cs =>
    if c == '\x7b' then
      let (name, items) := split .name cs
      ([], .opening (String.ofList name) :: items)
    else if c == '\x7d' then ([], .closing :: withText (split .text cs))
    else if c == '$' then ([], .cursor :: withText (split .text cs))
    else
      let (run, items) := split .text cs
      (c :: run, items)
  | .name, c :: cs =>
    if c == ' ' then ([], withText (split .text cs))
    else if c == '\x7d' then ([], .closing :: withText (split .text cs))
    else
      let (run, items) := split .name cs
      (c :: run, items)

/-- The items of a notation. -/
def items (markup : String) : List Item := withText (split .text markup.toList)

/-! ## Carrying the items out -/

/-- Why a notation describes no tree. -/
inductive Fault where
  /-- No rule has this name. -/
  | unknownRule (name : String)
  /-- Text stands outside every node. -/
  | textOutside (cause : BuildFault)
  /-- A node is closed while none is open. -/
  | unbalanced (cause : BuildFault)
  /-- The nodes do not make one tree. -/
  | notOneTree (cause : BuildFault)
  deriving DecidableEq, Repr

/-- A fault of construction, as the messages below show it. -/
def shownCause (cause : BuildFault) : String := s!"Builder({Text.quoted cause.reason})"

/-- The message of a fault. -/
def Fault.message : Fault → String
  | unknownRule name => s!"unknown rule {Text.quoted name} in markup"
  | textOutside cause => s!"markup text outside any node: {shownCause cause}"
  | unbalanced cause => s!"unbalanced markup: {shownCause cause}"
  | notOneTree cause => s!"markup should describe one tree: {shownCause cause}"

/-- What has been carried out so far. -/
structure Progress where
  /-- The tree so far. -/
  draft : Draft
  /-- The last cursor. -/
  cursor : Option Nat
  deriving DecidableEq, Repr

/-- Carries one item out. -/
def carryOut (p : Progress) : Item → Except Fault Progress
  | .opening name =>
    match Rule.ofName? name with
    | some r => .ok { p with draft := p.draft.openNode r }
    | none => .error (.unknownRule name)
  | .closing =>
    match p.draft.closeNode with
    | (draft, none) => .ok { p with draft }
    | (_, some cause) => .error (.unbalanced cause)
  | .cursor => .ok { p with cursor := some p.draft.offset }
  | .text chunk =>
    match p.draft.addText chunk with
    | (draft, none) => .ok { p with draft }
    | (_, some cause) => .error (.textOutside cause)

/-- Carries items out in order. -/
def carryOutAll : Progress → List Item → Except Fault Progress
  | p, [] => .ok p
  | p, item :: rest =>
    match carryOut p item with
    | .ok next => carryOutAll next rest
    | .error fault => .error fault

end Markup

/-- The tree and the cursor that a notation describes. -/
def Tree.ofMarkup (markup : String) : Except Markup.Fault (Tree × Nat) :=
  match Markup.carryOutAll ⟨.empty, none⟩ (Markup.items markup) with
  | .error fault => .error fault
  | .ok progress =>
    match progress.draft.finish with
    | .error cause => .error (.notOneTree cause)
    | .ok tree => .ok (tree, progress.cursor.getD progress.draft.offset)

end SiddhiEditor
