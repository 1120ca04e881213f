import SiddhiEditor.Token.Lexeme
import SiddhiEditor.Tree

/-!
# Trees under construction

A draft grows by steps.  A step opens a node, closes the innermost open node,
adds a token to it, or adds all tokens of a text.  New rows are added behind the
others, under the innermost open node.  When no node is open a new row hangs
under the root, so a document keeps one root whatever comes behind it.  A new row
is also put at the end of its parent's children, and that place is its index.
Tokens are laid end to end from offset 0.

A step may be refused.  Every step leads to a draft, a refused one also leaves a
fault behind, and a run goes on with the next step.  When a text is added, its
tokens go in one by one up to the first that is refused.

`finish` makes a tree of a draft that has a root and no open node.
-/

namespace SiddhiEditor

/-- A tree under construction. -/
structure Draft where
  /-- The rows so far. -/
  nodes : Array Node
  /-- The open nodes, innermost first. -/
  openNodes : List NodeId
  /-- The offset behind the last token. -/
  offset : Nat
  /-- A root has been closed, so rows without an open node hang under it. -/
  rootClosed : Bool
  deriving DecidableEq, Repr

/-- A step of construction. -/
inductive Step where
  /-- Open a node. -/
  | openNode (r : Rule)
  /-- Close the innermost open node. -/
  | closeNode
  /-- Add one token. -/
  | token (kind : Kind) (text : String)
  /-- Add the tokens of a text. -/
  | text (text : String)
  deriving DecidableEq, Repr

namespace Draft

/-- The draft without any node. -/
def empty : Draft := ⟨#[], [], 0, false⟩

/-- The node that the next row hangs under. -/
def anchor (d : Draft) : Option NodeId :=
  match d.openNodes with
  | x :: _ => some x
  | [] => if d.nodes.isEmpty then none else some Tree.root

/-- The place that the next row takes among the children of its parent. -/
def nextIndex (d : Draft) : Nat :=
  match d.anchor with
  | none => 0
  | some p => (d.nodes[p]?.map (·.children.size)).getD 0

/-- The rows, with the next row among the children of its parent. -/
def adopted (d : Draft) : Array Node :=
  match d.anchor with
  | none => d.nodes
  | some p => d.nodes.modify p fun n => { n with children := n.children.push d.nodes.size }

/-- Adds a row. -/
def push (d : Draft) (label : Label) : Draft :=
  { d with nodes := d.adopted.push ⟨label, d.anchor, d.nextIndex, #[]⟩ }

/-- Opens a node. -/
def openNode (d : Draft) (r : Rule) : Draft :=
  { d.push (.rule r) with openNodes := d.nodes.size :: d.openNodes }

/-- Closes the innermost open node. -/
def closeNode (d : Draft) : Draft × Option BuildFault :=
  match d.openNodes with
  | [] => (d, some .nothingOpen)
  | _ :: rest => ({ d with openNodes := rest, rootClosed := d.rootClosed || rest.isEmpty }, none)

/-- Adds one token to the innermost open node. -/
def addToken (d : Draft) (kind : Kind) (text : String) : Draft × Option BuildFault :=
  match d.openNodes with
  | [] => (d, some (.tokenOutside text d.offset))
  | _ :: _ =>
    let token : Token := ⟨kind, text, d.offset⟩
    ({ d.push (.token token) with offset := token.stop }, none)

/-- Adds tokens one by one, up to the first that is refused. -/
def addTokens : Draft → List Token → Draft × Option BuildFault
  | d, [] => (d, none)
  | d, t :: ts =>
    match d.addToken t.kind t.text with
    | (next, none) => next.addTokens ts
    | (next, some fault) => (next, some fault)

/-- Adds the tokens of a text. -/
def addText (d : Draft) (text : String) : Draft × Option BuildFault :=
  d.addTokens (Token.scan text)

/-- The draft after a step, and the fault of a refused step. -/
def step (d : Draft) : Step → Draft × Option BuildFault
  | .openNode r => (d.openNode r, none)
  | .closeNode => d.closeNode
  | .token kind text => d.addToken kind text
  | .text text => d.addText text

/-- The draft after a run of steps. -/
def run (d : Draft) (steps : List Step) : Draft :=
  steps.foldl (fun d s => (d.step s).1) d

/-- The outcome of every step of a run.  It is the offset after the step, or the
fault of a refused step. -/
def outcomes : Draft → List Step → List (Except BuildFault Nat)
  | _, [] => []
  | d, s :: rest =>
    let (next, fault?) := d.step s
    (match fault? with
      | none => .ok next.offset
      | some fault => .error fault) :: next.outcomes rest

/-- The rows that carry a token, in order. -/
def leaves (d : Draft) : Array NodeId :=
  (Array.range d.nodes.size).filter fun x => d.nodes[x]?.any (·.label.token?.isSome)

/-- The tree of a draft with a root and no open node. -/
def finish (d : Draft) : Except BuildFault Tree :=
  match d.openNodes with
  | x :: rest =>
    .error (.leftOpen (rest.length + 1) x (d.nodes[x]?.bind (·.label.rule?)))
  | [] =>
    if d.nodes.isEmpty then .error .noRoot else .ok ⟨d.nodes, d.leaves⟩

end Draft

/-- The tree that a run of steps describes. -/
def Tree.ofSteps (steps : List Step) : Except BuildFault Tree := (Draft.empty.run steps).finish

end SiddhiEditor
