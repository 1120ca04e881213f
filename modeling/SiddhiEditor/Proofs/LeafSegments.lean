import SiddhiEditor.Proofs.BackwardWalk

/-!
# The leaves below a node

The leaves at or below a node stand next to each other in the list of leaves, because
a subtree is a segment of the table (`exists_range_subtree`).  `LeafSegment` says what
follows for one node.  The first leaf and the first and last visible leaf are those of
the segment, and the text of the node is the part of the document that the segment
covers.

Leaves, first leaves and visible leaves are also what recursions over the tree compute.
A leaf has an answer of its own, and the answer of an interior node is put together
from the answers of its children (`Recursion`).  Children come later in the table than
their parent, so such a recursion has one solution (`Recursion.unique`).
-/

namespace SiddhiEditor

/-- `part` is what stands in `source` from the byte `start` up to the byte `stop`. -/
def Text.IsSlice (source : String) (start stop : Nat) (part : String) : Prop :=
  ∃ before behind, source = before ++ part ++ behind ∧ before.utf8ByteSize = start ∧
    (before ++ part).utf8ByteSize = stop

namespace Tiles

variable {a b : Nat} {toks : List Token} {tok : Token}

theorem start_eq_of_head? (h : Tiles a toks b) (hfirst : toks.head? = some tok) :
    tok.start = a := by
  obtain ⟨rest, rfl⟩ := List.head?_eq_some_iff.mp hfirst
  exact h.1

theorem stop_eq_of_getLast? (h : Tiles a toks b) (hlast : toks.getLast? = some tok) :
    tok.stop = b := by
  obtain ⟨before, rfl⟩ := List.getLast?_eq_some_iff.mp hlast
  obtain ⟨m, -, hstart, hstop⟩ := append_iff.mp h
  exact hstop

end Tiles

namespace Tree

variable {t : Tree} {x : Nat} {β : Type}

/-! ## Recursions over the tree -/

/-- `f` has the answer `leaf` at the leaves and puts the answers of the children
together by `node` at the interior nodes. -/
def Recursion (t : Tree) (leaf : NodeId → β) (node : List β → β) (f : NodeId → β) : Prop :=
  ∀ x, f x = if t.isLeaf x then leaf x else node ((t.children x).map f)

/-- A recursion has one solution, because the children of a node come later in the
table than the node. -/
theorem WellFormed.recursion_unique (wf : t.WellFormed) {leaf : NodeId → β} {node : List β → β}
    {f g : NodeId → β}
    (hf : t.Recursion leaf node f) (hg : t.Recursion leaf node g) : f = g := by
  funext x
  induction hn : t.size - x using Nat.strong_induction_on generalizing x with
  | h n ih =>
    have hchildren : (t.children x).map f = (t.children x).map g := by
      refine List.map_congr_left fun c hc => ?_
      have hp := wf.mem_children.mp hc
      have hlt := wf.parent_lt hp
      have hsize := lt_size_of_parent? hp
      exact ih (t.size - c) (by omega) c rfl
    rw [hf x, hg x, hchildren]

/-- A recursion over a tree has one solution. -/
theorem WellFormed.recursion_iff (wf : t.WellFormed) {leaf : NodeId → β} {node : List β → β}
    {f g : NodeId → β}
    (hg : t.Recursion leaf node g) : t.Recursion leaf node f ↔ f = g := by
  constructor
  · intro hf
    exact wf.recursion_unique hf hg
  · rintro rfl
    exact hg

namespace WellFormed

variable (wf : t.WellFormed)

include wf

/-- The leaves of a node are those of its children, one after the other. -/
theorem recursion_leavesOf : t.Recursion (fun x => [x]) List.flatten t.leavesOf := by
  intro x
  rw [leavesOf]
  cases h : t.isLeaf x with
  | true => simp [wf.subtree_of_isLeaf h, h]
  | false =>
    rw [wf.subtree_eq, List.filter_cons_of_neg (by simp [h]), List.filter_flatMap]
    rfl

/-- A search from the left that can only find leaves. -/
theorem recursion_find? {q : NodeId → Bool} (hq : ∀ x, t.isLeaf x = false → q x = false) :
    t.Recursion (Option.guard q) (List.findSome? id) fun x => (t.subtree x).find? q := by
  intro x
  show (t.subtree x).find? q = _
  cases h : t.isLeaf x with
  | true =>
    rw [wf.subtree_of_isLeaf h, List.find?_singleton]
    rfl
  | false =>
    rw [wf.subtree_eq, List.find?_cons_of_neg (by simp [hq x h]), List.find?_flatMap,
      List.findSome?_map]
    rfl

theorem recursion_firstLeaf? : t.Recursion some (List.findSome? id) t.firstLeaf? := by
  intro x
  cases h : t.isLeaf x with
  | true => simp [firstLeaf?, wf.subtree_of_isLeaf h, h]
  | false =>
    have hfind := wf.recursion_find? (q := t.isLeaf) (fun _ h => h) x
    rw [h] at hfind
    exact hfind

/-- The last visible leaf is that of the last child that has one. -/
theorem recursion_lastVisible? :
    t.Recursion (Option.guard t.isVisible) (fun found => found.reverse.findSome? id)
      t.lastVisible? := by
  intro x
  cases h : t.isLeaf x with
  | true =>
    rw [lastVisible?, wf.subtree_of_isLeaf h, List.reverse_singleton, List.find?_singleton]
    rfl
  | false =>
    show _ = ((t.children x).map t.lastVisible?).reverse.findSome? id
    rw [wf.lastVisible?_of_not_visible (isVisible_eq_false_of_isLeaf h), ← List.map_reverse,
      List.findSome?_map]
    rfl

end WellFormed

/-- The recursions that find the leaves below a node. -/
structure LeafRecursions (t : Tree) : Prop where
  /-- The leaves of an interior node are those of its children, one after the other. -/
  leaves : ∀ f, t.Recursion (fun x => [x]) List.flatten f ↔ f = t.leavesOf
  /-- The first leaf is that of the first child that has one. -/
  first : ∀ f, t.Recursion some (List.findSome? id) f ↔ f = t.firstLeaf?
  /-- The first visible leaf is that of the first child that has one. -/
  firstVisible : ∀ f, t.Recursion (Option.guard t.isVisible) (List.findSome? id) f ↔
    f = t.firstVisible?
  /-- The last visible leaf is that of the last child that has one. -/
  lastVisible : ∀ f, t.Recursion (Option.guard t.isVisible)
    (fun found => found.reverse.findSome? id) f ↔ f = t.lastVisible?

/-! ## The segment of a node -/

/-- The leaves at or below `x` as a segment of the leaves of the document. -/
structure LeafSegment (t : Tree) (x : NodeId) : Prop where
  /-- The leaves stand next to each other. -/
  segment : t.leavesOf x <:+: t.leaves.toList
  /-- They are the leaf `x` or the leaves that have `x` as an ancestor. -/
  mem_iff : ∀ l, l ∈ t.leavesOf x ↔ l ∈ t.leaves ∧ (l = x ∨ x ∈ t.ancestors l)
  /-- The first leaf is the first of the segment. -/
  first : t.firstLeaf? x = (t.leavesOf x).head?
  /-- The first visible leaf is the first visible one of the segment. -/
  firstVisible : t.firstVisible? x = ((t.leavesOf x).filter t.isVisible).head?
  /-- The last visible leaf is the last visible one of the segment. -/
  lastVisible : t.lastVisible? x = ((t.leavesOf x).filter t.isVisible).getLast?
  /-- There is no text without leaves. -/
  text_empty : t.leavesOf x = [] → t.text x = ""
  /-- The text goes from the start of the first leaf to the end of the last. -/
  text_slice : ∀ first last tok tok', (t.leavesOf x).head? = some first →
    (t.leavesOf x).getLast? = some last → t.token? first = some tok → t.token? last = some tok' →
    Text.IsSlice t.source tok.start tok'.stop (t.text x)

theorem filter_leavesOf : (t.leavesOf x).filter t.isVisible = (t.subtree x).filter t.isVisible := by
  rw [leavesOf, List.filter_filter]
  refine List.filter_congr fun y _ => ?_
  cases h : t.isVisible y with
  | true => simp [isLeaf_of_isVisible h]
  | false => rfl

/-- The tokens of a subtree are those of its leaves. -/
theorem filterMap_leavesOf :
    (t.leavesOf x).filterMap t.token? = (t.subtree x).filterMap t.token? := by
  rw [leavesOf, List.filterMap_filter]
  refine List.filterMap_congr fun y _ => ?_
  cases h : t.token? y <;> simp [isLeaf, h]

/-- The text of a node is that of its leaves. -/
theorem text_eq_join :
    t.text x = String.join (((t.leavesOf x).filterMap t.token?).map (·.text)) := by
  rw [text, filterMap_leavesOf, List.map_filterMap]

theorem leavesOf_of_size_le (h : t.size ≤ x) : t.leavesOf x = [] := by
  rw [List.eq_nil_iff_forall_not_mem]
  intro l hl
  obtain ⟨hcov, hleaf⟩ := List.mem_filter.mp hl
  obtain ⟨tok, htok⟩ := isLeaf_iff.mp hleaf
  have hlt := lt_size_of_token? htok
  have hle := (mem_subtree.mp hcov).1
  omega

namespace WellFormed

variable (wf : t.WellFormed)

include wf

/-- The leaves of a node lie side by side in the document. -/
theorem leavesOf_infix : t.leavesOf x <:+: t.leaves.toList := by
  rcases Nat.lt_or_ge x t.size with hlt | hge
  · obtain ⟨behind, hrange⟩ := exists_range_subtree hlt
    have hinfix : t.subtree x <:+: List.range t.size := ⟨_, _, hrange.symm⟩
    rw [wf.leaves_eq]
    exact hinfix.filter t.isLeaf
  · rw [leavesOf_of_size_le hge]
    exact List.nil_infix

/-- The leaves of a node are the leaves below it, or the node itself. -/
theorem mem_leavesOf {l : Nat} :
    l ∈ t.leavesOf x ↔ l ∈ t.leaves ∧ (l = x ∨ x ∈ t.ancestors l) := by
  have hleaf : l ∈ t.leaves ↔ t.isLeaf l = true := by rw [← Array.mem_toList_iff, wf.mem_leaves]
  rw [leavesOf, List.mem_filter, wf.mem_subtree_iff, hleaf, and_comm]

end WellFormed

/-- The text of a node is the slice from its first leaf to its last one. -/
theorem Document.isSlice_text (doc : t.Document) {first last : Nat} {tok tok' : Token}
    (hfirst : (t.leavesOf x).head? = some first) (hlast : (t.leavesOf x).getLast? = some last)
    (htok : t.token? first = some tok) (htok' : t.token? last = some tok') :
    Text.IsSlice t.source tok.start tok'.stop (t.text x) := by
  obtain ⟨before, behind, hleaves⟩ := doc.leavesOf_infix (x := x)
  have htiled := doc.tiled
  rw [tokens, ← hleaves, List.filterMap_append, List.filterMap_append, Tiles.append_iff] at htiled
  obtain ⟨stop, htiled, -⟩ := htiled
  obtain ⟨start, hbefore, hpart⟩ := Tiles.append_iff.mp htiled
  have hstart : tok.start = start := by
    apply hpart.start_eq_of_head?
    obtain ⟨rest, hrest⟩ := List.head?_eq_some_iff.mp hfirst
    rw [hrest, List.filterMap_cons_some htok, List.head?_cons]
  have hstop : tok'.stop = stop := by
    apply hpart.stop_eq_of_getLast?
    obtain ⟨rest, hrest⟩ := List.getLast?_eq_some_iff.mp hlast
    rw [hrest, List.filterMap_append, List.filterMap_cons_some htok', List.filterMap_nil,
      List.getLast?_concat]
  refine ⟨String.join ((before.filterMap t.token?).map (·.text)),
    String.join ((behind.filterMap t.token?).map (·.text)), ?_, ?_, ?_⟩
  · rw [doc.source_eq, tokens, ← hleaves, text_eq_join]
    simp only [List.filterMap_append, List.map_append, String.join_append]
  · rw [hstart, hbefore.stop_eq, Nat.zero_add]
  · rw [hstop, htiled.stop_eq, Nat.zero_add, text_eq_join, List.map_append, String.join_append]

theorem Document.leafSegment (doc : t.Document) (x : NodeId) : t.LeafSegment x where
  segment := doc.leavesOf_infix
  mem_iff _ := doc.mem_leavesOf
  first := List.head?_filter.symm
  firstVisible := by rw [filter_leavesOf, List.head?_filter, firstVisible?]
  lastVisible := by rw [filter_leavesOf, List.getLast?_filter, lastVisible?]
  text_empty h := by
    rw [text_eq_join, h]
    rfl
  text_slice _ _ _ _ := doc.isSlice_text

theorem WellFormed.leafRecursions (wf : t.WellFormed) : t.LeafRecursions where
  leaves _ := wf.recursion_iff wf.recursion_leavesOf
  first _ := wf.recursion_iff wf.recursion_firstLeaf?
  firstVisible _ := wf.recursion_iff (wf.recursion_find? fun _ => isVisible_eq_false_of_isLeaf)
  lastVisible _ := wf.recursion_iff wf.recursion_lastVisible?

/-- In a finished tree the leaves below every node are a segment of the leaves of the
document, and the recursions over the tree read it off. -/
theorem ofSteps_leafSegments {steps : List Step} (h : ofSteps steps = .ok t) :
    t.LeafRecursions ∧ ∀ x, t.LeafSegment x := by
  have doc := document_of_ofSteps h
  exact ⟨doc.leafRecursions, doc.leafSegment⟩

theorem ofSteps_leafSegments_emptyNodes :
    ∃ t, ofSteps emptyNodes = .ok t ∧ t.leavesOf 3 = [4, 5, 6] ∧ t.leavesOf 3 <:+: [2, 4, 5, 6, 9] ∧
      t.firstVisible? 3 = none ∧ Text.IsSlice t.source 1 7 (t.text 3) ∧ t.text 7 = "" ∧
      t.lastVisible? root = some 9 := by
  have h : ofSteps emptyNodes = .ok (Draft.empty.run emptyNodes).tree := rfl
  obtain ⟨-, hsegment⟩ := ofSteps_leafSegments h
  exact ⟨_, h, rfl, (hsegment 3).segment, (hsegment 3).firstVisible,
    (hsegment 3).text_slice 4 6 _ _ rfl rfl rfl rfl, (hsegment 7).text_empty rfl,
    (hsegment root).lastVisible⟩

end Tree

end SiddhiEditor
