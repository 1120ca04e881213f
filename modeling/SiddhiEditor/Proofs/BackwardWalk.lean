import Mathlib.Order.Bounds.Basic
import SiddhiEditor.Proofs.Construction
import SiddhiEditor.Proofs.VisibleLeaves

/-!
# The walk to the visible leaf before a node

The visible leaf before a node is looked for along the links of the tree.  The walk
goes from sibling to sibling, searches each of their subtrees from the right, and
goes on from the parent when there is no sibling left.  `WalksBack` and `Descends`
say this step by step, with a rule for each thing that the walk may meet.  A
derivation is a run that has come to its end.

*The search of a subtree.*  The nodes that are still to be looked at are on a stack,
the rightmost on top.  A node that is not visible is replaced by its children.  They
come later in the table, so the search ends, and it finds the last visible leaf
(`descends_iff`).

*The walk.*  Siblings and parents come earlier in the table, so the walk ends, too.
It has one answer from every node, and this is `prevVisible?` (`walksBack_iff`).

The answer can be said without the tree.  It is the greatest visible leaf before the
node.
-/

namespace SiddhiEditor

namespace Tree

variable {t : Tree} {x y s p : Nat} {stack : List Nat} {leaf? : Option Nat}

/-- The search through the nodes of a stack ends with this leaf, or with none. -/
inductive Descends (t : Tree) : List NodeId → Option NodeId → Prop where
  | done : Descends t [] none
  | found {x : NodeId} {rest : List NodeId} :
    t.isVisible x = true → Descends t (x :: rest) (some x)
  | down {x : NodeId} {rest : List NodeId} {leaf? : Option NodeId} :
    t.isVisible x = false → Descends t ((t.children x).reverse ++ rest) leaf? →
      Descends t (x :: rest) leaf?

/-- The walk back from a node ends with this leaf, or with none. -/
inductive WalksBack (t : Tree) : NodeId → Option NodeId → Prop where
  | found {x s leaf : NodeId} :
    t.prevSibling? x = some s → Descends t [s] (some leaf) → WalksBack t x (some leaf)
  | sibling {x s : NodeId} {leaf? : Option NodeId} :
    t.prevSibling? x = some s → Descends t [s] none → WalksBack t s leaf? → WalksBack t x leaf?
  | climb {x p : NodeId} {leaf? : Option NodeId} :
    t.prevSibling? x = none → t.parent? x = some p → WalksBack t p leaf? → WalksBack t x leaf?
  | top {x : NodeId} : t.prevSibling? x = none → t.parent? x = none → WalksBack t x none

namespace WellFormed

variable (wf : t.WellFormed)

include wf

/-! ## Searching a subtree from the right -/

/-- The last visible leaf of a node that is not visible is the last one of its last
child that has any. -/
theorem lastVisible?_of_not_visible (h : t.isVisible x = false) :
    t.lastVisible? x = (t.children x).reverse.findSome? t.lastVisible? := by
  rw [lastVisible?, wf.subtree_eq, List.reverse_cons, List.find?_append,
    List.find?_cons_of_neg (by simp [h]), List.find?_nil, Option.or_none, List.reverse_flatMap,
    List.find?_flatMap]
  rfl

theorem lastVisible?_of_visible (h : t.isVisible x = true) : t.lastVisible? x = some x := by
  rw [lastVisible?, wf.subtree_of_isLeaf (isLeaf_of_isVisible h)]
  simp [h]

/-- The walk down from a stack finds the last visible leaf of the first node that has
one. -/
theorem eq_of_descends (h : t.Descends stack leaf?) : leaf? = stack.findSome? t.lastVisible? := by
  induction h with
  | done => rfl
  | found hvis => rw [List.findSome?_cons, wf.lastVisible?_of_visible hvis]
  | down hvis _ ih =>
    rw [ih, List.findSome?_append, ← wf.lastVisible?_of_not_visible hvis, findSome?_cons_eq_or]

/-- A node more on the stack.  The induction is on the rows behind the node, because
the children of a node come later in the table. -/
theorem descends_cons (h : t.Descends stack leaf?) (x : NodeId) :
    t.Descends (x :: stack) ((t.lastVisible? x).or leaf?) := by
  induction hn : t.size - x using Nat.strong_induction_on generalizing x stack leaf? with
  | h n ih =>
    cases hvis : t.isVisible x with
    | true =>
      rw [wf.lastVisible?_of_visible hvis]
      exact .found hvis
    | false =>
      rw [wf.lastVisible?_of_not_visible hvis]
      refine .down hvis ?_
      have hchildren : ∀ c ∈ (t.children x).reverse, t.size - c < n := by
        intro c hc
        have hp := wf.mem_children.mp (List.mem_reverse.mp hc)
        have hlt := wf.parent_lt hp
        have hsize := lt_size_of_parent? hp
        omega
      generalize (t.children x).reverse = cs at hchildren
      induction cs with
      | nil => exact h
      | cons c cs ihcs =>
        rw [List.forall_mem_cons] at hchildren
        have hrest := ih _ hchildren.1 (ihcs hchildren.2) c rfl
        rw [findSome?_cons_eq_or, Option.or_assoc]
        exact hrest

theorem descends_iff : t.Descends stack leaf? ↔ leaf? = stack.findSome? t.lastVisible? := by
  constructor
  · exact wf.eq_of_descends
  · intro h
    subst h
    induction stack with
    | nil => exact .done
    | cons x stack ih =>
      rw [findSome?_cons_eq_or]
      exact wf.descends_cons ih x

theorem descends_singleton_iff : t.Descends [x] leaf? ↔ leaf? = t.lastVisible? x := by
  rw [wf.descends_iff, findSome?_cons_eq_or, List.findSome?_nil, Option.or_none]

/-! ## The walk -/

theorem siblingsBefore_of_prevSibling? (h : t.prevSibling? x = some s) :
    t.siblingsBefore x = s :: t.siblingsBefore s := by
  obtain ⟨hlt, p, hs, hx, hbetween⟩ := wf.prevSibling?_eq_some_iff.mp h
  have hreverse : (t.siblingsBefore x).reverse = (t.siblingsBefore s).reverse ++ [s] := by
    apply eq_of_increasing wf.siblingsBefore_reverse_increasing
    · rw [List.pairwise_append]
      refine ⟨wf.siblingsBefore_reverse_increasing, List.pairwise_singleton _ _, ?_⟩
      intro y hy z hz
      rw [List.mem_singleton.mp hz]
      exact ((wf.mem_siblingsBefore hs).mp (List.mem_reverse.mp hy)).1
    · intro y
      rw [List.mem_append, List.mem_reverse, List.mem_reverse, List.mem_singleton,
        wf.mem_siblingsBefore hx, wf.mem_siblingsBefore hs]
      constructor
      · intro hy
        rcases Nat.lt_trichotomy y s with hys | rfl | hsy
        · exact .inl ⟨hys, hy.2⟩
        · exact .inr rfl
        · exact absurd hy.2 (hbetween y hsy hy.1)
      · intro hy
        rcases hy with hy | rfl
        · exact ⟨Nat.lt_trans hy.1 hlt, hy.2⟩
        · exact ⟨hlt, hs⟩
  rw [← List.reverse_inj, hreverse, List.reverse_cons]

/-- The leaf before a node is in the sibling before it, or before this sibling. -/
theorem prevVisible?_of_prevSibling? (h : t.prevSibling? x = some s) :
    t.prevVisible? x = (t.lastVisible? s).or (t.prevVisible? s) := by
  obtain ⟨-, p, hs, hx, -⟩ := wf.prevSibling?_eq_some_iff.mp h
  rw [wf.prevVisible?_of_parent? hx, wf.prevVisible?_of_parent? hs,
    wf.siblingsBefore_of_prevSibling? h, findSome?_cons_eq_or, Option.or_assoc]

/-- The leaf before a first child is the one before its parent. -/
theorem prevVisible?_of_prevSibling?_eq_none (h : t.prevSibling? x = none)
    (hp : t.parent? x = some p) : t.prevVisible? x = t.prevVisible? p := by
  rw [wf.prevSibling?_eq_head?] at h
  rw [wf.prevVisible?_of_parent? hp, List.head?_eq_none_iff.mp h]
  rfl

/-- The walk has one result only. -/
theorem eq_of_walksBack (h : t.WalksBack x leaf?) : leaf? = t.prevVisible? x := by
  induction h with
  | found hs hleaf =>
    rw [wf.prevVisible?_of_prevSibling? hs, ← wf.descends_singleton_iff.mp hleaf]
    rfl
  | sibling hs hnone _ ih =>
    rw [wf.prevVisible?_of_prevSibling? hs, ← wf.descends_singleton_iff.mp hnone]
    exact ih
  | climb hs hp _ ih => rw [wf.prevVisible?_of_prevSibling?_eq_none hs hp, ih]
  | top _ hp => rw [prevVisible?_of_parent?_eq_none hp]

/-- The walk ends, because every step goes to a row before. -/
theorem walksBack_prevVisible? (x : NodeId) : t.WalksBack x (t.prevVisible? x) := by
  induction x using Nat.strong_induction_on with
  | h x ih =>
    cases hs : t.prevSibling? x with
    | some s =>
      have hlt := (wf.prevSibling?_eq_some_iff.mp hs).1
      rw [wf.prevVisible?_of_prevSibling? hs]
      cases hleaf : t.lastVisible? s with
      | some leaf => exact .found hs (wf.descends_singleton_iff.mpr hleaf.symm)
      | none => exact .sibling hs (wf.descends_singleton_iff.mpr hleaf.symm) (ih s hlt)
    | none =>
      cases hp : t.parent? x with
      | some p =>
        rw [wf.prevVisible?_of_prevSibling?_eq_none hs hp]
        exact .climb hs hp (ih p (wf.parent_lt hp))
      | none =>
        rw [prevVisible?_of_parent?_eq_none hp]
        exact .top hs hp

/-- The walk finds the visible leaf before a node. -/
theorem walksBack_iff : t.WalksBack x leaf? ↔ leaf? = t.prevVisible? x := by
  constructor
  · exact wf.eq_of_walksBack
  · intro h
    rw [h]
    exact wf.walksBack_prevVisible? x

end WellFormed

/-! ## The greatest visible leaf before a node -/

/-- The leaves before a node that are neither blank runs nor comments. -/
def visibleBefore (t : Tree) (x : NodeId) : Set NodeId :=
  {y | y ∈ t.leaves ∧ y < x ∧
    ∃ tok, t.token? y = some tok ∧ tok.kind ∉ [.whitespace, .lineComment, .blockComment]}

namespace WellFormed

variable (wf : t.WellFormed)

include wf

theorem mem_visibleBefore : y ∈ t.visibleBefore x ↔ y < x ∧ t.isVisible y = true := by
  have hkinds : ∀ tok : Token, tok.isVisible = true ↔
      tok.kind ∉ [.whitespace, .lineComment, .blockComment] := by
    intro tok
    rw [Token.isVisible]
    cases tok.kind <;> simp [Kind.isTrivia]
  rw [isVisible_iff]
  simp only [visibleBefore, Set.mem_ofPred_eq, ← Array.mem_toList_iff, wf.mem_leaves, hkinds]
  constructor
  · intro h
    exact h.2
  · intro h
    obtain ⟨hlt, tok, htok, hkind⟩ := h
    exact ⟨isLeaf_iff.mpr ⟨tok, htok⟩, hlt, tok, htok, hkind⟩

/-- The leaf before a node is the greatest visible row before it. -/
theorem precedes_iff_isGreatest : t.Precedes y x ↔ IsGreatest (t.visibleBefore x) y := by
  constructor
  · intro h
    obtain ⟨hlt, hvis, hbetween⟩ := h
    refine ⟨wf.mem_visibleBefore.mpr ⟨hlt, hvis⟩, ?_⟩
    intro z hz
    obtain ⟨hzx, hz⟩ := wf.mem_visibleBefore.mp hz
    by_contra hyz
    rw [hbetween z (Nat.not_le.mp hyz) hzx] at hz
    cases hz
  · intro h
    obtain ⟨hlt, hvis⟩ := wf.mem_visibleBefore.mp h.1
    refine ⟨hlt, hvis, ?_⟩
    intro z hyz hzx
    rw [Bool.eq_false_iff]
    intro hz
    exact Nat.not_le.mpr hyz (h.2 (wf.mem_visibleBefore.mpr ⟨hzx, hz⟩))

end WellFormed

/-- The walk back from a node of a finished tree ends with the greatest visible leaf
before the node, or with none if there is no such leaf. -/
theorem ofSteps_walksBack {steps : List Step} (h : ofSteps steps = .ok t) (hx : x < t.size) :
    (∀ leaf?, t.WalksBack x leaf? ↔ leaf? = t.prevVisible? x) ∧
      (∀ y, t.prevVisible? x = some y ↔ IsGreatest (t.visibleBefore x) y) ∧
      (t.prevVisible? x = none ↔ t.visibleBefore x = ∅) := by
  have wf := (document_of_ofSteps h).toWellFormed
  refine ⟨fun _ => wf.walksBack_iff, ?_, ?_⟩
  · intro y
    rw [wf.prevVisible?_eq_some_iff hx, wf.precedes_iff_isGreatest]
  · rw [wf.prevVisible?_eq_none_iff hx, Set.eq_empty_iff_forall_notMem]
    simp only [wf.mem_visibleBefore, not_and, Bool.not_eq_true]

/-- A node without leaves and one with trivia only, between two words. -/
def emptyNodes : List Step :=
  [.openNode .siddhiApp, .openNode .queryInput, .token .identifier "a", .closeNode,
    .openNode .partition, .text " -- c\n", .closeNode, .openNode .querySection, .closeNode,
    .openNode .queryOutput, .token .identifier "b", .closeNode, .closeNode]

theorem ofSteps_walksBack_emptyNodes :
    ∃ t, ofSteps emptyNodes = .ok t ∧ 9 < t.size ∧ t.parent? 9 = some 8 ∧
      t.WalksBack 9 (some 2) ∧ IsGreatest (t.visibleBefore 9) 2 ∧ t.visibleBefore 2 = ∅ := by
  have h : ofSteps emptyNodes = .ok (Draft.empty.run emptyNodes).tree := rfl
  obtain ⟨hwalk, hgreatest, -⟩ := ofSteps_walksBack (x := 9) h (by decide)
  obtain ⟨-, -, hnone⟩ := ofSteps_walksBack (x := 2) h (by decide)
  exact ⟨_, h, by decide, rfl, (hwalk _).mpr (by decide), (hgreatest 2).mp (by decide),
    hnone.mp (by decide)⟩

end Tree

end SiddhiEditor
