import SiddhiEditor.Proofs.Construction

/-!
# Collecting the nodes of a rule

The nodes of a rule below a node are collected with a stack of nodes that are still
to be visited.  A visit takes the top of the stack, keeps it if it has the rule, and
pushes its children from the last to the first, so that the first child is visited
next.  `Search.visit` is one visit and `searchAfter` a number of them.

The invariant is about the subtrees of the nodes on the stack.  One behind the other
they are the part of the pre-order that has not been visited (`flatMap_searchAfter`),
because a subtree is its node and the subtrees of the children.  So every visit takes
the next node of the pre-order, each node is visited once, and the stack is empty when
the subtree has been gone through.

The nodes that a subtree consists of are those that have its top as an ancestor, so
the links downwards and upwards describe the same tree.
-/

namespace SiddhiEditor

namespace Tree

/-- The state of a search. -/
structure Search where
  /-- The nodes that are still to be visited, the next one first. -/
  stack : List NodeId
  /-- The nodes that have been kept, in the order of the visits. -/
  kept : List NodeId

/-- Pushes nodes one by one. -/
def pushAll (stack : List NodeId) (nodes : List NodeId) : List NodeId :=
  nodes.foldl (fun stack x => x :: stack) stack

/-- Visits the node on top of the stack. -/
def Search.visit (t : Tree) (r : Rule) (s : Search) : Search :=
  match s.stack with
  | [] => s
  | x :: rest =>
    { stack := pushAll rest (t.children x).reverse
      kept := if t.hasRule r x then s.kept ++ [x] else s.kept }

/-- The search for the rule `r` from the node `x` after a number of visits. -/
def searchAfter (t : Tree) (r : Rule) (x : NodeId) : (visits : Nat) → Search
  | 0 => ⟨[x], []⟩
  | visits + 1 => (t.searchAfter r x visits).visit t r

variable {t : Tree} {r : Rule} {x : Nat}

theorem pushAll_reverse (stack nodes : List Nat) :
    pushAll stack nodes.reverse = nodes ++ stack := by
  simp [pushAll]

theorem subtree_ne_nil : t.subtree x ≠ [] := List.cons_ne_nil _ _

/-- A visit keeps the first unvisited node of the pre-order if it has the rule. -/
theorem kept_visit (s : Search) :
    (s.visit t r).kept =
      s.kept ++ ((s.stack.flatMap t.subtree).take 1).filter (t.hasRule r) := by
  obtain ⟨stack, kept⟩ := s
  cases stack with
  | nil => simp [Search.visit]
  | cons x rest =>
    have hfirst : ((x :: rest).flatMap t.subtree).take 1 = [x] := rfl
    rw [hfirst, Search.visit]
    cases h : t.hasRule r x <;> simp [h]

namespace WellFormed

variable (wf : t.WellFormed)

include wf

/-- A visit takes the first node off the unvisited part of the pre-order. -/
theorem flatMap_visit (s : Search) :
    (s.visit t r).stack.flatMap t.subtree = (s.stack.flatMap t.subtree).tail := by
  obtain ⟨stack, kept⟩ := s
  cases stack with
  | nil => rfl
  | cons x rest =>
    show (pushAll rest (t.children x).reverse).flatMap t.subtree = _
    rw [pushAll_reverse, List.flatMap_append, List.flatMap_cons, wf.subtree_eq]
    rfl

/-- The subtrees of the nodes on the stack are what has not been visited. -/
theorem flatMap_searchAfter (visits : Nat) :
    (t.searchAfter r x visits).stack.flatMap t.subtree = (t.subtree x).drop visits := by
  induction visits with
  | zero => simp [searchAfter]
  | succ visits ih => rw [searchAfter, wf.flatMap_visit, ih, List.tail_drop]

/-- The nodes that have been visited are kept if they have the rule. -/
theorem kept_searchAfter (visits : Nat) :
    (t.searchAfter r x visits).kept = ((t.subtree x).take visits).filter (t.hasRule r) := by
  induction visits with
  | zero => simp [searchAfter]
  | succ visits ih =>
    rw [searchAfter, kept_visit, ih, wf.flatMap_searchAfter, ← List.filter_append,
      ← List.take_add]

/-- The stack is empty when all nodes of the subtree have been visited, and not
before. -/
theorem stack_searchAfter_eq_nil_iff (visits : Nat) :
    (t.searchAfter r x visits).stack = [] ↔ (t.subtree x).length ≤ visits := by
  rw [← List.drop_eq_nil_iff, ← wf.flatMap_searchAfter (r := r), List.flatMap_eq_nil_iff]
  constructor
  · intro h y hy
    rw [h] at hy
    cases hy
  · intro h
    rw [List.eq_nil_iff_forall_not_mem]
    intro y hy
    exact subtree_ne_nil (h y hy)

theorem searchAfter_length :
    t.searchAfter r x (t.subtree x).length = ⟨[], t.descendants r x⟩ := by
  have hstack := (wf.stack_searchAfter_eq_nil_iff (r := r) (x := x) _).mpr (Nat.le_refl _)
  have hkept := wf.kept_searchAfter (r := r) (x := x) (t.subtree x).length
  rw [List.take_length] at hkept
  rw [← hstack, descendants, ← hkept]

theorem mem_descendants_iff {y : Nat} :
    y ∈ t.descendants r x ↔ t.rule? y = some r ∧ (y = x ∨ x ∈ t.ancestors y) := by
  rw [descendants, List.mem_filter, wf.mem_subtree_iff, hasRule, beq_iff_eq, and_comm]

end WellFormed

/-- In a finished tree the search with a stack comes to an end.  It has then kept, in
increasing order, the nodes of the rule that are `x` or have `x` as an ancestor. -/
theorem ofSteps_descendants {steps : List Step} (h : ofSteps steps = .ok t) (r : Rule)
    (x : NodeId) :
    (∃ visits, t.searchAfter r x visits = ⟨[], t.descendants r x⟩ ∧
        ∀ n < visits, (t.searchAfter r x n).stack ≠ []) ∧
      (t.descendants r x).Pairwise (· < ·) ∧
      ∀ y, y ∈ t.descendants r x ↔ t.rule? y = some r ∧ (y = x ∨ x ∈ t.ancestors y) := by
  have wf := (document_of_ofSteps h).toWellFormed
  refine ⟨⟨(t.subtree x).length, wf.searchAfter_length, ?_⟩, descendants_increasing, ?_⟩
  · intro n hn hstack
    rw [wf.stack_searchAfter_eq_nil_iff] at hstack
    omega
  · intro y
    exact wf.mem_descendants_iff

/-- A query inside of a query, and one behind them in a partition. -/
def nestedQueries : List Step :=
  [.openNode .siddhiApp, .openNode .query, .text "a", .openNode .query, .closeNode, .closeNode,
    .openNode .partition, .openNode .query, .text "b", .closeNode, .closeNode, .closeNode]

theorem ofSteps_descendants_nestedQueries :
    ∃ t, ofSteps nestedQueries = .ok t ∧ t.descendants .query root = [1, 3, 5] ∧
      (∃ visits, t.searchAfter .query 1 visits = ⟨[], [1, 3]⟩) ∧ 1 ∈ t.ancestors 3 ∧
      1 ∉ t.ancestors 5 := by
  have h : ofSteps nestedQueries = .ok (Draft.empty.run nestedQueries).tree := rfl
  obtain ⟨⟨visits, hend, -⟩, -, hmem⟩ := ofSteps_descendants h .query 1
  have hnested : 3 = 1 ∨ 1 ∈ (Draft.empty.run nestedQueries).tree.ancestors 3 :=
    ((hmem 3).mp (by decide)).2
  refine ⟨_, h, rfl, ⟨visits, hend⟩, hnested.resolve_left (by decide), ?_⟩
  intro hbelow
  exact absurd ((hmem 5).mpr ⟨rfl, .inr hbelow⟩) (by decide)

end Tree

end SiddhiEditor
