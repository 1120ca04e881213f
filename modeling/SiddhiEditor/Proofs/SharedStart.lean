import SiddhiEditor.Proofs.Alike
import SiddhiEditor.Proofs.Cursor

/-!
# What comes later does not change a context

Two runs start with the same steps and go on differently.  A row keeps what it
carries and what it hangs under (`Draft.cores_run`), so the two trees have the
rows of the common start in common, but for the children that come later.
`Tree.Agree n` says so of the first `n` rows.

A context looks backwards only.  The ways up lead to smaller numbers, and the
visible leaf before a node is the nearest visible row with a smaller number.  So
what a context and its region are made from lies among the first rows, as soon
as the element does (`Context.Within`).  Rows that are added later are out of
reach, and this includes nodes that are opened behind the root and hang under it.
-/

namespace SiddhiEditor

/-- A search depends on its condition for the members of the list only. -/
theorem find?_congr {α : Type} {p q : α → Bool} {xs : List α} (h : ∀ x ∈ xs, p x = q x) :
    xs.find? p = xs.find? q := by
  rw [← List.head?_filter, ← List.head?_filter, List.filter_congr h]

namespace Tree

/-- The first `n` rows of the two trees are the same, but for their children. -/
structure Agree (n : Nat) (t t' : Tree) : Prop where
  /-- The rows of one tree are in pre-order. -/
  wf : t.WellFormed
  /-- The rows of the other tree are in pre-order. -/
  wf' : t'.WellFormed
  /-- One tree has the rows. -/
  le : n ≤ t.size
  /-- The other tree has them. -/
  le' : n ≤ t'.size
  /-- They are the same. -/
  core : ∀ x < n, t'.core? x = t.core? x

namespace Agree

variable {n x y : Nat} {t t' : Tree} (agree : Agree n t t')

include agree

/-! ## Labels -/

/-- A shared row has the same parent in both trees. -/
theorem parent?_eq (hx : x < n) : t'.parent? x = t.parent? x := by
  rw [parent?_eq_bind_core?, parent?_eq_bind_core?, agree.core x hx]

theorem rule?_eq (hx : x < n) : t'.rule? x = t.rule? x := by
  rw [rule?_eq_bind_core?, rule?_eq_bind_core?, agree.core x hx]

theorem token?_eq (hx : x < n) : t'.token? x = t.token? x := by
  rw [token?_eq_bind_core?, token?_eq_bind_core?, agree.core x hx]

theorem hasRule_eq (r : Rule) (hx : x < n) : t'.hasRule r x = t.hasRule r x := by
  rw [hasRule, hasRule, agree.rule?_eq hx]

theorem isVisible_eq (hx : x < n) : t'.isVisible x = t.isVisible x := by
  rw [isVisible, isVisible, agree.token?_eq hx]

theorem kindAt_eq (hx : x < n) : t'.kindAt x = t.kindAt x := by
  rw [kindAt, kindAt, agree.token?_eq hx]

theorem seenAt_eq (hx : x < n) : t'.seenAt x = t.seenAt x := by
  rw [seenAt, seenAt, agree.kindAt_eq hx]

/-! ## Ways up -/

/-- What is above a shared row is shared. -/
theorem ancestors_eq (hx : x < n) : t'.ancestors x = t.ancestors x := by
  induction x using agree.wf.parent_induction with
  | top x hp =>
    have hp' : t'.parent? x = none := by rw [agree.parent?_eq hx, hp]
    rw [WellFormed.ancestors_of_parent?_eq_none hp, WellFormed.ancestors_of_parent?_eq_none hp']
  | below x p hp ih =>
    have hp' : t'.parent? x = some p := by rw [agree.parent?_eq hx, hp]
    have hpx : p < x := agree.wf.parent_lt hp
    rw [agree.wf.ancestors_of_parent? hp, agree.wf'.ancestors_of_parent? hp',
      ih (Nat.lt_trans hpx hx)]

/-- An ancestor of one of the rows is one of the rows. -/
theorem lt_of_mem_ancestors (hx : x < n) (hy : y ∈ t.ancestors x) : y < n :=
  Nat.lt_trans (agree.wf.mem_ancestors_iff.mp hy).1 hx

theorem ancestor?_eq (r : Rule) (hx : x < n) : t'.ancestor? r x = t.ancestor? r x := by
  rw [ancestor?, ancestor?, agree.ancestors_eq hx]
  exact find?_congr fun y hy => agree.hasRule_eq r (agree.lt_of_mem_ancestors hx hy)

theorem isWithin_eq (r : Rule) (hx : x < n) : t'.isWithin r x = t.isWithin r x := by
  rw [isWithin, isWithin, agree.ancestor?_eq r hx]

/-! ## The leaf before -/

/-- The visible leaf before a shared row is the same in both trees. -/
theorem prevVisible?_eq (hx : x < n) : t'.prevVisible? x = t.prevVisible? x := by
  rw [agree.wf.prevVisible?_eq_find? (Nat.lt_of_lt_of_le hx agree.le),
    agree.wf'.prevVisible?_eq_find? (Nat.lt_of_lt_of_le hx agree.le')]
  refine find?_congr fun y hy => ?_
  have hyx : y < x := List.mem_range.mp (List.mem_reverse.mp hy)
  exact agree.isVisible_eq (Nat.lt_trans hyx hx)

/-- This leaf is a shared row, too. -/
theorem lt_of_prevVisible? (hx : x < n) (h : t.prevVisible? x = some y) : y < n := by
  have hlt := Nat.lt_of_lt_of_le hx agree.le
  exact Nat.lt_trans ((agree.wf.prevVisible?_eq_some_iff hlt).mp h).1 hx

theorem seenBefore_eq (hx : x < n) :
    (t'.prevVisible? x).map t'.seenAt = (t.prevVisible? x).map t.seenAt := by
  rw [agree.prevVisible?_eq hx]
  cases hprev : t.prevVisible? x with
  | none => rfl
  | some leaf =>
    rw [Option.map_some, Option.map_some, agree.seenAt_eq (agree.lt_of_prevVisible? hx hprev)]

end Agree

end Tree

/-! ## Contexts -/

/-- The rows that a context names are among the first `n`. -/
structure Context.Within (n : Nat) (c : Context) : Prop where
  element : c.element < n
  prev : c.prev.node < n
  prevPrev : ∀ leaf, c.prevPrev = some leaf → leaf.node < n

namespace Tree.Agree

variable {n x : Nat} {t t' : Tree} {c : Context} (agree : Agree n t t')

include agree

/-- A shared row has the same context in both trees. -/
theorem ofElement_eq (hx : x < n) : Context.ofElement t' x = Context.ofElement t x := by
  rw [Context.ofElement_eq, Context.ofElement_eq, agree.prevVisible?_eq hx]
  cases hprev : t.prevVisible? x with
  | none => rfl
  | some leaf =>
    have hleaf : leaf < n := agree.lt_of_prevVisible? hx hprev
    simp only [Option.map_some, agree.seenAt_eq hleaf, agree.seenBefore_eq hleaf]

/-- A context about one of the rows and a leaf among them names no other rows. -/
theorem within_of_follows {leaf : Nat} (hc : c.element < n) (hleaf : leaf < n)
    (h : c.Follows t leaf) : c.Within n := by
  obtain ⟨hprev, hprevPrev⟩ := h
  refine ⟨hc, by rw [hprev]; exact hleaf, fun before hbefore => ?_⟩
  rw [hprevPrev] at hbefore
  obtain ⟨y, hy, rfl⟩ := Option.map_eq_some_iff.mp hbefore
  exact agree.lt_of_prevVisible? hleaf hy

/-- The context of a shared row is about shared rows only. -/
theorem within_of_ofElement (hx : x < n) (h : Context.ofElement t x = .ok (some c)) :
    c.Within n := by
  rw [Context.ofElement_eq] at h
  obtain ⟨leaf, hleaf, rfl⟩ := Option.map_eq_some_iff.mp (Except.ok.inj h)
  exact agree.within_of_follows hx (agree.lt_of_prevVisible? hx hleaf) ⟨rfl, rfl⟩

/-! ## Regions -/

section Region

variable (hc : c.Within n)

include hc

theorem prevPrevWithin (r : Rule) : c.prevPrevWithin t' r = c.prevPrevWithin t r := by
  rw [Context.prevPrevWithin, Context.prevPrevWithin]
  cases hprev : c.prevPrev with
  | none => rfl
  | some leaf => exact agree.isWithin_eq r (hc.prevPrev leaf hprev)

theorem holders_eq :
    (t'.ancestors c.element).all (fun y => Context.mayHoldStatements (t'.rule? y)) =
      (t.ancestors c.element).all fun y => Context.mayHoldStatements (t.rule? y) := by
  rw [agree.ancestors_eq hc.element, Bool.eq_iff_iff, List.all_eq_true, List.all_eq_true]
  refine forall₂_congr fun y hy => ?_
  rw [agree.rule?_eq (agree.lt_of_mem_ancestors hc.element hy)]

theorem endsInsertedEventType : c.endsInsertedEventType t' = c.endsInsertedEventType t := by
  rw [Context.endsInsertedEventType, Context.endsInsertedEventType, agree.parent?_eq hc.prev]
  cases hp : t.parent? c.prev.node with
  | none => rfl
  | some p =>
    have hpn : p < n := Nat.lt_trans (agree.wf.parent_lt hp) hc.prev
    rw [Option.filter_some, Option.filter_some, agree.hasRule_eq _ hpn]
    split
    · rw [Option.any_some, Option.any_some, agree.prevVisible?_eq hpn]
      cases hprev : t.prevVisible? p with
      | none => rfl
      | some leaf =>
        rw [Option.any_some, Option.any_some,
          agree.kindAt_eq (agree.lt_of_prevVisible? hpn hprev)]
    · rfl

/-- A context that names common rows only looks alike in both trees. -/
theorem alike : Context.Alike t c t' c where
  within r _ := agree.isWithin_eq r hc.element
  holders := agree.holders_eq hc
  kind := rfl
  prevWithin r := agree.isWithin_eq r hc.prev
  prevPrevIs _ := rfl
  prevPrevWithin := agree.prevPrevWithin hc
  eventType := agree.endsInsertedEventType hc

end Region

end Tree.Agree

/-! ## Runs with a common start -/

namespace Tree

variable {first rest rest' : List Step} {t t' : Tree} {x : Nat}

/-- Finished runs with a common start agree on the rows of the start. -/
theorem agree_of_shared_steps (h : ofSteps (first ++ rest) = .ok t)
    (h' : ofSteps (first ++ rest') = .ok t') :
    Agree (Draft.empty.run first).nodes.size t t' := by
  have wf := (document_of_ofSteps h).toWellFormed
  have wf' := (document_of_ofSteps h').toWellFormed
  obtain ⟨-, -, rfl⟩ := ofSteps_eq_ok_iff.mp h
  obtain ⟨-, -, rfl⟩ := ofSteps_eq_ok_iff.mp h'
  have hrows := Draft.cores_run (Draft.empty.run first) rest
  have hrows' := Draft.cores_run (Draft.empty.run first) rest'
  rw [← Draft.run_append] at hrows hrows'
  exact ⟨wf, wf', hrows.1, hrows'.1, fun x hx => (hrows'.2 x hx).trans (hrows.2 x hx).symm⟩

/-- What follows a node never changes how the node is classified.  Let `x` be a
row that the common steps of two finished runs have added, such as the row of the
last of these steps.  Whatever steps follow, `x` has the same context, and the
context has the same region. -/
theorem classify_of_shared_steps (h : ofSteps (first ++ rest) = .ok t)
    (h' : ofSteps (first ++ rest') = .ok t') (hx : x < (Draft.empty.run first).nodes.size) :
    ∃ c?, Context.ofElement t x = .ok c? ∧ Context.ofElement t' x = .ok c? ∧
      ∀ c, c? = some c → ∃ region?, Region.classify t c = .ok region? ∧
        Region.classify t' c = .ok region? := by
  have agree := agree_of_shared_steps h h'
  obtain ⟨c?, hc⟩ : ∃ c?, Context.ofElement t x = .ok c? := ⟨_, Context.ofElement_eq⟩
  refine ⟨c?, hc, (agree.ofElement_eq hx).trans hc, ?_⟩
  rintro c rfl
  refine ⟨Region.of t c, Region.classify_eq, ?_⟩
  rw [Region.classify_eq, (agree.alike (agree.within_of_ofElement hx hc)).region_eq]

/-- A query up to the blank behind the event type of its output. -/
def uptoEventType : List Step :=
  [.openNode .siddhiApp, .openNode .query, .openNode .queryInput, .text "from S ", .closeNode,
    .openNode .queryOutput, .text "insert ", .openNode .outputEventType, .text "all events",
    .closeNode, .token .whitespace " "]

/-- The ends of the nodes that `uptoEventType` leaves open. -/
def plainEnds : List Step := [.closeNode, .closeNode, .closeNode]

/-- More output, the same ends, and a query that is opened behind the root. -/
def lateQuery : List Step :=
  .text "into T;" :: plainEnds ++ [.openNode .query, .text "insert", .closeNode]

theorem classify_of_shared_steps_lateQuery :
    ∃ t t', ofSteps (uptoEventType ++ plainEnds) = .ok t ∧
      ofSteps (uptoEventType ++ lateQuery) = .ok t' ∧ t.size < t'.size ∧
      t.kindAt 14 = .whitespace ∧ 14 < (Draft.empty.run uptoEventType).nodes.size ∧
      ∃ c?, Context.ofElement t 14 = .ok c? ∧ Context.ofElement t' 14 = .ok c? ∧
        ∀ c, c? = some c → ∃ region?, Region.classify t c = .ok region? ∧
          Region.classify t' c = .ok region? :=
  ⟨_, _, rfl, rfl, by decide, by decide, by decide,
    @classify_of_shared_steps uptoEventType plainEnds lateQuery _ _ 14 rfl rfl (by decide)⟩

end Tree

end SiddhiEditor
