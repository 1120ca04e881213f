import SiddhiEditor.Proofs.Tiling

/-!
# Visible leaves

The visible leaf before a node is found by a walk over siblings and ancestors,
and down again into their subtrees.  In a well-formed tree the subtrees of the
siblings before a node, one behind the other, are the rows between its parent
and the node (`flatMap_subtree_siblingsBefore`).  So the walk goes over the rows
before the node in falling order, and what it finds is the nearest visible row
(`prevVisible?_eq_find?`).
-/

namespace SiddhiEditor

theorem findSome?_cons_eq_or {α β : Type} (f : α → Option β) (x : α) (xs : List α) :
    (x :: xs).findSome? f = (f x).or (xs.findSome? f) := by
  rw [List.findSome?_cons]
  cases f x <;> rfl

namespace Tree

variable {t : Tree} {x y p : Nat}

/-- Interior nodes are not visible. -/
theorem isVisible_eq_false_of_rule? {r : Rule} (h : t.rule? x = some r) :
    t.isVisible x = false := by
  rw [isVisible, token?_eq_none_of_rule? h]
  rfl

/-! ## What the searches find is visible -/

theorem isVisible_of_firstVisible? (h : t.firstVisible? x = some y) : t.isVisible y = true :=
  List.find?_some h

theorem isVisible_of_lastVisible? (h : t.lastVisible? x = some y) : t.isVisible y = true :=
  List.find?_some h

theorem isVisible_of_prevVisible? (h : t.prevVisible? x = some y) : t.isVisible y = true := by
  obtain ⟨z, -, hz⟩ := List.exists_of_findSome?_eq_some h
  obtain ⟨s, -, hs⟩ := List.exists_of_findSome?_eq_some hz
  exact isVisible_of_lastVisible? hs

/-- There is nothing before a node without a parent. -/
theorem prevVisible?_of_parent?_eq_none (h : t.parent? x = none) : t.prevVisible? x = none := by
  rw [prevVisible?, WellFormed.ancestors_of_parent?_eq_none h]
  simp [siblingsBefore, h]

theorem prevVisible?_of_size_le (h : t.size ≤ x) : t.prevVisible? x = none := by
  refine prevVisible?_of_parent?_eq_none ?_
  rw [parent?, Array.getElem?_eq_none h]
  rfl

/-- `y` is the last visible leaf before `x`. -/
def Precedes (t : Tree) (y x : NodeId) : Prop :=
  y < x ∧ t.isVisible y = true ∧ ∀ z : Nat, y < z → z < x → t.isVisible z = false

namespace WellFormed

variable (wf : t.WellFormed)

include wf

/-! ## The walk backwards -/

/-- The subtrees of the siblings before a node fill the rows between its parent
and the node. -/
theorem flatMap_subtree_siblingsBefore (h : t.parent? x = some p) :
    (t.siblingsBefore x).reverse.flatMap t.subtree = List.range' (p + 1) (x - (p + 1)) := by
  have hmem : ∀ s ∈ (t.siblingsBefore x).reverse, s < x ∧ t.parent? s = some p := fun s hs =>
    (wf.mem_siblingsBefore h).mp (List.mem_reverse.mp hs)
  refine eq_of_increasing (wf.flatMap_subtree_increasing wf.siblingsBefore_reverse_increasing
    fun s hs => (hmem s hs).2) List.pairwise_lt_range' fun y => ?_
  rw [List.mem_flatMap, List.mem_range'_1]
  constructor
  · rintro ⟨s, hs, hy⟩
    obtain ⟨hsx, hsp⟩ := hmem s hs
    have hcov := mem_subtree.mp hy
    have hps := wf.parent_lt hsp
    have hyx := wf.lt_of_sibling hsp h hsx hcov
    have hsy := hcov.1
    omega
  · rintro ⟨hpy, hyx⟩
    have hxp := wf.parent_lt h
    have hcov : t.Covers p y := (wf.parent_spec h).2.2.mono (by omega) (by omega)
    obtain ⟨s, hs, hsy⟩ := wf.exists_child_covers hcov (by omega)
    have hsx : s < x := Nat.lt_of_le_of_lt hsy.1 (by omega)
    exact ⟨s, List.mem_reverse.mpr ((wf.mem_siblingsBefore h).mpr ⟨hsx, hs⟩), mem_subtree.mpr hsy⟩

/-- A search through the siblings before a node is a scan of the rows between its
parent and the node. -/
theorem findSome?_siblingsBefore (h : t.parent? x = some p) :
    (t.siblingsBefore x).findSome? t.lastVisible? =
      (List.range' (p + 1) (x - (p + 1))).reverse.find? t.isVisible := by
  rw [← wf.flatMap_subtree_siblingsBefore h, List.reverse_flatMap, List.reverse_reverse,
    List.find?_flatMap]
  rfl

/-- The walk from a node goes on from its parent. -/
theorem prevVisible?_of_parent? (h : t.parent? x = some p) :
    t.prevVisible? x = ((t.siblingsBefore x).findSome? t.lastVisible?).or (t.prevVisible? p) := by
  rw [prevVisible?, findSome?_cons_eq_or, wf.ancestors_of_parent? h, ← prevVisible?]

/-- The visible leaf before a node is the nearest visible row before it. -/
theorem prevVisible?_eq_find? (hx : x < t.size) :
    t.prevVisible? x = (List.range x).reverse.find? t.isVisible := by
  induction x using wf.parent_induction with
  | top x hp =>
    obtain rfl : x = 0 := by
      rcases Nat.eq_zero_or_pos x with h0 | hpos
      · exact h0
      · obtain ⟨q, hq⟩ := wf.exists_parent hpos hx
        rw [hp] at hq
        cases hq
    rw [prevVisible?_of_parent?_eq_none hp]
    rfl
  | below x p hp ih =>
    obtain ⟨hlt, hrule, -⟩ := wf.parent_spec hp
    obtain ⟨r, hr⟩ := Option.isSome_iff_exists.mp hrule
    rw [wf.prevVisible?_of_parent? hp, ih (Nat.lt_trans hlt hx), wf.findSome?_siblingsBefore hp,
      range_eq_append hlt, List.append_cons, List.reverse_append, List.find?_append,
      List.reverse_append, List.reverse_singleton, List.singleton_append,
      List.find?_cons_of_neg (by simp [isVisible_eq_false_of_rule? hr])]

/-- The leaf that is found before a node is the last visible one before it. -/
theorem prevVisible?_eq_some_iff (hx : x < t.size) :
    t.prevVisible? x = some y ↔ t.Precedes y x := by
  rw [wf.prevVisible?_eq_find? hx, find?_reverse_range_eq_some_iff, Precedes]

/-- None is found exactly if no row before the node is visible. -/
theorem prevVisible?_eq_none_iff (hx : x < t.size) :
    t.prevVisible? x = none ↔ ∀ y : Nat, y < x → t.isVisible y = false := by
  rw [wf.prevVisible?_eq_find? hx, List.find?_eq_none]
  simp [List.mem_reverse, List.mem_range]

end WellFormed

end Tree

end SiddhiEditor
