import Mathlib.Data.List.Sort
import Mathlib.Logic.Relation
import SiddhiEditor.Tree

/-!
# Pre-order tables

That the rows stand in pre-order is one condition on the numbers of the parents:
all rows between a parent and its child hang at or behind the parent.
`Covers x y` says it of any two rows.  It is a statement about an interval of
rows, so it needs no induction over the tree, and it comes out as "`y` is at or
below `x`" (`mem_ancestors_iff`, `mem_subtree`).

The rows also keep lists of children and places in them.  In a well-formed tree
these say the same as the parents.  A row lists exactly the rows that hang under
it, and stands at its own place in the list of its parent.  So children and
siblings, which are read off the lists, can be described by parents alone
(`mem_children`, `siblingsBefore_of_parent?`, `siblingsAfter_of_parent?`).

Children, siblings and subtrees are increasing lists of rows.  Two increasing
lists with the same members are equal, so an equation between such lists is
proved by comparing their members.

`walk` visits the nodes depth first and from left to right, by the lists of
children.  In a well-formed tree it visits the rows in order.
-/

namespace SiddhiEditor

/-! ## Scans over ranges -/

/-- A scan downwards from `n` finds the greatest number below `n` that fits. -/
theorem find?_reverse_range_eq_some_iff {q : Nat → Bool} {n y : Nat} :
    (List.range n).reverse.find? q = some y ↔
      y < n ∧ q y = true ∧ ∀ i, y < i → i < n → q i = false := by
  induction n with
  | zero => simp
  | succ n ih =>
    rw [List.range_succ, List.reverse_append, List.reverse_singleton, List.singleton_append]
    cases hq : q n with
    | true =>
      rw [List.find?_cons_of_pos hq, Option.some_inj]
      constructor
      · rintro rfl
        exact ⟨Nat.lt_succ_self _, hq, fun i hi hi' => by omega⟩
      · rintro ⟨hy, -, hmax⟩
        rcases Nat.lt_or_ge y n with hlt | hge
        · exact absurd (hmax n hlt (Nat.lt_succ_self n)) (by simp [hq])
        · omega
    | false =>
      rw [List.find?_cons_of_neg (by simp [hq]), ih]
      constructor
      · rintro ⟨hy, hqy, hmax⟩
        refine ⟨by omega, hqy, fun i hi hi' => ?_⟩
        rcases Nat.lt_or_ge i n with hlt | hge
        · exact hmax i hi hlt
        · obtain rfl : i = n := by omega
          exact hq
      · rintro ⟨hy, hqy, hmax⟩
        refine ⟨?_, hqy, fun i hi hi' => hmax i hi (by omega)⟩
        rcases Nat.lt_or_ge y n with hlt | hge
        · exact hlt
        · obtain rfl : y = n := by omega
          simp [hq] at hqy

/-- The numbers below `n` are those below `x`, `x` and those behind it. -/
theorem range_eq_append {x n : Nat} (h : x < n) :
    List.range n = List.range x ++ x :: List.range' (x + 1) (n - (x + 1)) := by
  obtain ⟨k, rfl⟩ := Nat.exists_eq_add_of_lt h
  have hrest : x + k + 1 - (x + 1) = k := by omega
  rw [hrest, Nat.add_assoc, List.range_add, ← List.range'_eq_map_range, List.range'_succ]

/-- The leading part of a range is as long as the condition holds without a gap. -/
theorem mem_takeWhile_range' {q : Nat → Bool} {a n y : Nat} :
    y ∈ (List.range' a n).takeWhile q ↔
      a ≤ y ∧ y < a + n ∧ ∀ i, a ≤ i → i ≤ y → q i = true := by
  induction n generalizing a with
  | zero => simp; omega
  | succ n ih =>
    rw [List.range'_succ, List.takeWhile_cons]
    split
    next hq =>
      rw [List.mem_cons, ih]
      constructor
      · rintro (rfl | ⟨h1, h2, h3⟩)
        · refine ⟨Nat.le_refl _, by omega, fun i hi hi' => ?_⟩
          obtain rfl : i = y := by omega
          exact hq
        · refine ⟨by omega, by omega, fun i hi hi' => ?_⟩
          rcases Nat.eq_or_lt_of_le hi with rfl | hlt
          · exact hq
          · exact h3 i hlt hi'
      · rintro ⟨h1, h2, h3⟩
        rcases Nat.eq_or_lt_of_le h1 with rfl | hlt
        · exact Or.inl rfl
        · exact Or.inr ⟨hlt, by omega, fun i hi hi' => h3 i (by omega) hi'⟩
    next hq =>
      constructor
      · intro h
        cases h
      · rintro ⟨h1, h2, h3⟩
        exact absurd (h3 a (Nat.le_refl a) h1) hq

/-- Increasing lists of numbers with the same members are equal. -/
theorem eq_of_increasing {xs ys : List Nat} (hxs : xs.Pairwise (· < ·))
    (hys : ys.Pairwise (· < ·)) (h : ∀ x, x ∈ xs ↔ x ∈ ys) : xs = ys :=
  hxs.eq_of_mem_iff hys h

namespace Tree

variable {t : Tree} {x y z p : Nat}

/-! ## Well-formed trees -/

/-- Every row behind `x` up to `y` hangs at or behind `x`. -/
def Covers (t : Tree) (x y : Nat) : Prop :=
  x ≤ y ∧ ∀ i, x < i → i ≤ y → ∃ p, t.parent? i = some p ∧ x ≤ p

/-- The rows are those of one tree in pre-order, with the list of its leaves. -/
structure WellFormed (t : Tree) : Prop where
  /-- The first row is an interior node. -/
  rule?_root : (t.rule? root).isSome = true
  /-- The first row has no parent. -/
  parent?_root : t.parent? root = none
  /-- Every other row hangs under an interior node before it that covers it. -/
  parent_row : ∀ x : Nat, 0 < x → x < t.size →
    ∃ p, t.parent? x = some p ∧ p < x ∧ (t.rule? p).isSome = true ∧ t.Covers p x
  /-- Every row lists the rows that hang under it, in order. -/
  children_eq : ∀ x, t.children x = (List.range t.size).filter fun y => t.parent? y == some x
  /-- Every row stands at its place in the list of its parent. -/
  getElem?_children : ∀ {x p : Nat}, t.parent? x = some p → (t.children p)[t.index x]? = some x
  /-- The leaves are the rows with a token. -/
  leaves_eq : t.leaves.toList = (List.range t.size).filter t.isLeaf

theorem lt_size_of_parent? (h : t.parent? x = some p) : x < t.size := by
  rcases Nat.lt_or_ge x t.size with hlt | hge
  · exact hlt
  · rw [parent?, Array.getElem?_eq_none hge] at h
    cases h

theorem lt_size_of_rule? {r : Rule} (h : t.rule? x = some r) : x < t.size := by
  rcases Nat.lt_or_ge x t.size with hlt | hge
  · exact hlt
  · rw [rule?, Array.getElem?_eq_none hge] at h
    cases h

theorem lt_size_of_token? {tok : Token} (h : t.token? x = some tok) : x < t.size := by
  rcases Nat.lt_or_ge x t.size with hlt | hge
  · exact hlt
  · rw [token?, Array.getElem?_eq_none hge] at h
    cases h

/-- A row carries a rule or a token, and not both. -/
theorem token?_eq_none_of_rule? {r : Rule} (h : t.rule? x = some r) : t.token? x = none := by
  rw [rule?] at h
  rw [token?]
  cases hn : t.nodes[x]? with
  | none => rfl
  | some n =>
    rw [hn] at h
    cases hl : n.label with
    | rule r' => simp [hl, Label.token?]
    | token tok => simp [hl, Label.rule?] at h

/-- Every row carries a rule or a token. -/
theorem rule?_or_token? (h : x < t.size) :
    (∃ r, t.rule? x = some r) ∨ ∃ tok, t.token? x = some tok := by
  rw [rule?, token?, Array.getElem?_eq_getElem h]
  cases hl : t.nodes[x].label with
  | rule r => exact .inl ⟨r, by simp [hl, Label.rule?]⟩
  | token tok => exact .inr ⟨tok, by simp [hl, Label.token?]⟩

namespace WellFormed

variable (wf : t.WellFormed)

include wf

theorem size_pos : 0 < t.size := by
  obtain ⟨r, hr⟩ := Option.isSome_iff_exists.mp wf.rule?_root
  exact lt_size_of_rule? hr

/-- All that is known of a parent. -/
theorem parent_spec (h : t.parent? x = some p) :
    p < x ∧ (t.rule? p).isSome = true ∧ t.Covers p x := by
  have hx : 0 < x := by
    rcases Nat.eq_zero_or_pos x with rfl | hpos
    · have hroot := wf.parent?_root
      rw [root, h] at hroot
      cases hroot
    · exact hpos
  obtain ⟨q, hq, hlt, hrule, hcov⟩ := wf.parent_row x hx (lt_size_of_parent? h)
  rw [h] at hq
  cases hq
  exact ⟨hlt, hrule, hcov⟩

theorem parent_lt (h : t.parent? x = some p) : p < x := (wf.parent_spec h).1

theorem exists_parent (h0 : 0 < x) (hx : x < t.size) : ∃ p, t.parent? x = some p := by
  obtain ⟨p, hp, -⟩ := wf.parent_row x h0 hx
  exact ⟨p, hp⟩

/-- Induction from the root downwards. -/
theorem parent_induction {motive : Nat → Prop}
    (top : ∀ x : Nat, t.parent? x = none → motive x)
    (below : ∀ x p : Nat, t.parent? x = some p → motive p → motive x) (x : Nat) : motive x := by
  induction x using Nat.strong_induction_on with
  | h x ih =>
    cases hp : t.parent? x with
    | none => exact top x hp
    | some p => exact below x p hp (ih p (wf.parent_lt hp))

end WellFormed

/-! ## Covering -/

theorem Covers.refl (t : Tree) (x : Nat) : t.Covers x x :=
  ⟨Nat.le_refl x, fun i hi hi' => by omega⟩

theorem Covers.trans (hxy : t.Covers x y) (hyz : t.Covers y z) : t.Covers x z := by
  refine ⟨Nat.le_trans hxy.1 hyz.1, fun i hi hi' => ?_⟩
  rcases Nat.lt_or_ge y i with hlt | hge
  · obtain ⟨p, hp, hle⟩ := hyz.2 i hlt hi'
    exact ⟨p, hp, Nat.le_trans hxy.1 hle⟩
  · exact hxy.2 i hi hge

/-- Covering goes down to every row in between. -/
theorem Covers.mono (h : t.Covers x z) (hxy : x ≤ y) (hyz : y ≤ z) : t.Covers x y :=
  ⟨hxy, fun i hi hi' => h.2 i hi (Nat.le_trans hi' hyz)⟩

theorem Covers.lt_size (h : t.Covers x y) (hx : x < t.size) : y < t.size := by
  rcases Nat.eq_or_lt_of_le h.1 with rfl | hlt
  · exact hx
  · obtain ⟨p, hp, -⟩ := h.2 y hlt (Nat.le_refl y)
    exact lt_size_of_parent? hp

namespace WellFormed

variable (wf : t.WellFormed)

include wf

/-- A row covers a child of `p` when it is the child or covers `p`. -/
theorem covers_iff (h : t.parent? y = some p) : t.Covers x y ↔ x = y ∨ t.Covers x p := by
  obtain ⟨hlt, -, hcov⟩ := wf.parent_spec h
  constructor
  · intro hxy
    rcases Nat.eq_or_lt_of_le hxy.1 with heq | hxlt
    · exact Or.inl heq
    · obtain ⟨q, hq, hle⟩ := hxy.2 y hxlt (Nat.le_refl y)
      rw [h] at hq
      cases hq
      exact Or.inr (hxy.mono hle (Nat.le_of_lt hlt))
  · rintro (rfl | hxp)
    · exact Covers.refl t x
    · exact hxp.trans hcov

/-- The root covers every row. -/
theorem root_covers (hx : x < t.size) : t.Covers root x := by
  refine ⟨Nat.zero_le x, fun i hi hi' => ?_⟩
  obtain ⟨p, hp⟩ := wf.exists_parent hi (Nat.lt_of_le_of_lt hi' hx)
  exact ⟨p, hp, Nat.zero_le p⟩

/-- The way from a row down to one that it covers starts with a child. -/
theorem exists_child_covers (h : t.Covers x y) (hlt : x < y) :
    ∃ c, t.parent? c = some x ∧ t.Covers c y := by
  induction y using wf.parent_induction with
  | top y hy =>
    obtain ⟨q, hq, -⟩ := h.2 y hlt (Nat.le_refl y)
    rw [hy] at hq
    cases hq
  | below y q hq ih =>
    rcases (wf.covers_iff hq).mp h with rfl | hxq
    · omega
    · rcases Nat.eq_or_lt_of_le hxq.1 with rfl | hxlt
      · exact ⟨y, hq, Covers.refl t y⟩
      · obtain ⟨c, hc, hcq⟩ := ih hxq hxlt
        exact ⟨c, hc, (wf.covers_iff hq).mpr (Or.inr hcq)⟩

/-- All that a child covers comes before its next siblings. -/
theorem lt_of_sibling {c d : Nat} (hc : t.parent? c = some p) (hd : t.parent? d = some p)
    (hcd : c < d) (h : t.Covers c y) : y < d := by
  rcases Nat.lt_or_ge y d with hlt | hge
  · exact hlt
  · obtain ⟨q, hq, hle⟩ := h.2 d hcd hge
    rw [hd] at hq
    cases hq
    have := wf.parent_lt hc
    omega

/-! ## Ancestors -/

/-- The bound of the climb is never what stops it.  Two climbs make the same step to
the parent, which is below both bounds. -/
theorem climb_eq_ancestors {bound : Nat} (h : x ≤ bound) : t.climb bound x = t.ancestors x := by
  rw [ancestors]
  induction x using wf.parent_induction generalizing bound with
  | top x hx => cases bound <;> cases x <;> simp [climb, hx]
  | below x p hp ih =>
    have hlt := wf.parent_lt hp
    obtain ⟨b, rfl⟩ : ∃ b, bound = b + 1 := ⟨bound - 1, by omega⟩
    obtain ⟨x, rfl⟩ : ∃ x', x = x' + 1 := ⟨x - 1, by omega⟩
    simp only [climb, hp]
    rw [ih (by omega : p ≤ b), ih (by omega : p ≤ x)]

omit wf in
theorem ancestors_of_parent?_eq_none (h : t.parent? x = none) : t.ancestors x = [] := by
  cases x <;> simp [ancestors, climb, h]

/-- The ancestors are the parent and its ancestors. -/
theorem ancestors_of_parent? (h : t.parent? x = some p) :
    t.ancestors x = p :: t.ancestors p := by
  have hlt := wf.parent_lt h
  obtain ⟨x', rfl⟩ : ∃ x', x = x' + 1 := ⟨x - 1, by omega⟩
  rw [ancestors, climb, h]
  simp only
  rw [wf.climb_eq_ancestors (by omega : p ≤ x')]

/-- The ancestors are the rows before a row that cover it. -/
theorem mem_ancestors_iff : x ∈ t.ancestors y ↔ x < y ∧ t.Covers x y := by
  induction y using wf.parent_induction with
  | top y hy =>
    rw [ancestors_of_parent?_eq_none hy]
    constructor
    · intro h
      cases h
    · rintro ⟨hlt, hcov⟩
      obtain ⟨q, hq, -⟩ := hcov.2 y hlt (Nat.le_refl y)
      rw [hy] at hq
      cases hq
  | below y p hp ih =>
    have hlt := wf.parent_lt hp
    rw [wf.ancestors_of_parent? hp, List.mem_cons, ih, wf.covers_iff hp]
    constructor
    · rintro (rfl | ⟨hxp, hcov⟩)
      · exact ⟨hlt, Or.inr (Covers.refl t x)⟩
      · exact ⟨Nat.lt_trans hxp hlt, Or.inr hcov⟩
    · rintro ⟨hxy, rfl | hcov⟩
      · omega
      · rcases Nat.eq_or_lt_of_le hcov.1 with heq | hxp
        · exact Or.inl heq
        · exact Or.inr ⟨hxp, hcov⟩

/-- The numbers fall on the way up. -/
theorem ancestors_decreasing : (x :: t.ancestors x).Pairwise (· > ·) := by
  induction x using wf.parent_induction with
  | top x hx =>
    rw [ancestors_of_parent?_eq_none hx]
    exact List.pairwise_singleton _ _
  | below x p hp ih =>
    rw [wf.ancestors_of_parent? hp]
    refine List.Pairwise.cons (fun a ha => ?_) ih
    rcases List.mem_cons.mp ha with rfl | ha
    · exact wf.parent_lt hp
    · exact Nat.lt_trans (wf.mem_ancestors_iff.mp ha).1 (wf.parent_lt hp)

/-- Every way up ends at the root. -/
theorem getLast?_ancestors (h0 : 0 < x) (hx : x < t.size) :
    (t.ancestors x).getLast? = some root := by
  induction x using wf.parent_induction with
  | top x hp =>
    obtain ⟨q, hq⟩ := wf.exists_parent h0 hx
    rw [hp] at hq
    cases hq
  | below x p hp ih =>
    rw [wf.ancestors_of_parent? hp]
    rcases Nat.eq_zero_or_pos p with rfl | hpos
    · rw [show t.ancestors 0 = [] from ancestors_of_parent?_eq_none wf.parent?_root]
      rfl
    · have hlast := ih hpos (Nat.lt_trans (wf.parent_lt hp) hx)
      rw [List.getLast?_cons, hlast]
      rfl

end WellFormed

/-- `a` is the parent of `x`, or the parent of a node above `x`. -/
def Above (t : Tree) (a x : NodeId) : Prop :=
  Relation.TransGen (fun p y => t.parent? y = some p) a x

/-- A node of the rule `r` stands above `x`. -/
def Under (t : Tree) (r : Rule) (x : NodeId) : Prop := ∃ a, t.Above a x ∧ t.rule? a = some r

namespace WellFormed

variable (wf : t.WellFormed)

include wf

/-- The nodes above a node are those on the way up from it. -/
theorem above_iff {a : Nat} : t.Above a x ↔ a ∈ t.ancestors x := by
  induction x using wf.parent_induction with
  | top x hx =>
    rw [ancestors_of_parent?_eq_none hx]
    refine ⟨fun h => ?_, fun h => by cases h⟩
    cases h with
    | single hp => cases hx.symm.trans hp
    | tail _ hp => cases hx.symm.trans hp
  | below x p hp ih =>
    rw [wf.ancestors_of_parent? hp, List.mem_cons, ← ih]
    refine ⟨fun h => ?_, fun h => ?_⟩
    · cases h with
      | single ha =>
        cases hp.symm.trans ha
        exact Or.inl rfl
      | tail hab hb =>
        cases hp.symm.trans hb
        exact Or.inr hab
    · rcases h with rfl | h
      · exact .single hp
      · exact .tail h hp

theorem above_iff_covers {a : Nat} : t.Above a x ↔ a < x ∧ t.Covers a x :=
  wf.above_iff.trans wf.mem_ancestors_iff

theorem isWithin_iff {r : Rule} : t.isWithin r x = true ↔ t.Under r x := by
  rw [isWithin, ancestor?, List.find?_isSome]
  simp only [Under, wf.above_iff, hasRule, beq_iff_eq]

end WellFormed

/-! ## Subtrees -/

/-- The subtree of a row is all that the row covers. -/
theorem mem_subtree : y ∈ t.subtree x ↔ t.Covers x y := by
  rw [subtree, List.mem_cons, idsAfter, mem_takeWhile_range']
  constructor
  · rintro (rfl | ⟨hxy, -, hall⟩)
    · exact Covers.refl t y
    · refine ⟨by omega, fun i hi hi' => ?_⟩
      simpa [Option.any_eq_true] using hall i hi hi'
  · rintro ⟨hxy, hall⟩
    rcases Nat.eq_or_lt_of_le hxy with rfl | hlt
    · exact Or.inl rfl
    · obtain ⟨q, hq, -⟩ := hall y hlt (Nat.le_refl y)
      have hsize := lt_size_of_parent? hq
      refine Or.inr ⟨hlt, by omega, fun i hi hi' => ?_⟩
      simpa [Option.any_eq_true] using hall i hi hi'

/-- The rows behind `x` come in order. -/
theorem idsAfter_increasing : (t.idsAfter x).Pairwise (· < ·) := List.pairwise_lt_range'

theorem mem_idsAfter : y ∈ t.idsAfter x ↔ x < y ∧ y < t.size := by
  rw [idsAfter, List.mem_range'_1]
  omega

theorem subtree_increasing : (t.subtree x).Pairwise (· < ·) := by
  refine List.Pairwise.cons (fun y hy => ?_)
    (idsAfter_increasing.sublist (List.takeWhile_sublist _))
  exact (mem_idsAfter.mp ((List.takeWhile_sublist _).subset hy)).1

theorem descendants_increasing {r : Rule} : (t.descendants r x).Pairwise (· < ·) :=
  subtree_increasing.sublist List.filter_sublist

/-- A subtree is a segment of the table. -/
theorem exists_range_subtree (hx : x < t.size) :
    ∃ behind, List.range t.size = List.range x ++ t.subtree x ++ behind := by
  refine ⟨(t.idsAfter x).dropWhile fun y => (t.parent? y).any (x ≤ ·), ?_⟩
  rw [subtree, List.append_assoc, List.cons_append, List.takeWhile_append_dropWhile, idsAfter,
    ← range_eq_append hx]

/-! ## Children -/

namespace WellFormed

variable (wf : t.WellFormed)

include wf

/-- The subtree of a row is the row and the rows that it is an ancestor of. -/
theorem mem_subtree_iff : y ∈ t.subtree x ↔ y = x ∨ x ∈ t.ancestors y := by
  rw [mem_subtree, wf.mem_ancestors_iff]
  constructor
  · intro h
    rcases Nat.eq_or_lt_of_le h.1 with heq | hlt
    · exact Or.inl heq.symm
    · exact Or.inr ⟨hlt, h⟩
  · rintro (rfl | h)
    · exact Covers.refl t y
    · exact h.2

theorem subtree_root : t.subtree root = List.range t.size := by
  refine eq_of_increasing subtree_increasing List.pairwise_lt_range fun y => ?_
  rw [mem_subtree, List.mem_range]
  exact ⟨fun h => h.lt_size wf.size_pos, wf.root_covers⟩

theorem children_increasing : (t.children x).Pairwise (· < ·) := by
  rw [wf.children_eq]
  exact List.pairwise_lt_range.sublist List.filter_sublist

/-- The children of a row are the rows that hang under it. -/
theorem mem_children : y ∈ t.children x ↔ t.parent? y = some x := by
  rw [wf.children_eq, List.mem_filter, List.mem_range, beq_iff_eq]
  constructor
  · exact fun h => h.2
  · exact fun h => ⟨lt_size_of_parent? h, h⟩

/-- A leaf has no children, because parents are interior nodes. -/
theorem children_of_isLeaf (h : t.isLeaf x = true) : t.children x = [] := by
  rw [List.eq_nil_iff_forall_not_mem]
  intro y hy
  obtain ⟨-, hrule, -⟩ := wf.parent_spec (wf.mem_children.mp hy)
  obtain ⟨r, hr⟩ := Option.isSome_iff_exists.mp hrule
  simp [isLeaf, token?_eq_none_of_rule? hr] at h

/-- The subtrees of siblings, one behind the other, are increasing. -/
theorem flatMap_subtree_increasing {cs : List Nat} (hcs : cs.Pairwise (· < ·))
    (hp : ∀ c ∈ cs, t.parent? c = some p) : (cs.flatMap t.subtree).Pairwise (· < ·) := by
  rw [List.pairwise_flatMap]
  refine ⟨fun c _ => subtree_increasing, hcs.imp_of_mem ?_⟩
  intro c d hc hd hcd y hy z hz
  have hyd := wf.lt_of_sibling (hp c hc) (hp d hd) hcd (mem_subtree.mp hy)
  exact Nat.lt_of_lt_of_le hyd (mem_subtree.mp hz).1

/-- A subtree is its row and the subtrees of the children. -/
theorem subtree_eq : t.subtree x = x :: (t.children x).flatMap t.subtree := by
  have hcs : ∀ c ∈ t.children x, t.parent? c = some x := fun c hc => wf.mem_children.mp hc
  refine eq_of_increasing subtree_increasing (List.Pairwise.cons (fun y hy => ?_)
    (wf.flatMap_subtree_increasing wf.children_increasing hcs)) fun y => ?_
  · obtain ⟨c, hc, hy⟩ := List.mem_flatMap.mp hy
    exact Nat.lt_of_lt_of_le (wf.parent_lt (hcs c hc)) (mem_subtree.mp hy).1
  · rw [mem_subtree, List.mem_cons, List.mem_flatMap]
    constructor
    · intro h
      rcases Nat.eq_or_lt_of_le h.1 with heq | hlt
      · exact Or.inl heq.symm
      · obtain ⟨c, hc, hcy⟩ := wf.exists_child_covers h hlt
        exact Or.inr ⟨c, wf.mem_children.mpr hc, mem_subtree.mpr hcy⟩
    · rintro (rfl | ⟨c, hc, hy⟩)
      · exact Covers.refl t y
      · exact (wf.parent_spec (hcs c hc)).2.2.trans (mem_subtree.mp hy)

theorem subtree_of_isLeaf (h : t.isLeaf x = true) : t.subtree x = [x] := by
  rw [wf.subtree_eq, wf.children_of_isLeaf h]
  rfl

end WellFormed

/-! ## The depth-first walk -/

/-- The nodes at or below `x`, depth first and from left to right, down to the
depth `bound`. -/
def walk (t : Tree) : (bound : Nat) → NodeId → List NodeId
  | 0, _ => []
  | bound + 1, x => x :: (t.children x).flatMap (t.walk bound)

/-- The walk over the whole tree.  No path is longer than the table. -/
def walkAll (t : Tree) : List NodeId := t.walk t.size root

/-- A walk that may go deep enough visits the subtree in order. -/
theorem WellFormed.walk_eq_subtree (wf : t.WellFormed) {bound : Nat} (hx : x < t.size)
    (hb : t.size - x ≤ bound) : t.walk bound x = t.subtree x := by
  induction bound generalizing x with
  | zero => omega
  | succ bound ih =>
    rw [walk, wf.subtree_eq]
    congr 1
    refine List.flatMap_congr fun c hc => ?_
    have hp := wf.mem_children.mp hc
    have hlt := wf.parent_lt hp
    exact ih (lt_size_of_parent? hp) (by omega)

theorem WellFormed.walkAll_eq (wf : t.WellFormed) : t.walkAll = List.range t.size := by
  rw [walkAll, wf.walk_eq_subtree (x := root) wf.size_pos (Nat.sub_le _ _), wf.subtree_root]

/-! ## Siblings -/

namespace WellFormed

variable (wf : t.WellFormed)

include wf

/-- The children of a parent are the siblings before a child, the child and the
siblings behind it. -/
theorem children_split (h : t.parent? x = some p) :
    t.children p = (t.siblingsBefore x).reverse ++ x :: t.siblingsAfter x := by
  obtain ⟨hlt, hget⟩ := List.getElem?_eq_some_iff.mp (wf.getElem?_children h)
  have hdrop : (t.children p).drop (t.index x) = x :: (t.children p).drop (t.index x + 1) := by
    rw [List.drop_eq_getElem_cons hlt, hget]
  simp only [siblingsBefore, siblingsAfter, h, List.reverse_reverse]
  rw [← hdrop, List.take_append_drop]

/-- The siblings before a row come in order, before the row, and those behind it in
order behind the row. -/
theorem siblings_increasing (h : t.parent? x = some p) :
    ((t.siblingsBefore x).reverse ++ x :: t.siblingsAfter x).Pairwise (· < ·) := by
  rw [← wf.children_split h]
  exact wf.children_increasing

theorem mem_siblingsBefore (h : t.parent? x = some p) :
    y ∈ t.siblingsBefore x ↔ y < x ∧ t.parent? y = some p := by
  obtain ⟨-, hbehind, hbefore⟩ := List.pairwise_append.mp (wf.siblings_increasing h)
  rw [← wf.mem_children, wf.children_split h, List.mem_append, List.mem_reverse, List.mem_cons]
  constructor
  · intro hy
    exact ⟨hbefore y (List.mem_reverse.mpr hy) x List.mem_cons_self, .inl hy⟩
  · rintro ⟨hlt, hy | rfl | hy⟩
    · exact hy
    · exact absurd hlt (Nat.lt_irrefl y)
    · exact absurd hlt (Nat.lt_asymm (List.rel_of_pairwise_cons hbehind hy))

theorem mem_siblingsAfter (h : t.parent? x = some p) :
    y ∈ t.siblingsAfter x ↔ x < y ∧ t.parent? y = some p := by
  obtain ⟨-, hbehind, hbefore⟩ := List.pairwise_append.mp (wf.siblings_increasing h)
  rw [← wf.mem_children, wf.children_split h, List.mem_append, List.mem_reverse, List.mem_cons]
  constructor
  · intro hy
    exact ⟨List.rel_of_pairwise_cons hbehind hy, .inr (.inr hy)⟩
  · rintro ⟨hlt, hy | rfl | hy⟩
    · exact absurd hlt (Nat.lt_asymm (hbefore y (List.mem_reverse.mpr hy) x List.mem_cons_self))
    · exact absurd hlt (Nat.lt_irrefl y)
    · exact hy

theorem mem_siblingsAfter_iff :
    y ∈ t.siblingsAfter x ↔ x < y ∧ ∃ p, t.parent? x = some p ∧ t.parent? y = some p := by
  cases hp : t.parent? x with
  | none => simp [siblingsAfter, hp]
  | some p =>
    rw [wf.mem_siblingsAfter hp]
    simp

theorem siblingsBefore_reverse_increasing : (t.siblingsBefore x).reverse.Pairwise (· < ·) := by
  cases hp : t.parent? x with
  | none => simp [siblingsBefore, hp]
  | some p => exact (List.pairwise_append.mp (wf.siblings_increasing hp)).1

theorem siblingsAfter_increasing : (t.siblingsAfter x).Pairwise (· < ·) := by
  cases hp : t.parent? x with
  | none => simp [siblingsAfter, hp]
  | some p => exact (List.pairwise_append.mp (wf.siblings_increasing hp)).2.1.of_cons

/-- The siblings before a row are the rows before it with the same parent. -/
theorem siblingsBefore_of_parent? (h : t.parent? x = some p) :
    t.siblingsBefore x = (List.range x).reverse.filter fun y => t.parent? y == some p := by
  rw [← List.reverse_inj, ← List.filter_reverse, List.reverse_reverse]
  refine eq_of_increasing wf.siblingsBefore_reverse_increasing
    (List.pairwise_lt_range.sublist List.filter_sublist) fun y => ?_
  rw [List.mem_reverse, wf.mem_siblingsBefore h, List.mem_filter, List.mem_range, beq_iff_eq]

/-- The siblings behind a row are the rows behind it with the same parent. -/
theorem siblingsAfter_of_parent? (h : t.parent? x = some p) :
    t.siblingsAfter x = (t.idsAfter x).filter fun y => t.parent? y == some p := by
  refine eq_of_increasing wf.siblingsAfter_increasing
    (idsAfter_increasing.sublist List.filter_sublist) fun y => ?_
  rw [wf.mem_siblingsAfter h, List.mem_filter, mem_idsAfter, beq_iff_eq]
  exact ⟨fun h => ⟨⟨h.1, lt_size_of_parent? h.2⟩, h.2⟩, fun h => ⟨h.1.1, h.2⟩⟩

/-- The sibling right before a row is the first one on the way back. -/
theorem prevSibling?_eq_head? : t.prevSibling? x = (t.siblingsBefore x).head? := by
  rw [prevSibling?, siblingsBefore]
  cases hp : t.parent? x with
  | none => rfl
  | some p =>
    obtain ⟨hlt, -⟩ := List.getElem?_eq_some_iff.mp (wf.getElem?_children hp)
    cases hindex : t.index x with
    | zero => rfl
    | succ i =>
      have hi : i < (t.children p).length := by omega
      simp only [List.head?_reverse, List.getLast?_take]
      simp [hi]

omit wf in
/-- The sibling right behind a row is the first one on the way forward. -/
theorem nextSibling?_eq_head? : t.nextSibling? x = (t.siblingsAfter x).head? := by
  rw [nextSibling?, siblingsAfter]
  cases t.parent? x with
  | none => rfl
  | some p => exact List.head?_drop.symm

end WellFormed

/-- `x` and `y` hang under one parent, with no other child of it between them. -/
def Adjacent (t : Tree) (x y : Nat) : Prop :=
  x < y ∧ ∃ p, t.parent? x = some p ∧ t.parent? y = some p ∧
    ∀ z : Nat, x < z → z < y → t.parent? z ≠ some p

theorem WellFormed.prevSibling?_eq_some_iff (wf : t.WellFormed) :
    t.prevSibling? y = some x ↔ t.Adjacent x y := by
  rw [wf.prevSibling?_eq_head?, Adjacent]
  cases hp : t.parent? y with
  | none => simp [siblingsBefore, hp]
  | some p =>
    rw [wf.siblingsBefore_of_parent? hp, List.head?_filter, find?_reverse_range_eq_some_iff]
    simp only [beq_iff_eq, beq_eq_false_iff_ne, Option.some_inj]
    constructor
    · rintro ⟨hlt, hx, hbetween⟩
      exact ⟨hlt, p, hx, rfl, hbetween⟩
    · rintro ⟨hlt, q, hx, rfl, hbetween⟩
      exact ⟨hlt, hx, hbetween⟩

theorem WellFormed.nextSibling?_eq_some_iff (wf : t.WellFormed) :
    t.nextSibling? x = some y ↔ t.Adjacent x y := by
  rw [WellFormed.nextSibling?_eq_head?, Adjacent]
  cases hp : t.parent? x with
  | none => simp [siblingsAfter, hp]
  | some p =>
    rw [wf.siblingsAfter_of_parent? hp, List.head?_filter, idsAfter, List.find?_range'_eq_some]
    simp only [beq_iff_eq, Option.some_inj]
    constructor
    · rintro ⟨hy, hmem, hbetween⟩
      refine ⟨(List.mem_range'_1.mp hmem).1, p, rfl, hy, fun z hz hz' => ?_⟩
      simpa using hbetween z hz hz'
    · rintro ⟨hlt, q, rfl, hy, hbetween⟩
      have hsize := lt_size_of_parent? hy
      refine ⟨hy, List.mem_range'_1.mpr (by omega), fun z hz hz' => ?_⟩
      simpa using hbetween z hz hz'

end Tree

end SiddhiEditor
