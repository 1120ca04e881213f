import Mathlib.Order.Bounds.Basic
import SiddhiEditor.Proofs.Answers

/-!
# The entries of a catalog

The catalog of a tree has one entry for every definition node that has a name
(`NamedBy`).  The entries come in the order of the leaves of the names.  Nested
definitions may share that leaf; they come streams first, then tables, then
windows, and then in document order.  `DefinedBefore` is this order, said of nodes,
and `exists_entries` ties the list of entries to it.  Sorting gives the first part
and the stability of sorting gives the rest (`pairwise_mergeSort_of_pairwise`).

The attributes of an entry are the first visible leaves of the attribute names
below the node, in order (`mem_attributeNames`, `attributeNames_ordered`).

Names are searched for in these lists, and the first hit counts.  In an ordered list
the first hit is the least (`findSome?_ordered`), so a search can be stated without
the list: by a least leaf, or by the first definition with a property
(`FirstDefinition`).
-/

namespace SiddhiEditor

/-! ## Searches in ordered lists -/

section Ordered

variable {α β : Type} {R : α → α → Prop} {xs : List α}

/-- The member that answers a search in an ordered list comes before all others that
have an answer. -/
theorem exists_least_of_findSome? (hxs : xs.Pairwise R) {f : α → Option β} {b : β}
    (h : xs.findSome? f = some b) :
    ∃ x ∈ xs, f x = some b ∧ ∀ y ∈ xs, (f y).isSome = true → y = x ∨ R x y := by
  obtain ⟨before, x, behind, rfl, hx, hbefore⟩ := List.findSome?_eq_some_iff.mp h
  rw [List.pairwise_append, List.pairwise_cons] at hxs
  refine ⟨x, List.mem_append_right _ List.mem_cons_self, hx, ?_⟩
  intro y hy hfy
  rcases List.mem_append.mp hy with hy | hy
  · rw [hbefore y hy] at hfy
    cases hfy
  · rcases List.mem_cons.mp hy with rfl | hy
    · exact Or.inl rfl
    · exact Or.inr (hxs.2.1.1 y hy)

/-- A search in an ordered list stops at the least member that has an answer.  There
is one such member only. -/
theorem findSome?_ordered (hantisymm : ∀ a b, R a b → R b a → a = b) (hxs : xs.Pairwise R)
    {f : α → Option β} {b : β} :
    xs.findSome? f = some b ↔
      ∃ x ∈ xs, f x = some b ∧ ∀ y ∈ xs, (f y).isSome = true → y = x ∨ R x y := by
  constructor
  · exact exists_least_of_findSome? hxs
  · rintro ⟨x, hx, hfx, hleast⟩
    have hsome : (f x).isSome = true := Option.isSome_iff_exists.mpr ⟨b, hfx⟩
    obtain ⟨b', hb'⟩ := Option.isSome_iff_exists.mp (List.findSome?_isSome_iff.mpr ⟨x, hx, hsome⟩)
    obtain ⟨x', hx', hfx', hleast'⟩ := exists_least_of_findSome? hxs hb'
    have hsome' : (f x').isSome = true := Option.isSome_iff_exists.mpr ⟨b', hfx'⟩
    have heq : x' = x := by
      rcases hleast x' hx' hsome' with heq | hle
      · exact heq
      · rcases hleast' x hx hsome with heq | hle'
        · exact heq.symm
        · exact (hantisymm x x' hle hle').symm
    rw [heq, hfx] at hfx'
    rw [hb', hfx']

/-- The member that is found in an ordered list is the least one. -/
theorem find?_ordered (hantisymm : ∀ a b, R a b → R b a → a = b) (hxs : xs.Pairwise R)
    {q : α → Bool} {x : α} :
    xs.find? q = some x ↔ x ∈ xs ∧ q x = true ∧ ∀ y ∈ xs, q y = true → y = x ∨ R x y := by
  rw [← List.findSome?_guard, findSome?_ordered hantisymm hxs]
  simp only [Option.guard_eq_some_iff, Option.isSome_guard]
  refine ⟨fun h => ?_, fun h => ⟨x, h.1, ⟨rfl, h.2.1⟩, h.2.2⟩⟩
  obtain ⟨y, hy, ⟨rfl, hq⟩, hleast⟩ := h
  exact ⟨hy, hq, hleast⟩

theorem findSome?_isLeast {xs : List Nat} (hxs : xs.Pairwise (· ≤ ·)) {f : Nat → Option β} {b : β} :
    xs.findSome? f = some b ↔
      ∃ n, IsLeast {m | m ∈ xs ∧ (f m).isSome = true} n ∧ f n = some b := by
  rw [findSome?_ordered (fun _ _ => Nat.le_antisymm) hxs]
  refine exists_congr fun n => ⟨fun h => ?_, fun h => ?_⟩
  · obtain ⟨hn, hf, hleast⟩ := h
    refine ⟨⟨⟨hn, Option.isSome_iff_exists.mpr ⟨b, hf⟩⟩, fun m hm => ?_⟩, hf⟩
    rcases hleast m hm.1 hm.2 with rfl | hle
    · exact Nat.le_refl _
    · exact hle
  · obtain ⟨⟨hn, hleast⟩, hf⟩ := h
    exact ⟨hn.1, hf, fun m hm hfm => Or.inr (hleast ⟨hm, hfm⟩)⟩

theorem find?_isLeast {xs : List Nat} (hxs : xs.Pairwise (· ≤ ·)) {q : Nat → Bool} {n : Nat} :
    xs.find? q = some n ↔ IsLeast {m | m ∈ xs ∧ q m = true} n := by
  rw [← List.findSome?_guard, findSome?_isLeast hxs]
  simp only [Option.guard_eq_some_iff, Option.isSome_guard]
  refine ⟨fun h => ?_, fun h => ⟨n, h, rfl, h.1.2⟩⟩
  obtain ⟨m, hm, rfl, -⟩ := h
  exact hm

/-- A search in a falling list stops at the greatest number that fits. -/
theorem find?_isGreatest {xs : List Nat} (hxs : xs.Pairwise (· > ·)) {q : Nat → Bool} {n : Nat} :
    xs.find? q = some n ↔ IsGreatest {m | m ∈ xs ∧ q m = true} n := by
  have hantisymm : ∀ a b : Nat, a > b → b > a → a = b := fun a b hab hba =>
    absurd hab (Nat.lt_asymm hba)
  rw [find?_ordered hantisymm hxs]
  constructor
  · rintro ⟨hn, hq, hgreatest⟩
    refine ⟨⟨hn, hq⟩, fun m hm => ?_⟩
    rcases hgreatest m hm.1 hm.2 with rfl | hlt
    · exact Nat.le_refl _
    · exact Nat.le_of_lt hlt
  · rintro ⟨hn, hgreatest⟩
    exact ⟨hn.1, hn.2, fun m hm hq => Nat.eq_or_lt_of_le (hgreatest ⟨hm, hq⟩)⟩

theorem key_trans (key : α → Nat) (a b c : α) (hab : decide (key a ≤ key b) = true)
    (hbc : decide (key b ≤ key c) = true) : decide (key a ≤ key c) = true :=
  decide_eq_true (Nat.le_trans (of_decide_eq_true hab) (of_decide_eq_true hbc))

theorem key_total (key : α → Nat) (a b : α) :
    (decide (key a ≤ key b) || decide (key b ≤ key a)) = true := by
  rw [Bool.or_eq_true, decide_eq_true_eq, decide_eq_true_eq]
  exact Nat.le_total _ _

/-- The members of one key form the same list before and after sorting. -/
theorem filter_mergeSort_key (key : α → Nat) (k : Nat) :
    (xs.mergeSort fun a b => key a ≤ key b).filter (key · = k) = xs.filter (key · = k) := by
  have hkeys : (xs.filter (key · = k)).Pairwise fun a b => decide (key a ≤ key b) = true := by
    refine List.pairwise_of_forall_mem_list fun a ha b hb => ?_
    have hka : key a = k := of_decide_eq_true (List.mem_filter.mp ha).2
    have hkb : key b = k := of_decide_eq_true (List.mem_filter.mp hb).2
    rw [hka, hkb]
    exact decide_eq_true (Nat.le_refl k)
  have hsub := (List.sublist_mergeSort (key_trans key) (key_total key) hkeys
    List.filter_sublist).filter (key · = k)
  simp only [List.filter_filter, Bool.and_self] at hsub
  have hlength := ((List.mergeSort_perm xs fun a b => key a ≤ key b).filter (key · = k)).length_eq
  exact (hsub.eq_of_length hlength.symm).symm

/-- Sorting by a key keeps the order among members of one key. -/
theorem pairwise_mergeSort_of_pairwise {key : α → Nat} (hxs : xs.Pairwise R) :
    (xs.mergeSort fun a b => key a ≤ key b).Pairwise fun a b =>
      key a < key b ∨ key a = key b ∧ R a b := by
  have hsorted := List.pairwise_mergeSort (key_trans key) (key_total key) xs
  rw [List.pairwise_iff_forall_sublist] at hsorted hxs ⊢
  intro a b hab
  rcases Nat.lt_or_eq_of_le (of_decide_eq_true (hsorted hab)) with hlt | heq
  · exact Or.inl hlt
  · have hboth := hab.filter (key · = key b)
    rw [filter_mergeSort_key, List.filter_cons_of_pos (by simp [heq]),
      List.filter_cons_of_pos (by simp)] at hboth
    exact Or.inr ⟨heq, hxs (hboth.trans List.filter_sublist)⟩

end Ordered

namespace Tree

variable {t : Tree} {x y n : Nat} {r : Rule}

/-! ## First visible leaves -/

/-- `n` is the first visible leaf below `x`. -/
def StartsWith (t : Tree) (x n : NodeId) : Prop :=
  IsLeast {m | t.Above x m ∧ t.isVisible m = true} n

/-- First visible leaves come in the order of their nodes. -/
theorem firstVisible?_mono {n' : Nat} (h : t.firstVisible? x = some n)
    (h' : t.firstVisible? y = some n') (hxy : x ≤ y) : n ≤ n' := by
  have hordered {x : Nat} : (t.subtree x).Pairwise (· ≤ ·) := subtree_increasing.imp Nat.le_of_lt
  obtain ⟨⟨hcov, hn⟩, hleast⟩ := (find?_isLeast hordered).mp h
  obtain ⟨⟨hcov', hn'⟩, -⟩ := (find?_isLeast hordered).mp h'
  rcases Nat.le_total n n' with hle | hge
  · exact hle
  · have hxn' := (mem_subtree.mp hcov).mono (Nat.le_trans hxy (mem_subtree.mp hcov').1) hge
    exact hleast ⟨mem_subtree.mpr hxn', hn'⟩

namespace WellFormed

variable (wf : t.WellFormed)

include wf

/-- The first visible leaf of an interior node, said by the tree. -/
theorem firstVisible?_eq_some_iff (hr : t.rule? x = some r) :
    t.firstVisible? x = some n ↔ t.StartsWith x n := by
  have hbelow : ∀ m : Nat, m ∈ t.subtree x ∧ t.isVisible m = true ↔
      t.Above x m ∧ t.isVisible m = true := by
    intro m
    refine and_congr_left fun hm => ?_
    rw [mem_subtree, wf.above_iff_covers, and_iff_right_of_imp]
    intro hcov
    refine Nat.lt_of_le_of_ne hcov.1 fun heq => ?_
    rw [← heq, isVisible_eq_false_of_rule? hr] at hm
    cases hm
  rw [firstVisible?, find?_isLeast (subtree_increasing.imp Nat.le_of_lt), StartsWith]
  simp only [hbelow]

end WellFormed

/-! ## Definitions in the tree -/

/-- `x` is the node of a definition. -/
def IsDefinition (t : Tree) (x : NodeId) : Prop := ∃ r ∈ Rule.definitions, t.rule? x = some r

/-- The leaf `n` names the definition at `x`: it is the first visible leaf of the
first stream name among the children. -/
def NamedBy (t : Tree) (x n : NodeId) : Prop :=
  t.IsDefinition x ∧
    ∃ s, IsLeast {s | t.parent? s = some x ∧ t.rule? s = some .streamId} s ∧ t.StartsWith s n

/-- The leaf `n` names an attribute of the definition at `x`: it is the first
visible leaf of an attribute name below. -/
def HasAttribute (t : Tree) (x n : NodeId) : Prop :=
  ∃ y, t.Above x y ∧ t.rule? y = some .attributeName ∧ t.StartsWith y n

/-- The rules of definitions are those that have a kind of definition. -/
theorem ofRule?_isSome_iff : (DefinitionKind.ofRule? r).isSome = true ↔ r ∈ Rule.definitions := by
  cases r <;> decide

theorem isDefinition_iff :
    t.IsDefinition x ↔ ∃ kind, (t.rule? x).bind DefinitionKind.ofRule? = some kind := by
  rw [IsDefinition]
  cases t.rule? x with
  | none => simp
  | some r =>
    rw [Option.bind_some, ← Option.isSome_iff_exists, ofRule?_isSome_iff]
    simp

theorem NamedBy.above (h : t.NamedBy x n) : t.Above x n := by
  obtain ⟨-, s, ⟨⟨hp, -⟩, -⟩, ⟨hsn, -⟩, -⟩ := h
  exact .trans (.single hp) hsn

/-- The name of a definition is a stream name. -/
theorem NamedBy.under_streamId (h : t.NamedBy x n) : t.Under .streamId n := by
  obtain ⟨-, s, ⟨⟨-, hr⟩, -⟩, ⟨hsn, -⟩, -⟩ := h
  exact ⟨s, hsn, hr⟩

theorem NamedBy.isVisible (h : t.NamedBy x n) : t.isVisible n = true := by
  obtain ⟨-, s, -, hn, -⟩ := h
  exact hn.2

theorem HasAttribute.above (h : t.HasAttribute x n) : t.Above x n := by
  obtain ⟨y, hxy, -, ⟨hyn, -⟩, -⟩ := h
  exact .trans hxy hyn

theorem HasAttribute.isVisible (h : t.HasAttribute x n) : t.isVisible n = true := by
  obtain ⟨y, -, -, hn, -⟩ := h
  exact hn.2

/-- The order of definition nodes with one leaf: streams before tables before
windows, and nodes of one rule in document order. -/
def ListedBefore (t : Tree) (x y : NodeId) : Prop :=
  ∃ r r', t.rule? x = some r ∧ t.rule? y = some r' ∧
    ([r, r'].Sublist Rule.definitions ∨ r = r' ∧ x < y)

/-- The order of definitions: by the leaves of their names, and then as they are
listed. -/
def DefinedBefore (t : Tree) (x y : NodeId) : Prop :=
  ∃ n m, t.NamedBy x n ∧ t.NamedBy y m ∧ (n < m ∨ n = m ∧ t.ListedBefore x y)

/-- `x` is the first named definition with the property. -/
def FirstDefinition (t : Tree) (P : NodeId → Prop) (x : NodeId) : Prop :=
  (∃ n, t.NamedBy x n) ∧ P x ∧ ∀ y n, t.NamedBy y n → P y → y = x ∨ t.DefinedBefore x y

theorem definitions_asymm : ∀ r ∈ Rule.definitions, ∀ r' ∈ Rule.definitions,
    [r, r'].Sublist Rule.definitions → ¬ [r', r].Sublist Rule.definitions := by
  decide

/-- No two definitions are listed before each other. -/
theorem ListedBefore.asymm (h : t.ListedBefore x y) : ¬ t.ListedBefore y x := by
  obtain ⟨r, r', hr, hr', h⟩ := h
  rintro ⟨q', q, hq', hq, h'⟩
  obtain rfl : r' = q' := Option.some_inj.mp (hr'.symm.trans hq')
  obtain rfl : r = q := Option.some_inj.mp (hr.symm.trans hq)
  have hlisted : ∀ q q', [q, q'].Sublist Rule.definitions → ¬ [q', q].Sublist Rule.definitions := by
    intro q q' hsub
    exact definitions_asymm q (hsub.subset (by simp)) q' (hsub.subset (by simp)) hsub
  rcases h with hsub | ⟨heq, hlt⟩ <;> rcases h' with hsub' | ⟨heq', hlt'⟩
  · exact hlisted r r' hsub hsub'
  · rw [heq'] at hsub
    exact hlisted r r hsub hsub
  · rw [heq] at hsub'
    exact hlisted r' r' hsub' hsub'
  · exact Nat.lt_asymm hlt hlt'

namespace WellFormed

variable (wf : t.WellFormed)

include wf

/-- The leaf that names a definition, said by the tree. -/
theorem namedBy_iff : t.NamedBy x n ↔ t.IsDefinition x ∧ t.nameLeaf? x = some n := by
  rw [NamedBy, nameLeaf?, Option.bind_eq_some_iff]
  refine and_congr_right fun _ => exists_congr fun s => ?_
  rw [find?_isLeast (wf.children_increasing.imp Nat.le_of_lt)]
  simp only [wf.mem_children, hasRule, beq_iff_eq]
  exact and_congr_right fun hs => (wf.firstVisible?_eq_some_iff hs.1.2).symm

/-- A definition has one name. -/
theorem namedBy_unique {m : Nat} (h : t.NamedBy x n) (h' : t.NamedBy x m) : n = m :=
  Option.some_inj.mp ((wf.namedBy_iff.mp h).2.symm.trans (wf.namedBy_iff.mp h').2)

theorem definedBefore_asymm (h : t.DefinedBefore x y) : ¬ t.DefinedBefore y x := by
  obtain ⟨n, m, hx, hy, h⟩ := h
  rintro ⟨m', n', hy', hx', h'⟩
  obtain rfl : n = n' := wf.namedBy_unique hx hx'
  obtain rfl : m = m' := wf.namedBy_unique hy hy'
  rcases h with hlt | ⟨heq, hlisted⟩ <;> rcases h' with hlt' | ⟨heq', hlisted'⟩
  · exact Nat.lt_asymm hlt hlt'
  · exact Nat.ne_of_lt hlt heq'.symm
  · exact Nat.ne_of_lt hlt' heq.symm
  · exact hlisted.asymm hlisted'

/-- The names of definitions are in the order of the definitions. -/
theorem le_of_definedBefore {m : Nat} (h : t.DefinedBefore x y) (hn : t.NamedBy x n)
    (hm : t.NamedBy y m) : n ≤ m := by
  obtain ⟨n', m', hn', hm', h⟩ := h
  rw [wf.namedBy_unique hn hn', wf.namedBy_unique hm hm']
  rcases h with hlt | ⟨heq, -⟩
  · exact Nat.le_of_lt hlt
  · exact Nat.le_of_eq heq

/-- The nodes of a rule below a node of another rule. -/
theorem mem_descendants (hx : t.rule? x ≠ some r) :
    y ∈ t.descendants r x ↔ t.Above x y ∧ t.rule? y = some r := by
  rw [descendants, List.mem_filter, mem_subtree, hasRule, beq_iff_eq]
  refine and_congr_left fun hr => ?_
  rw [wf.above_iff_covers, and_iff_right_of_imp]
  intro hcov
  exact Nat.lt_of_le_of_ne hcov.1 fun heq => hx (heq ▸ hr)

/-- The attributes of a definition are the first visible leaves of the attribute
names below it. -/
theorem mem_attributeNames (hx : t.IsDefinition x) :
    (y, n) ∈ t.attributeNames x ↔
      t.Above x y ∧ t.rule? y = some .attributeName ∧ t.StartsWith y n := by
  have hname : t.rule? x ≠ some .attributeName := by
    intro hr
    obtain ⟨r, hmem, hr'⟩ := hx
    rw [hr, Option.some_inj] at hr'
    rw [← hr'] at hmem
    exact absurd hmem (by decide)
  rw [attributeNames, List.mem_filterMap]
  constructor
  · intro h
    obtain ⟨y', hy, h⟩ := h
    obtain ⟨n', hn, heq⟩ := Option.map_eq_some_iff.mp h
    cases heq
    obtain ⟨habove, hr⟩ := (wf.mem_descendants hname).mp hy
    exact ⟨habove, hr, (wf.firstVisible?_eq_some_iff hr).mp hn⟩
  · intro h
    obtain ⟨habove, hr, hn⟩ := h
    refine ⟨y, (wf.mem_descendants hname).mpr ⟨habove, hr⟩, ?_⟩
    rw [(wf.firstVisible?_eq_some_iff hr).mpr hn]
    rfl

end WellFormed

/-- Attributes are listed in the order of the document. -/
theorem attributeNames_ordered : ((t.attributeNames x).map (·.2)).Pairwise (· ≤ ·) := by
  rw [List.pairwise_map, attributeNames, List.pairwise_filterMap]
  refine descendants_increasing.imp fun hyz first hfirst second hsecond => ?_
  obtain ⟨n, hn, rfl⟩ := Option.map_eq_some_iff.mp hfirst
  obtain ⟨n', hn', rfl⟩ := Option.map_eq_some_iff.mp hsecond
  exact firstVisible?_mono hn hn' (Nat.le_of_lt hyz)

/-- The definition nodes are listed in their order. -/
theorem definitionNodes_listed : (Catalog.definitionNodes t).Pairwise t.ListedBefore := by
  have hrule : ∀ r, ∀ x ∈ t.descendants r root, t.rule? x = some r := by
    intro r x hx
    simpa [descendants, hasRule] using (List.mem_filter.mp hx).2
  rw [Catalog.definitionNodes, List.pairwise_flatMap]
  refine ⟨fun r _ => ?_, ?_⟩
  · refine descendants_increasing.imp_of_mem fun hx hy hxy => ?_
    exact ⟨r, r, hrule r _ hx, hrule r _ hy, Or.inr ⟨rfl, hxy⟩⟩
  · rw [List.pairwise_iff_forall_sublist]
    intro r r' hsub x hx y hy
    exact ⟨r, r', hrule r x hx, hrule r' y hy, Or.inl hsub⟩

/-! ## The entries -/

/-- Definitions that are found in order are not sorted any further. -/
theorem ofTree_of_sorted {found : List (Option Definition)}
    (hfound : (Catalog.definitionNodes t).mapM (Definition.ofNode? t) = .ok found)
    (hsorted : (found.filterMap id).Pairwise fun d e => decide (d.node ≤ e.node) = true) :
    Catalog.ofTree t = .ok ⟨found.filterMap id⟩ := by
  rw [Catalog.ofTree, hfound]
  exact congrArg (fun ds => Except.ok (Catalog.mk ds)) (List.mergeSort_of_pairwise hsorted)

/-- The definition nodes that have an entry, each with the entry, as they are
listed. -/
def listedEntries (t : Tree) : List (NodeId × Definition) :=
  (Catalog.definitionNodes t).filterMap fun x => (t.definitionAt? x).map (x, ·)

/-- Definitions are listed kind by kind, and within a kind in the order of the
document. -/
theorem listedEntries_listed :
    t.listedEntries.Pairwise fun first second => t.ListedBefore first.1 second.1 := by
  rw [listedEntries, List.pairwise_filterMap]
  refine definitionNodes_listed.imp fun hxy first hfirst second hsecond => ?_
  obtain ⟨d, -, rfl⟩ := Option.map_eq_some_iff.mp hfirst
  obtain ⟨e, -, rfl⟩ := Option.map_eq_some_iff.mp hsecond
  exact hxy

/-- The catalog has the listed definitions, sorted by the leaves of their names. -/
theorem catalog_eq_mergeSort :
    t.catalog = ⟨(t.listedEntries.map (·.2)).mergeSort fun d e => d.node ≤ e.node⟩ := by
  rw [catalog, listedEntries, List.map_filterMap]
  simp only [Option.map_map, Function.comp_def, Option.map_id']

/-- What a definition has been read from. -/
theorem definitionAt?_eq_some_iff {d : Definition} :
    t.definitionAt? x = some d ↔
      ∃ kind n, (t.rule? x).bind DefinitionKind.ofRule? = some kind ∧ t.nameLeaf? x = some n ∧
        d = ⟨t.textAt n, kind, (t.attributeNames x).map t.attributeAt, n⟩ := by
  rw [definitionAt?, Option.bind_eq_some_iff]
  refine exists_congr fun kind => ?_
  rw [Option.map_eq_some_iff]
  constructor
  · rintro ⟨hkind, n, hn, rfl⟩
    exact ⟨n, hkind, hn, rfl⟩
  · rintro ⟨n, hkind, hn, rfl⟩
    exact ⟨hkind, n, hn, rfl⟩

namespace WellFormed

variable (wf : t.WellFormed) {d : Definition}

include wf

/-- An entry has the leaf that names its definition. -/
theorem namedBy_of_definitionAt? (h : t.definitionAt? x = some d) :
    t.NamedBy x d.node ∧ d.name = t.textAt d.node := by
  obtain ⟨kind, n, hkind, hn, rfl⟩ := definitionAt?_eq_some_iff.mp h
  exact ⟨wf.namedBy_iff.mpr ⟨isDefinition_iff.mpr ⟨kind, hkind⟩, hn⟩, rfl⟩

/-- A definition that has a name has an entry. -/
theorem exists_definitionAt? (h : t.NamedBy x n) :
    ∃ d, t.definitionAt? x = some d ∧ d.node = n := by
  obtain ⟨hx, hleaf⟩ := wf.namedBy_iff.mp h
  obtain ⟨kind, hkind⟩ := isDefinition_iff.mp hx
  exact ⟨_, definitionAt?_eq_some_iff.mpr ⟨kind, n, hkind, hleaf, rfl⟩, rfl⟩

/-- The first attribute of an entry that has a name is the least leaf that names
such an attribute of the definition. -/
theorem attribute?_isLeast (h : t.definitionAt? x = some d) {name : String} :
    (d.attribute? name).map (·.node) = some n ↔
      IsLeast {m | t.HasAttribute x m ∧ t.textAt m = name} n := by
  have hx := (wf.namedBy_of_definitionAt? h).1.1
  obtain ⟨kind, leaf, -, -, rfl⟩ := definitionAt?_eq_some_iff.mp h
  have hsearch : (Definition.attribute?
      ⟨t.textAt leaf, kind, (t.attributeNames x).map t.attributeAt, leaf⟩ name).map (·.node) =
      ((t.attributeNames x).map (·.2)).find? fun m => t.textAt m == name := by
    rw [Definition.attribute?, List.find?_map, List.find?_map, Option.map_map]
    rfl
  have hmem : ∀ m, m ∈ (t.attributeNames x).map (·.2) ↔ t.HasAttribute x m := by
    intro m
    simp only [List.mem_map, Prod.exists, exists_eq_right, wf.mem_attributeNames hx]
    rfl
  rw [hsearch, find?_isLeast attributeNames_ordered]
  simp only [hmem, beq_iff_eq]

/-- The nodes that the catalog is read from are all definition nodes. -/
theorem mem_definitionNodes : x ∈ Catalog.definitionNodes t ↔ t.IsDefinition x := by
  rw [Catalog.definitionNodes, List.mem_flatMap, IsDefinition]
  refine exists_congr fun r => and_congr_right fun _ => ?_
  rw [descendants, List.mem_filter, wf.subtree_root, List.mem_range, hasRule, beq_iff_eq]
  exact ⟨fun h => h.2, fun h => ⟨lt_size_of_rule? h, h⟩⟩

theorem mem_listedEntries : (x, d) ∈ t.listedEntries ↔ t.definitionAt? x = some d := by
  simp only [listedEntries, List.mem_filterMap, Option.map_eq_some_iff, Prod.mk.injEq]
  constructor
  · rintro ⟨y, -, e, he, rfl, rfl⟩
    exact he
  · intro h
    exact ⟨x, wf.mem_definitionNodes.mpr (wf.namedBy_of_definitionAt? h).1.1, d, h, rfl, rfl⟩

/-- The catalog lists the entries of all definitions that have one, in order. -/
theorem exists_entries :
    ∃ entries : List (NodeId × Definition),
      t.catalog.definitions = entries.map (·.2) ∧
      (∀ x d, (x, d) ∈ entries ↔ t.definitionAt? x = some d) ∧
      entries.Pairwise fun first second => t.DefinedBefore first.1 second.1 := by
  refine ⟨t.listedEntries.mergeSort fun first second => first.2.node ≤ second.2.node, ?_,
    fun x d => ?_, ?_⟩
  · rw [catalog_eq_mergeSort, List.map_mergeSort fun _ _ _ _ => ?_]
    rfl
  · rw [List.mem_mergeSort, wf.mem_listedEntries]
  · refine (pairwise_mergeSort_of_pairwise listedEntries_listed).imp_of_mem ?_
    rintro ⟨x, d⟩ ⟨y, e⟩ hd he hbefore
    rw [List.mem_mergeSort, wf.mem_listedEntries] at hd he
    exact ⟨d.node, e.node, (wf.namedBy_of_definitionAt? hd).1, (wf.namedBy_of_definitionAt? he).1,
      hbefore⟩

/-- The catalog has the definitions of all nodes. -/
theorem mem_catalog : d ∈ t.catalog.definitions ↔ ∃ x, t.definitionAt? x = some d := by
  obtain ⟨entries, heq, hmem, -⟩ := wf.exists_entries
  rw [heq, List.mem_map, Prod.exists]
  simp only [hmem, exists_eq_right]

/-- A search through the catalog stops at the first definition that has an
answer. -/
theorem findSome?_catalog {β : Type} {f : Definition → Option β} {P : NodeId → Prop} {b : β}
    (hf : ∀ x d, t.definitionAt? x = some d → ((f d).isSome = true ↔ P x)) :
    t.catalog.definitions.findSome? f = some b ↔
      ∃ x d, t.FirstDefinition P x ∧ t.definitionAt? x = some d ∧ f d = some b := by
  obtain ⟨entries, heq, hmem, hordered⟩ := wf.exists_entries
  rw [heq, List.findSome?_map,
    findSome?_ordered (fun a b hab hba => absurd hba (wf.definedBefore_asymm hab)) hordered]
  constructor
  · rintro ⟨⟨x, d⟩, hd, hb, hfirst⟩
    rw [hmem] at hd
    refine ⟨x, d, ⟨⟨d.node, (wf.namedBy_of_definitionAt? hd).1⟩, ?_, fun y n hn hP => ?_⟩, hd, hb⟩
    · exact (hf x d hd).mp (Option.isSome_iff_exists.mpr ⟨b, hb⟩)
    · obtain ⟨e, he, -⟩ := wf.exists_definitionAt? hn
      rcases hfirst (y, e) ((hmem y e).mpr he) ((hf y e he).mpr hP) with heq | hbefore
      · exact Or.inl (congrArg Prod.fst heq)
      · exact Or.inr hbefore
  · rintro ⟨x, d, ⟨-, -, hfirst⟩, hd, hb⟩
    refine ⟨(x, d), (hmem x d).mpr hd, hb, ?_⟩
    rintro ⟨y, e⟩ he hsome
    rw [hmem] at he
    have hnamed := (wf.namedBy_of_definitionAt? he).1
    rcases hfirst y e.node hnamed ((hf y e he).mp hsome) with rfl | hbefore
    · rw [hd, Option.some_inj] at he
      exact Or.inl (by rw [he])
    · exact Or.inr hbefore

end WellFormed

end Tree

end SiddhiEditor
