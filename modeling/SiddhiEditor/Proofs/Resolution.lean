import Mathlib.Order.Nat
import SiddhiEditor.Proofs.CatalogOrder
import SiddhiEditor.Proofs.Construction

/-!
# What a leaf refers to

A reference is resolved through the catalog.  This module says what it resolves to
in terms of the tree alone.

* A stream or target refers to the least leaf that names a definition with its text
  (`definition?_isLeast`).
* An attribute is looked for in the streams that the query around it reads
  (`Reads`), in the order of the leaves that name them.  Of each the first
  definition counts (`Offers`).  If none of them has the attribute, the first
  definition that has it counts (`OfferedBySome`).

`Resolution` collects what follows for one leaf, and `ofSteps_resolution` says it of
every leaf of every tree.
-/

namespace SiddhiEditor

/-- The attributes of the named definitions are searched definition by definition. -/
theorem Catalog.find?_attributesOf (c : Catalog) (streams : List String) (name : String) :
    (c.attributesOf streams).find? (fun a => a.name == name) =
      streams.findSome? fun stream => (c.definition? stream).bind (·.attribute? name) := by
  rw [attributesOf, List.find?_flatMap]
  induction streams with
  | nil => rfl
  | cons stream streams ih =>
    rw [List.findSome?_cons, ← ih, List.filterMap_cons]
    cases c.definition? stream with
    | none => rfl
    | some d => rfl

namespace Tree

variable {t : Tree} {l s q n x : Nat} {name stream : String}

/-! ## The streams that a query reads -/

/-- `q` is the innermost query around `l`. -/
def IsQueryAround (t : Tree) (q l : NodeId) : Prop :=
  IsGreatest {a | t.Above a l ∧ t.rule? a = some .query} q

/-- The leaf `s` names a stream that the query around `l` reads: it is the first
visible leaf of a stream name in an input of the query. -/
def Reads (t : Tree) (l s : NodeId) : Prop :=
  ∃ q input y, t.IsQueryAround q l ∧ t.parent? input = some q ∧
    t.rule? input = some .queryInput ∧ t.Above input y ∧ t.rule? y = some .streamId ∧
    t.StartsWith y s

/-- The leaves that name the streams read around `l`, in order. -/
def readLeaves (t : Tree) (l : NodeId) : List NodeId :=
  (t.ancestor? .query l).elim [] t.inputStreamLeaves

/-- Names that are read again do not change which name is the first. -/
theorem findSome?_firstsBy {α β : Type} [DecidableEq α] (f : α → Option β) (xs : List α) :
    (firstsBy id xs).findSome? f = xs.findSome? f := by
  have hfilter : ∀ (x : α) (ys : List α), f x = none →
      (ys.filter fun y => id y != id x).findSome? f = ys.findSome? f := by
    intro x ys hx
    induction ys with
    | nil => rfl
    | cons y ys ih =>
      by_cases hyx : y = x
      · rw [List.filter_cons_of_neg (by simp [hyx]), List.findSome?_cons, hyx, hx]
        exact ih
      · rw [List.filter_cons_of_pos (by simp [hyx]), List.findSome?_cons, List.findSome?_cons, ih]
  induction xs with
  | nil => rfl
  | cons x xs ih =>
    rw [firstsBy, List.findSome?_cons, List.findSome?_cons]
    cases hx : f x with
    | some b => rfl
    | none => exact (hfilter x _ hx).trans ih

/-- The streams that are read, each by its first leaf. -/
theorem readStreams_eq_firstsBy :
    t.readStreams l = firstsBy id ((t.readLeaves l).map t.textAt) := by
  rw [readStreams, readLeaves]
  cases t.ancestor? .query l with
  | none => rfl
  | some q => rfl

/-- A search over the names of streams is a search over their leaves. -/
theorem findSome?_readStreams {β : Type} (f : String → Option β) :
    (t.readStreams l).findSome? f = (t.readLeaves l).findSome? fun s => f (t.textAt s) := by
  rw [readStreams_eq_firstsBy, findSome?_firstsBy, List.findSome?_map]
  rfl

namespace WellFormed

variable (wf : t.WellFormed)

include wf

/-- The query around a leaf is the nearest query above it. -/
theorem ancestor?_query_iff : t.ancestor? .query l = some q ↔ t.IsQueryAround q l := by
  have hdecreasing := (List.pairwise_cons.mp (wf.ancestors_decreasing (x := l))).2
  rw [ancestor?, find?_isGreatest hdecreasing, IsQueryAround]
  simp only [hasRule, beq_iff_eq, ← wf.above_iff]

/-- The leaves that name the inputs of a query, said by the tree. -/
theorem mem_inputStreamLeaves :
    s ∈ t.inputStreamLeaves q ↔
      ∃ input y, t.parent? input = some q ∧ t.rule? input = some .queryInput ∧
        t.Above input y ∧ t.rule? y = some .streamId ∧ t.StartsWith y s := by
  have hbelow : ∀ {input y : Nat}, t.rule? input = some .queryInput →
      (y ∈ t.descendants .streamId input ↔ t.Above input y ∧ t.rule? y = some .streamId) := by
    intro input y hr
    refine wf.mem_descendants ?_
    rw [hr]
    decide
  rw [inputStreamLeaves, List.mem_filterMap]
  simp only [List.mem_flatMap, List.mem_filter, wf.mem_children, hasRule, beq_iff_eq]
  constructor
  · intro h
    obtain ⟨y, ⟨input, ⟨hp, hr⟩, hy⟩, hs⟩ := h
    obtain ⟨habove, hy⟩ := (hbelow hr).mp hy
    exact ⟨input, y, hp, hr, habove, hy, (wf.firstVisible?_eq_some_iff hy).mp hs⟩
  · intro h
    obtain ⟨input, y, hp, hr, habove, hy, hs⟩ := h
    exact ⟨y, ⟨input, ⟨hp, hr⟩, (hbelow hr).mpr ⟨habove, hy⟩⟩,
      (wf.firstVisible?_eq_some_iff hy).mpr hs⟩

theorem mem_readLeaves : s ∈ t.readLeaves l ↔ t.Reads l s := by
  rw [readLeaves, Reads]
  simp only [← wf.ancestor?_query_iff]
  cases t.ancestor? .query l with
  | none => simp
  | some q =>
    rw [Option.elim_some, wf.mem_inputStreamLeaves]
    simp

/-- These leaves are read in the order of the document. -/
theorem readLeaves_ordered : (t.readLeaves l).Pairwise (· ≤ ·) := by
  rw [readLeaves]
  cases t.ancestor? .query l with
  | none => exact List.Pairwise.nil
  | some q =>
    have hinputs : ((t.children q).filter (t.hasRule .queryInput)).Pairwise (· < ·) :=
      wf.children_increasing.sublist List.filter_sublist
    have hincreasing : (((t.children q).filter (t.hasRule .queryInput)).flatMap
        fun c => (t.subtree c).filter (t.hasRule .streamId)).Pairwise (· < ·) := by
      rw [← List.filter_flatMap]
      have hparent : ∀ c ∈ (t.children q).filter (t.hasRule .queryInput), t.parent? c = some q :=
        fun c hc => wf.mem_children.mp (List.mem_filter.mp hc).1
      exact (wf.flatMap_subtree_increasing hinputs hparent).sublist List.filter_sublist
    rw [Option.elim_some, inputStreamLeaves, List.pairwise_filterMap]
    exact hincreasing.imp fun hxy n hn n' hn' => firstVisible?_mono hn hn' (Nat.le_of_lt hxy)

end WellFormed

/-! ## Names and attributes -/

/-- The definition at `x` has the name. -/
def HasName (t : Tree) (name : String) (x : NodeId) : Prop :=
  ∃ n, t.NamedBy x n ∧ t.textAt n = name

/-- The leaf `n` is the first that names such an attribute of the definition at
`x`. -/
def FirstAttribute (t : Tree) (x : NodeId) (name : String) (n : NodeId) : Prop :=
  IsLeast {m | t.HasAttribute x m ∧ t.textAt m = name} n

/-- The first definition of `stream` has the attribute `name`, at the leaf `n`. -/
def Offers (t : Tree) (stream name : String) (n : NodeId) : Prop :=
  ∃ x, t.FirstDefinition (t.HasName stream) x ∧ t.FirstAttribute x name n

/-- Of the streams that are read around `l`, the first that has the attribute `name`
has it at the leaf `n`. -/
def OfferedByRead (t : Tree) (l : NodeId) (name : String) (n : NodeId) : Prop :=
  ∃ s, IsLeast {s | t.Reads l s ∧ ∃ m, t.Offers (t.textAt s) name m} s ∧
    t.Offers (t.textAt s) name n

/-- The first definition that has the attribute `name` has it at the leaf `n`. -/
def OfferedBySome (t : Tree) (name : String) (n : NodeId) : Prop :=
  ∃ x, t.FirstDefinition (fun y => ∃ m, t.HasAttribute y m ∧ t.textAt m = name) x ∧
    t.FirstAttribute x name n

theorem exists_hasAttribute {P : NodeId → Prop}
    (h : ∃ x, t.FirstDefinition P x ∧ t.FirstAttribute x name n) :
    ∃ x m, t.NamedBy x m ∧ t.HasAttribute x n ∧ t.textAt n = name := by
  obtain ⟨x, ⟨⟨m, hm⟩, -⟩, hn, -⟩ := h
  exact ⟨x, m, hm, hn⟩

theorem exists_offeredByRead_iff :
    (∃ n, t.OfferedByRead l name n) ↔ ∃ s n, t.Reads l s ∧ t.Offers (t.textAt s) name n := by
  classical
  constructor
  · rintro ⟨n, s, hs, hn⟩
    exact ⟨s, n, hs.1.1, hn⟩
  · rintro ⟨s, n, hs, hn⟩
    have hexists : ∃ s, t.Reads l s ∧ ∃ m, t.Offers (t.textAt s) name m := ⟨s, hs, n, hn⟩
    obtain ⟨m, hm⟩ := (Nat.find_spec hexists).2
    exact ⟨m, Nat.find hexists, Nat.isLeast_find hexists, hm⟩

namespace WellFormed

variable (wf : t.WellFormed) {d : Definition}

include wf

/-- A name is looked up to the first definition of the document that has it. -/
theorem definition?_eq_some_iff :
    t.catalog.definition? name = some d ↔
      ∃ x, t.FirstDefinition (t.HasName name) x ∧ t.definitionAt? x = some d := by
  have hname : ∀ x d, t.definitionAt? x = some d → (d.name = name ↔ t.HasName name x) := by
    intro x d hd
    obtain ⟨hn, hd⟩ := wf.namedBy_of_definitionAt? hd
    rw [hd]
    refine ⟨fun h => ⟨d.node, hn, h⟩, fun h => ?_⟩
    obtain ⟨m, hm, h⟩ := h
    rw [wf.namedBy_unique hn hm, h]
  have hguard : ∀ x d, t.definitionAt? x = some d →
      ((Option.guard (fun d => d.name == name) d).isSome = true ↔ t.HasName name x) := by
    intro x d hd
    rw [Option.isSome_guard, beq_iff_eq, hname x d hd]
  rw [Catalog.definition?, ← List.findSome?_guard, wf.findSome?_catalog hguard]
  simp only [Option.guard_eq_some_iff]
  refine exists_congr fun x => ⟨fun h => ?_, fun h => ?_⟩
  · obtain ⟨e, hx, hd, rfl, -⟩ := h
    exact ⟨hx, hd⟩
  · obtain ⟨hx, hd⟩ := h
    exact ⟨d, hx, hd, rfl, beq_iff_eq.mpr ((hname x d hd).mpr hx.2.1)⟩

/-- A name is not found exactly if no definition has it. -/
theorem definition?_eq_none_iff :
    t.catalog.definition? name = none ↔ ∀ x n, t.NamedBy x n → t.textAt n ≠ name := by
  rw [Catalog.definition?, List.find?_eq_none]
  refine ⟨fun h x n hn heq => ?_, fun h d hd heq => ?_⟩
  · obtain ⟨d, hd, rfl⟩ := wf.exists_definitionAt? hn
    refine h d (wf.mem_catalog.mpr ⟨x, hd⟩) (beq_iff_eq.mpr ?_)
    rw [(wf.namedBy_of_definitionAt? hd).2, heq]
  · obtain ⟨x, hd⟩ := wf.mem_catalog.mp hd
    obtain ⟨hn, hname⟩ := wf.namedBy_of_definitionAt? hd
    exact h x d.node hn (hname.symm.trans (beq_iff_eq.mp heq))

/-- A name refers to the least leaf that names a definition so. -/
theorem definition?_isLeast :
    (t.catalog.definition? name).map (·.node) = some n ↔
      IsLeast {m | ∃ x, t.NamedBy x m ∧ t.textAt m = name} n := by
  have hleast : ∀ d, t.catalog.definition? name = some d →
      IsLeast {m | ∃ x, t.NamedBy x m ∧ t.textAt m = name} d.node := by
    intro d hd
    obtain ⟨x, ⟨-, ⟨n, hn, hname⟩, hfirst⟩, hd⟩ := wf.definition?_eq_some_iff.mp hd
    obtain rfl : n = d.node := wf.namedBy_unique hn (wf.namedBy_of_definitionAt? hd).1
    refine ⟨⟨x, hn, hname⟩, ?_⟩
    rintro m ⟨y, hm, hname'⟩
    rcases hfirst y m hm ⟨m, hm, hname'⟩ with rfl | hbefore
    · exact Nat.le_of_eq (wf.namedBy_unique hn hm)
    · exact wf.le_of_definedBefore hbefore hn hm
  rw [Option.map_eq_some_iff]
  constructor
  · rintro ⟨d, hd, rfl⟩
    exact hleast d hd
  · intro h
    cases hd : t.catalog.definition? name with
    | none =>
      obtain ⟨x, hn, hname⟩ := h.1
      exact absurd hname (wf.definition?_eq_none_iff.mp hd x n hn)
    | some d => exact ⟨d, rfl, (hleast d hd).unique h⟩

/-- A definition has an attribute exactly if a leaf in it has the name. -/
theorem attribute?_isSome_iff (h : t.definitionAt? x = some d) :
    (d.attribute? name).isSome = true ↔ ∃ m, t.HasAttribute x m ∧ t.textAt m = name := by
  classical
  rw [← Option.isSome_map (f := (·.node)), Option.isSome_iff_exists]
  simp only [wf.attribute?_isLeast h]
  exact ⟨fun h => ⟨h.choose, h.choose_spec.1⟩, fun h => ⟨Nat.find h, Nat.isLeast_find h⟩⟩

theorem offers_iff :
    t.Offers stream name n ↔
      ((t.catalog.definition? stream).bind (·.attribute? name)).map (·.node) = some n := by
  rw [Offers]
  constructor
  · rintro ⟨x, hx, hn⟩
    obtain ⟨m, hm⟩ := hx.1
    obtain ⟨d, hd, -⟩ := wf.exists_definitionAt? hm
    rw [wf.definition?_eq_some_iff.mpr ⟨x, hx, hd⟩, Option.bind_some]
    exact (wf.attribute?_isLeast hd).mpr hn
  · intro h
    obtain ⟨a, ha, rfl⟩ := Option.map_eq_some_iff.mp h
    obtain ⟨d, hd, ha⟩ := Option.bind_eq_some_iff.mp ha
    obtain ⟨x, hx, hd⟩ := wf.definition?_eq_some_iff.mp hd
    exact ⟨x, hx, (wf.attribute?_isLeast hd).mp (by rw [ha]; rfl)⟩

theorem offeredBySome_iff :
    t.OfferedBySome name n ↔
      (t.catalog.definitions.findSome? (·.attribute? name)).map (·.node) = some n := by
  have hsome : ∀ x d, t.definitionAt? x = some d →
      (((d.attribute? name).map (·.node)).isSome = true ↔
        ∃ m, t.HasAttribute x m ∧ t.textAt m = name) := by
    intro x d hd
    rw [Option.isSome_map, wf.attribute?_isSome_iff hd]
  rw [List.map_findSome?]
  refine Iff.trans ?_ (wf.findSome?_catalog hsome).symm
  refine exists_congr fun x => ⟨fun h => ?_, fun h => ?_⟩
  · obtain ⟨hx, hn⟩ := h
    obtain ⟨m, hm⟩ := hx.1
    obtain ⟨d, hd, -⟩ := wf.exists_definitionAt? hm
    exact ⟨d, hx, hd, (wf.attribute?_isLeast hd).mpr hn⟩
  · obtain ⟨d, hx, hd, hn⟩ := h
    exact ⟨hx, (wf.attribute?_isLeast hd).mp hn⟩

/-- The streams that are read are asked in the order of their leaves. -/
theorem offeredByRead_iff :
    t.OfferedByRead l name n ↔
      ((t.catalog.attributesOf (t.readStreams l)).find? fun a => a.name == name).map (·.node) =
        some n := by
  rw [Catalog.find?_attributesOf, findSome?_readStreams, List.map_findSome?,
    findSome?_isLeast wf.readLeaves_ordered]
  simp only [Function.comp_def, ← wf.offers_iff, Option.isSome_iff_exists, wf.mem_readLeaves]
  rfl

/-- An attribute is looked up in the streams that are read, and only then in all
others. -/
theorem attribute?_eq_some_iff :
    (t.catalog.attribute? (t.readStreams l) name).map (·.node) = some n ↔
      t.OfferedByRead l name n ∨
        (∀ s m, t.Reads l s → ¬ t.Offers (t.textAt s) name m) ∧ t.OfferedBySome name n := by
  have hnone : ((t.catalog.attributesOf (t.readStreams l)).find?
      fun a => a.name == name).map (·.node) = none ↔
      ∀ s m, t.Reads l s → ¬ t.Offers (t.textAt s) name m := by
    rw [Option.eq_none_iff_forall_ne_some]
    simp only [ne_eq, ← wf.offeredByRead_iff, ← not_exists, exists_offeredByRead_iff]
    simp only [not_exists, not_and]
  rw [Catalog.attribute?, Option.map_or, Option.or_eq_some_iff, ← wf.offeredByRead_iff,
    ← wf.offeredBySome_iff, hnone]

/-- An attribute is not found exactly if no definition has it. -/
theorem attribute?_eq_none_iff :
    t.catalog.attribute? (t.readStreams l) name = none ↔
      ∀ x m n, t.NamedBy x m → t.HasAttribute x n → t.textAt n ≠ name := by
  refine ⟨fun h x m n hm hn hname => ?_, fun h => ?_⟩
  · rw [Catalog.attribute?, Option.or_eq_none_iff, List.findSome?_eq_none_iff] at h
    obtain ⟨d, hd, -⟩ := wf.exists_definitionAt? hm
    have hsome := (wf.attribute?_isSome_iff hd).mpr ⟨n, hn, hname⟩
    rw [h.2 d (wf.mem_catalog.mpr ⟨x, hd⟩)] at hsome
    cases hsome
  · rw [← Option.map_eq_none_iff, Option.eq_none_iff_forall_ne_some]
    intro n hn
    rcases wf.attribute?_eq_some_iff.mp hn with hread | ⟨-, hsome⟩
    · obtain ⟨s, -, hn⟩ := hread
      obtain ⟨x, m, hm, hn, hname⟩ := exists_hasAttribute hn
      exact h x m n hm hn hname
    · obtain ⟨x, m, hm, hn, hname⟩ := exists_hasAttribute hsome
      exact h x m n hm hn hname

end WellFormed

/-! ## Roles -/

/-- The role is that of a stream or a target, which are known by the names of
definitions. -/
def NamesDefinition (role? : Option Role) : Prop := role? = some .streamId ∨ role? = some .target

theorem role_cases (role? : Option Role) :
    role? = none ∨ NamesDefinition role? ∨ role? = some .attributeName := by
  cases role? with
  | none => exact Or.inl rfl
  | some role =>
    cases role with
    | streamId => exact Or.inr (Or.inl (Or.inl rfl))
    | target => exact Or.inr (Or.inl (Or.inr rfl))
    | attributeName => exact Or.inr (Or.inr rfl)

theorem NamesDefinition.ne_attributeName {role? : Option Role} (h : NamesDefinition role?) :
    role? ≠ some .attributeName := by
  rcases h with rfl | rfl <;> decide

/-- The role of a leaf. -/
def roleAt? (t : Tree) (leaf : NodeId) : Option Role :=
  if t.kindAt leaf == .identifier then
    if t.isWithin .target leaf && !t.isWithin .updateOrInsertInto leaf &&
        (t.prevVisible? leaf).any fun before => t.kindAt before == .keyword .into then
      some .streamId
    else t.roleByAncestry? leaf
  else none

/-- The role of a leaf is never refused. -/
theorem role?_eq (h : t.isLeaf l = true) : t.role? l = .ok (t.roleAt? l) := by
  obtain ⟨tok, htok⟩ := isLeaf_iff.mp h
  have hinto : t.isIntoTarget l =
      .ok (t.isWithin .target l && !t.isWithin .updateOrInsertInto l &&
        (t.prevVisible? l).any fun before => t.kindAt before == .keyword .into) := by
    rw [isIntoTarget, follows_eq]
    cases t.isWithin .target l && !t.isWithin .updateOrInsertInto l <;> rfl
  simp only [role?, token_of_token? htok, hinto, roleAt?, kindAt_of_token? htok, bind, Except.bind,
    pure, Except.pure]
  split <;> rfl

/-- An identifier inside a stream name has a role, which is that of an attribute
only inside an attribute name and an attribute reference, outside targets. -/
theorem roleAt?_of_streamId (hkind : t.kindAt l = .identifier)
    (hstream : t.isWithin .streamId l = true)
    (hplace : t.isWithin .attributeName l = true → t.isWithin .attributeReference l = true →
      t.isWithin .target l = true) :
    NamesDefinition (t.roleAt? l) := by
  rw [roleAt?, hkind, beq_self_eq_true, if_pos rfl, roleByAncestry?, hstream]
  split
  · exact Or.inl rfl
  · cases htarget : t.isWithin .target l with
    | true => exact Or.inr rfl
    | false =>
      rw [htarget] at hplace
      have hnot : (t.isWithin .attributeName l && t.isWithin .attributeReference l) = false := by
        rw [← Bool.not_eq_true, Bool.and_eq_true]
        exact fun h => absurd (hplace h.1 h.2) Bool.false_ne_true
      rw [hnot]
      exact Or.inl rfl

/-! ## Resolution -/

/-- The leaf that a leaf refers to. -/
def referenceAt? (t : Tree) (leaf : NodeId) : Option NodeId :=
  match t.roleAt? leaf with
  | none => none
  | some .attributeName =>
    (t.catalog.attribute? (t.readStreams leaf) (t.textAt leaf)).map (·.node)
  | some _ => (t.catalog.definition? (t.textAt leaf)).map (·.node)

/-- Neither is the definition that a leaf refers to. -/
theorem resolve?_eq (h : t.isLeaf l = true) : t.catalog.resolve? t l = .ok (t.referenceAt? l) := by
  obtain ⟨tok, htok⟩ := isLeaf_iff.mp h
  rw [Catalog.resolve?, role?_eq h, referenceAt?]
  simp only [bind, Except.bind, token_of_token? htok, inputStreams_eq, textAt_of_token? htok]
  cases t.roleAt? l with
  | none => rfl
  | some role => cases role <;> rfl

theorem referenceAt?_of_namesDefinition (h : NamesDefinition (t.roleAt? l)) :
    t.referenceAt? l = (t.catalog.definition? (t.textAt l)).map (·.node) := by
  rw [referenceAt?]
  rcases h with h | h <;> rw [h]

theorem referenceAt?_of_attribute (h : t.roleAt? l = some .attributeName) :
    t.referenceAt? l = (t.catalog.attribute? (t.readStreams l) (t.textAt l)).map (·.node) := by
  rw [referenceAt?, h]

/-- What a leaf `l` of the role `role?` refers to. -/
structure Resolution (t : Tree) (c : Catalog) (l : NodeId) (role? : Option Role)
    (target? : Option NodeId) : Prop where
  /-- A leaf without a role refers to nothing. -/
  ofNone : role? = none → target? = none
  /-- A leaf refers to a leaf with its text in a definition, which names the definition
  or, for the role of an attribute, an attribute of it. -/
  sound : ∀ n, target? = some n →
    t.isLeaf n = true ∧ t.textAt n = t.textAt l ∧
      ∃ x, t.IsDefinition x ∧ t.Above x n ∧
        (NamesDefinition role? → t.NamedBy x n) ∧
        (role? = some .attributeName → t.HasAttribute x n)
  /-- A stream or target refers to the least leaf that names a definition with its
  text. -/
  ofName : NamesDefinition role? →
    ∀ n, target? = some n ↔ IsLeast {m | ∃ x, t.NamedBy x m ∧ t.textAt m = t.textAt l} n
  /-- It refers to nothing only if no definition has the name. -/
  ofName_none : NamesDefinition role? →
    (target? = none ↔ ∀ x n, t.NamedBy x n → t.textAt n ≠ t.textAt l)
  /-- An attribute is that of the first stream read around it which has it, and else
  that of the first definition which has it. -/
  ofAttribute : role? = some .attributeName →
    ∀ n, target? = some n ↔
      t.OfferedByRead l (t.textAt l) n ∨
        (∀ s m, t.Reads l s → ¬ t.Offers (t.textAt s) (t.textAt l) m) ∧
          t.OfferedBySome (t.textAt l) n
  /-- It refers to nothing only if no definition has it. -/
  ofAttribute_none : role? = some .attributeName →
    (target? = none ↔ ∀ x m n, t.NamedBy x m → t.HasAttribute x n → t.textAt n ≠ t.textAt l)
  /-- Streams and targets of one text refer to one leaf. -/
  shared : NamesDefinition role? →
    ∀ l' role', t.isLeaf l' = true → t.role? l' = .ok role' → NamesDefinition role' →
      t.textAt l' = t.textAt l → c.resolve? t l' = .ok target?
  /-- The leaf that a stream or target refers to refers to itself, if it is an
  identifier and has not the place of an attribute. -/
  stable : NamesDefinition role? →
    ∀ n, target? = some n → t.IsOfKind .identifier n →
      (t.Under .attributeName n → t.Under .attributeReference n → t.Under .target n) →
      c.resolve? t n = .ok (some n)

/-- Leaves with one text that name definitions refer to the same definition. -/
theorem referenceAt?_shared {l' : Nat} (hrole : NamesDefinition (t.roleAt? l))
    (hrole' : NamesDefinition (t.roleAt? l')) (htext : t.textAt l' = t.textAt l) :
    t.referenceAt? l' = t.referenceAt? l := by
  rw [referenceAt?_of_namesDefinition hrole, referenceAt?_of_namesDefinition hrole', htext]

namespace WellFormed

variable (wf : t.WellFormed)

include wf

/-- A stream name refers to a definition of this name. -/
theorem sound_of_namesDefinition (hrole : NamesDefinition (t.roleAt? l))
    (h : t.referenceAt? l = some n) : ∃ x, t.NamedBy x n ∧ t.textAt n = t.textAt l := by
  rw [referenceAt?_of_namesDefinition hrole, wf.definition?_isLeast] at h
  exact h.1

/-- An attribute name refers to an attribute of this name. -/
theorem sound_of_attribute (hrole : t.roleAt? l = some .attributeName)
    (h : t.referenceAt? l = some n) :
    ∃ x m, t.NamedBy x m ∧ t.HasAttribute x n ∧ t.textAt n = t.textAt l := by
  rw [referenceAt?_of_attribute hrole, wf.attribute?_eq_some_iff] at h
  rcases h with hread | ⟨-, hsome⟩
  · obtain ⟨s, -, hn⟩ := hread
    exact exists_hasAttribute hn
  · exact exists_hasAttribute hsome

theorem resolution : t.Resolution t.catalog l (t.roleAt? l) (t.referenceAt? l) where
  ofNone h := by rw [referenceAt?, h]
  sound n h := by
    rcases role_cases (t.roleAt? l) with hrole | hrole | hrole
    · rw [referenceAt?, hrole] at h
      cases h
    · obtain ⟨x, hn, htext⟩ := wf.sound_of_namesDefinition hrole h
      exact ⟨isLeaf_of_isVisible hn.isVisible, htext, x, hn.1, hn.above, fun _ => hn,
        fun hattribute => absurd hattribute hrole.ne_attributeName⟩
    · obtain ⟨x, m, hm, hn, htext⟩ := wf.sound_of_attribute hrole h
      exact ⟨isLeaf_of_isVisible hn.isVisible, htext, x, hm.1, hn.above,
        fun hname => absurd hrole hname.ne_attributeName, fun _ => hn⟩
  ofName hrole n := by rw [referenceAt?_of_namesDefinition hrole, wf.definition?_isLeast]
  ofName_none hrole := by
    rw [referenceAt?_of_namesDefinition hrole, Option.map_eq_none_iff, wf.definition?_eq_none_iff]
  ofAttribute hrole n := by rw [referenceAt?_of_attribute hrole, wf.attribute?_eq_some_iff]
  ofAttribute_none hrole := by
    rw [referenceAt?_of_attribute hrole, Option.map_eq_none_iff, wf.attribute?_eq_none_iff]
  shared hrole l' role' hleaf hrole' hname htext := by
    rw [role?_eq hleaf] at hrole'
    rw [← Except.ok.inj hrole'] at hname
    rw [resolve?_eq hleaf, referenceAt?_shared hrole hname htext]
  stable hrole n h hkind hplace := by
    obtain ⟨x, hn, htext⟩ := wf.sound_of_namesDefinition hrole h
    have hleaf := isLeaf_of_isVisible hn.isVisible
    simp only [← wf.isWithin_iff] at hplace
    have hname : NamesDefinition (t.roleAt? n) := roleAt?_of_streamId
      ((isOfKind_iff hleaf).mp hkind) (wf.isWithin_iff.mpr hn.under_streamId) hplace
    rw [resolve?_eq hleaf, referenceAt?_shared hrole hname htext, h]

end WellFormed

/-- In every tree a leaf refers to the definition or attribute that its role, its
text and its place single out. -/
theorem ofSteps_resolution {steps : List Step} (h : ofSteps steps = .ok t) :
    ∃ c, Catalog.ofTree t = .ok c ∧
      ∀ l, t.isLeaf l = true →
        ∃ role? target?, t.role? l = .ok role? ∧ c.resolve? t l = .ok target? ∧
          t.Resolution c l role? target? := by
  have wf := (document_of_ofSteps h).toWellFormed
  refine ⟨t.catalog, ofTree_eq, fun l hl => ?_⟩
  exact ⟨t.roleAt? l, t.referenceAt? l, role?_eq hl, resolve?_eq hl, wf.resolution⟩

/-- A query that reads `S` and `T` and selects `a`.  `S` is defined twice, first
without attributes and then with `a`, and `T` is defined with `a`. -/
def lateAttribute : List Step :=
  [.openNode .siddhiApp,
    .openNode .definitionStream, .openNode .streamId, .text "S", .closeNode, .closeNode,
    .openNode .definitionStream, .openNode .streamId, .text "S", .closeNode,
    .openNode .attributeName, .text "a", .closeNode, .closeNode,
    .openNode .definitionStream, .openNode .streamId, .text "T", .closeNode,
    .openNode .attributeName, .text "a", .closeNode, .closeNode,
    .openNode .query, .openNode .queryInput,
    .openNode .streamId, .text "S", .closeNode, .text " ",
    .openNode .streamId, .text "T", .closeNode, .closeNode,
    .openNode .attributeReference, .openNode .attributeName, .text "a", .closeNode, .closeNode,
    .closeNode, .closeNode]

theorem ofSteps_resolution_lateAttribute :
    ∃ t c, ofSteps lateAttribute = .ok t ∧ Catalog.ofTree t = .ok c ∧
      c.resolve? t 23 = .ok (some 13) ∧ t.Resolution c 23 (some .attributeName) (some 13) := by
  have h : ofSteps lateAttribute = .ok (Draft.empty.run lateAttribute).tree := rfl
  have hcatalog : Catalog.ofTree (Draft.empty.run lateAttribute).tree =
      .ok ⟨[⟨"S", .stream, [], 3⟩, ⟨"S", .stream, [⟨"a", none, 8⟩], 6⟩,
        ⟨"T", .stream, [⟨"a", none, 13⟩], 11⟩]⟩ := by
    have hfound : (Catalog.definitionNodes (Draft.empty.run lateAttribute).tree).mapM
        (Definition.ofNode? (Draft.empty.run lateAttribute).tree) =
        .ok [some ⟨"S", .stream, [], 3⟩, some ⟨"S", .stream, [⟨"a", none, 8⟩], 6⟩,
          some ⟨"T", .stream, [⟨"a", none, 13⟩], 11⟩] := by decide
    exact ofTree_of_sorted hfound (by decide)
  have hresolve : Catalog.resolve? ⟨[⟨"S", .stream, [], 3⟩, ⟨"S", .stream, [⟨"a", none, 8⟩], 6⟩,
      ⟨"T", .stream, [⟨"a", none, 13⟩], 11⟩]⟩ (Draft.empty.run lateAttribute).tree 23 =
      .ok (some 13) := by decide
  have hrole : (Draft.empty.run lateAttribute).tree.role? 23 = .ok (some .attributeName) := by
    decide
  obtain ⟨c, hc, hall⟩ := ofSteps_resolution h
  cases hc.symm.trans hcatalog
  obtain ⟨role?, target?, hrole', htarget, hres⟩ := hall 23 (by decide)
  cases hrole'.symm.trans hrole
  cases htarget.symm.trans hresolve
  exact ⟨_, _, h, hcatalog, hresolve, hres⟩

end Tree

end SiddhiEditor
