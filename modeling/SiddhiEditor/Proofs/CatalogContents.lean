import SiddhiEditor.Proofs.CatalogOrder
import SiddhiEditor.Proofs.Construction

/-!
# What a catalog contains

A catalog is put together rule by rule and then sorted by the leaves of the names.
The nodes of the three rules are all definition nodes, each of them once, so the
catalog has what every definition node yields and nothing else (`catalog_perm`).

When no definition lies inside of another, the name of a definition comes before the
next definition begins (`lt_of_namedBy`).  Then the order of the names is that of the
nodes, and the catalog lists the definitions as they stand in the table.
-/

namespace SiddhiEditor

/-- A sorted arrangement of a list with increasing keys is the list itself. -/
theorem eq_of_perm_of_increasing {α : Type} {key : α → Nat} {xs ys : List α} (h : xs.Perm ys)
    (hxs : xs.Pairwise fun a b => key a ≤ key b) (hys : ys.Pairwise fun a b => key a < key b) :
    xs = ys := by
  have hkeys : (ys.map key).Nodup := List.pairwise_map.mpr (hys.imp Nat.ne_of_lt)
  have hsorted : ys.Pairwise fun a b => key a ≤ key b := hys.imp Nat.le_of_lt
  refine List.Perm.eq_of_pairwise ?_ hxs hsorted h
  intro a b ha hb hab hba
  exact List.inj_on_of_nodup_map hkeys (h.mem_iff.mp ha) hb (Nat.le_antisymm hab hba)

namespace Tree

variable {t : Tree} {x y n : Nat} {d : Definition}

/-- The definition nodes in the order of the table. -/
def definitionRows (t : Tree) : List NodeId :=
  (List.range t.size).filter fun x => (t.rule? x).any Rule.isDefinition

theorem mem_definitionRows : x ∈ t.definitionRows ↔ t.IsDefinition x := by
  rw [definitionRows, List.mem_filter, List.mem_range, IsDefinition]
  constructor
  · intro h
    obtain ⟨r, hr, hdefinition⟩ := (Option.any_eq_true _ _).mp h.2
    exact ⟨r, by simpa [Rule.isDefinition] using hdefinition, hr⟩
  · intro h
    obtain ⟨r, hmem, hr⟩ := h
    exact ⟨lt_size_of_rule? hr, by simpa [hr, Rule.isDefinition] using hmem⟩

theorem definitionRows_increasing : t.definitionRows.Pairwise (· < ·) :=
  List.pairwise_lt_range.sublist List.filter_sublist

theorem catalog_sorted : t.catalog.definitions.Pairwise fun d e => d.node ≤ e.node := by
  have hsorted := List.pairwise_mergeSort (key_trans Definition.node) (key_total Definition.node)
    ((Catalog.definitionNodes t).filterMap t.definitionAt?)
  exact hsorted.imp fun h => of_decide_eq_true h

namespace WellFormed

variable (wf : t.WellFormed)

include wf

theorem text_of_isVisible (h : t.isVisible n = true) : t.text n = t.textAt n := by
  obtain ⟨tok, htok, -⟩ := isVisible_iff.mp h
  rw [text, wf.subtree_of_isLeaf (isLeaf_of_isVisible h), textAt_of_token? htok]
  simp [htok]

/-- Every definition node is listed once. -/
theorem definitionNodes_perm : (Catalog.definitionNodes t).Perm t.definitionRows := by
  have hnodes : (Catalog.definitionNodes t).Nodup := by
    refine definitionNodes_listed.imp fun hxy heq => ?_
    subst heq
    exact hxy.asymm hxy
  have hrows : t.definitionRows.Nodup := definitionRows_increasing.imp Nat.ne_of_lt
  apply (List.perm_ext_iff_of_nodup hnodes hrows).mpr
  intro x
  rw [wf.mem_definitionNodes, mem_definitionRows]

/-- The catalog has what the definition nodes yield. -/
theorem catalog_perm :
    t.catalog.definitions.Perm (t.definitionRows.filterMap t.definitionAt?) :=
  (List.mergeSort_perm _ _).trans (wf.definitionNodes_perm.filterMap _)

/-- The name of a definition comes before every later node that is not inside of the
definition. -/
theorem lt_of_namedBy (hn : t.NamedBy x n) (hxy : x < y) (hy : x ∉ t.ancestors y) : n < y := by
  obtain ⟨-, hcov⟩ := wf.above_iff_covers.mp hn.above
  by_contra hge
  have hinside : t.Covers x y := hcov.mono (Nat.le_of_lt hxy) (Nat.not_lt.mp hge)
  exact hy (wf.mem_ancestors_iff.mpr ⟨hxy, hinside⟩)

/-- Definitions that are not nested have their names in the order of the table. -/
theorem definitions_increasing
    (hflat : ∀ x y, t.IsDefinition x → t.IsDefinition y → x ∉ t.ancestors y) :
    (t.definitionRows.filterMap t.definitionAt?).Pairwise fun d e => d.node < e.node := by
  rw [List.pairwise_filterMap]
  refine definitionRows_increasing.imp_of_mem fun hx hy hxy d hd e he => ?_
  obtain ⟨hname, -⟩ := wf.namedBy_of_definitionAt? hd
  obtain ⟨hname', -⟩ := wf.namedBy_of_definitionAt? he
  have hbefore := wf.lt_of_namedBy hname hxy
    (hflat _ _ (mem_definitionRows.mp hx) (mem_definitionRows.mp hy))
  exact Nat.lt_trans hbefore (wf.above_iff_covers.mp hname'.above).1

theorem name_eq (h : d ∈ t.catalog.definitions) :
    t.isVisible d.node = true ∧ d.name = t.text d.node := by
  obtain ⟨x, hd⟩ := wf.mem_catalog.mp h
  obtain ⟨hn, hname⟩ := wf.namedBy_of_definitionAt? hd
  rw [hname, wf.text_of_isVisible hn.isVisible]
  exact ⟨hn.isVisible, rfl⟩

theorem attribute_name_eq {a : Attribute} (h : d ∈ t.catalog.definitions) (ha : a ∈ d.attributes) :
    t.isVisible a.node = true ∧ a.name = t.text a.node := by
  obtain ⟨x, hd⟩ := wf.mem_catalog.mp h
  have hx := (wf.namedBy_of_definitionAt? hd).1.1
  obtain ⟨kind, leaf, -, -, rfl⟩ := definitionAt?_eq_some_iff.mp hd
  obtain ⟨⟨y, n⟩, hmem, rfl⟩ := List.mem_map.mp ha
  obtain ⟨-, -, hn⟩ := (wf.mem_attributeNames hx).mp hmem
  exact ⟨hn.1.2, (wf.text_of_isVisible hn.1.2).symm⟩

end WellFormed

/-- A catalog lists what has been found at the definition nodes. -/
structure Lists (t : Tree) (found : List (Option Definition)) (c : Catalog) : Prop where
  /-- Every definition that has been found is there once. -/
  perm : c.definitions.Perm (found.filterMap id)
  /-- The definitions come in the order of the leaves of their names. -/
  sorted : c.definitions.Pairwise fun d e => d.node ≤ e.node
  /-- A definition has the name that its leaf shows. -/
  name : ∀ d ∈ c.definitions, t.isVisible d.node = true ∧ d.name = t.text d.node
  /-- An attribute has the name that its leaf shows. -/
  attribute_name : ∀ d ∈ c.definitions, ∀ a ∈ d.attributes,
    t.isVisible a.node = true ∧ a.name = t.text a.node
  /-- Definitions that are not nested come in the order of the table. -/
  in_order : (∀ x y, t.IsDefinition x → t.IsDefinition y → x ∉ t.ancestors y) →
    c.definitions = found.filterMap id

/-- Every finished tree has a catalog, and it lists what the definition nodes yield. -/
theorem ofSteps_catalog {steps : List Step} (h : ofSteps steps = .ok t) :
    ∃ found c, t.definitionRows.mapM (Definition.ofNode? t) = .ok found ∧
      Catalog.ofTree t = .ok c ∧ t.Lists found c := by
  have wf := (document_of_ofSteps h).toWellFormed
  have hfound : (t.definitionRows.map t.definitionAt?).filterMap id =
      t.definitionRows.filterMap t.definitionAt? := by
    rw [List.filterMap_map]
    rfl
  refine ⟨_, _, mapM_eq_ok fun _ _ => ofNode?_eq, ofTree_eq, ?_⟩
  constructor
  case perm =>
    rw [hfound]
    exact wf.catalog_perm
  case sorted => exact catalog_sorted
  case name => exact fun d hd => wf.name_eq hd
  case attribute_name => exact fun d hd a ha => wf.attribute_name_eq hd ha
  case in_order =>
    intro hflat
    rw [hfound]
    exact eq_of_perm_of_increasing wf.catalog_perm catalog_sorted (wf.definitions_increasing hflat)

/-- A table, a stream that has only a blank for its name, and a stream. -/
def tableAndStreams : List Step :=
  [.openNode .siddhiApp, .openNode .definitionTable, .text "define table ", .openNode .streamId,
    .text "T", .closeNode, .openNode .attributeName, .text "a", .closeNode,
    .openNode .attributeType, .text "Int", .closeNode, .closeNode, .openNode .definitionStream,
    .openNode .streamId, .text " ", .closeNode, .closeNode, .openNode .definitionStream,
    .openNode .streamId, .text "S", .closeNode, .closeNode, .closeNode]

theorem ofSteps_catalog_tableAndStreams :
    ∃ t c, ofSteps tableAndStreams = .ok t ∧ Catalog.ofTree t = .ok c ∧
      c.definitions = [⟨"T", .table, [⟨"a", some .int, 9⟩], 7⟩, ⟨"S", .stream, [], 17⟩] := by
  have h : ofSteps tableAndStreams = .ok (Draft.empty.run tableAndStreams).tree := rfl
  obtain ⟨found, c, hfound, hc, hlists⟩ := ofSteps_catalog h
  have hrows : (Draft.empty.run tableAndStreams).tree.definitionRows = [1, 12, 15] := rfl
  have hread : [1, 12, 15].mapM (Definition.ofNode? (Draft.empty.run tableAndStreams).tree) =
      .ok [some ⟨"T", .table, [⟨"a", some .int, 9⟩], 7⟩, none, some ⟨"S", .stream, [], 17⟩] := by
    decide
  have hflat : ∀ x ∈ [1, 12, 15], ∀ y ∈ [1, 12, 15],
      x ∉ (Draft.empty.run tableAndStreams).tree.ancestors y := by
    decide
  rw [hrows, hread] at hfound
  cases hfound
  refine ⟨_, c, h, hc, hlists.in_order fun x y hx hy => ?_⟩
  rw [← mem_definitionRows, hrows] at hx hy
  exact hflat x hx y hy

end Tree

end SiddhiEditor
