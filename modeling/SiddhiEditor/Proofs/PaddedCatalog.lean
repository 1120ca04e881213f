import SiddhiEditor.Proofs.CatalogOrder
import SiddhiEditor.Proofs.PaddedCompletion

/-!
# What trivia changes in the catalog

A blank run or a comment is put into a document, anywhere a node is open.  The
catalog lists the same definitions with the same attributes, under new numbers.
Only the types of attributes may change.  A type is read from all the text of its
node, and so the new text is read as a part of the type if it lies in that node.

The catalog is therefore kept exactly if every type node around the new text is read
as before (`catalog_of_padded`).  The marks of a comment are part of no type.  A text
with such a mark changes the catalog exactly if it lies in the type of an attribute
that has one.

The proof has three parts.  Two catalogs whose entries have the same leaves agree
exactly if the entries agree one by one (`mergeSort_map_eq_iff`).  Entries differ by
the types of their attributes only (`reread_eq_moved_iff`).  And the text of a node is
that before the new row, the new text if it lies in the node, and that behind
(`text_of_covers`, `text_of_not_covers`).
-/

namespace SiddhiEditor

open SiddhiEditor.Tree

/-! ## Texts -/

namespace Tree

variable {t : Tree} {x y z : Nat}

/-- The text of some rows, in their order. -/
def textOf (t : Tree) (rows : List NodeId) : String :=
  String.join (rows.filterMap fun y => (t.token? y).map (·.text))

/-- The text that `x` covers in front of the row `m`. -/
def textBefore (t : Tree) (m x : NodeId) : String := t.textOf ((t.subtree x).filter (· < m))

/-- The text that `x` covers from the row `m` on. -/
def textFrom (t : Tree) (m x : NodeId) : String := t.textOf ((t.subtree x).filter (m ≤ ·))

theorem textOf_append (rows rows' : List NodeId) :
    t.textOf (rows ++ rows') = t.textOf rows ++ t.textOf rows' := by
  rw [textOf, List.filterMap_append, String.join_append]
  rfl

theorem textOf_cons (x : NodeId) (rows : List NodeId) :
    t.textOf (x :: rows) = t.textAt x ++ t.textOf rows := by
  rw [textOf, textAt, List.filterMap_cons]
  cases t.token? x with
  | none => exact String.empty_append.symm
  | some tok => exact String.join_cons

end Tree

/-- An increasing list is split by each of its members. -/
theorem eq_filter_lt_append {xs : List Nat} (hxs : xs.Pairwise (· < ·)) {m : Nat} (hm : m ∈ xs) :
    xs = xs.filter (· < m) ++ m :: xs.filter (m < ·) := by
  have hbefore : ∀ x ∈ xs.filter (· < m), x < m := fun x hx =>
    of_decide_eq_true (List.mem_filter.mp hx).2
  have hbehind : ∀ x ∈ xs.filter (m < ·), m < x := fun x hx =>
    of_decide_eq_true (List.mem_filter.mp hx).2
  refine eq_of_increasing hxs ?_ fun x => ?_
  · rw [List.pairwise_append, List.pairwise_cons]
    refine ⟨hxs.filter _, ⟨hbehind, hxs.filter _⟩, fun x hx y hy => ?_⟩
    rcases List.mem_cons.mp hy with rfl | hy
    · exact hbefore x hx
    · exact Nat.lt_trans (hbefore x hx) (hbehind y hy)
  · rw [List.mem_append, List.mem_cons, List.mem_filter, List.mem_filter, decide_eq_true_eq,
      decide_eq_true_eq]
    rcases Nat.lt_trichotomy x m with hlt | rfl | hgt
    · simp [hlt, Nat.ne_of_lt hlt, Nat.le_of_lt hlt]
    · simp [hm]
    · simp [hgt, Nat.ne_of_gt hgt, Nat.le_of_lt hgt]

namespace Tree.Padded

variable {m place width x y z : Nat} {t t' : Tree} (pad : Padded m place width t t')

include pad

theorem textOf_map (rows : List NodeId) : t'.textOf (rows.map (renumber m)) = t.textOf rows := by
  rw [textOf, List.filterMap_map, textOf]
  congr 2
  funext y
  rw [Function.comp_apply, pad.token?_eq, Option.map_map]
  rfl

/-- The new text lies in its parent and in the nodes around that. -/
theorem covers_new_iff {p : Nat} (hp : t'.parent? m = some p) :
    t'.Covers (renumber m z) m ↔ z = p ∨ t.Above z p := by
  have habove : t'.Covers (renumber m z) m ↔ t'.Above (renumber m z) m := by
    rw [pad.doc'.above_iff_covers]
    exact ⟨fun h => ⟨Nat.lt_of_le_of_ne h.1 renumber_ne, h⟩, fun h => h.2⟩
  have hold : renumber m p = p := renumber_of_lt (pad.doc'.parent_lt hp)
  rw [habove, pad.doc'.above_iff, pad.doc'.ancestors_of_parent? hp, ← hold, pad.ancestors_eq,
    List.mem_cons, List.mem_map, renumber_inj, hold, pad.doc.above_iff]
  simp only [renumber_inj, exists_eq_right]

/-- The new text is read with a node that it lies in. -/
theorem text_of_covers (h : t'.Covers (renumber m z) m) :
    t'.text (renumber m z) = t.textBefore m z ++ t'.textAt m ++ t.textFrom m z := by
  change t'.textOf (t'.subtree (renumber m z)) = _
  rw [eq_filter_lt_append subtree_increasing (mem_subtree.mpr h), textOf_append, textOf_cons,
    pad.filter_subtree (by simp), pad.filter_subtree (by simp), pad.textOf_map, pad.textOf_map,
    ← String.append_assoc]
  simp only [renumber_lt_iff, lt_renumber_iff]
  rfl

/-- The new text leaves a node alone that it does not lie in. -/
theorem text_of_not_covers (h : ¬ t'.Covers (renumber m z) m) :
    t'.text (renumber m z) = t.text z := by
  have hself : (t'.subtree (renumber m z)).filter (· != m) = t'.subtree (renumber m z) := by
    refine List.filter_eq_self.mpr fun y hy => ?_
    rw [bne_iff_ne]
    rintro rfl
    exact h (mem_subtree.mp hy)
  have hrows := pad.filter_subtree (q := (· != m)) (by simp) z
  rw [hself, List.filter_eq_self.mpr fun x _ => bne_iff_ne.mpr renumber_ne] at hrows
  change t'.textOf (t'.subtree (renumber m z)) = _
  rw [hrows, pad.textOf_map]
  rfl

end Tree.Padded

/-! ## Types -/

/-- What is not blank is kept when a text is trimmed. -/
theorem Text.mem_trim {text : String} {c : Char} (hc : c ∈ text.toList)
    (hblank : isBlank c = false) : c ∈ (trim text).toList := by
  have hdrop : ∀ cs : List Char, c ∈ cs → c ∈ cs.dropWhile isBlank := by
    intro cs hcs
    rw [← List.takeWhile_append_dropWhile (p := isBlank) (l := cs), List.mem_append] at hcs
    refine hcs.resolve_left fun htake => ?_
    have hall := List.all_eq_true.mp List.all_takeWhile c htake
    rw [hblank] at hall
    cases hall
  rw [trim, String.toList_ofList, List.mem_reverse]
  exact hdrop _ (List.mem_reverse.mpr (hdrop _ hc))

namespace Tree

variable {t : Tree} {x y z : Nat}

/-- The type that a text is read as. -/
def readType (text : String) : Option AttributeType := AttributeType.ofSpelling? (foldedWord text)

/-- `z` is the node of the type of the attribute name `y`: the first type or name
among the siblings behind `y`, which is a type. -/
def TypedBy (t : Tree) (y z : NodeId) : Prop :=
  IsLeast {x | y < x ∧ (∃ p, t.parent? y = some p ∧ t.parent? x = some p) ∧
    (t.rule? x = some .attributeType ∨ t.rule? x = some .attributeName)} z ∧
  t.rule? z = some .attributeType

/-- A node that ends the search for the type of an attribute. -/
def decidesType (t : Tree) (x : NodeId) : Bool :=
  t.hasRule .attributeType x || t.hasRule .attributeName x

/-- The node of the type of the attribute name `y`. -/
def typeNode? (t : Tree) (y : NodeId) : Option NodeId :=
  ((t.siblingsAfter y).find? t.decidesType).filter (t.hasRule .attributeType)

theorem typeAfter?_eq_bind :
    t.typeAfter? y = (t.typeNode? y).bind fun z => readType (t.text z) := by
  have hdecides : (fun x => t.hasRule .attributeType x || t.hasRule .attributeName x) =
      t.decidesType := rfl
  simp only [typeAfter?, typeNode?, hdecides]
  cases (t.siblingsAfter y).find? t.decidesType with
  | none => rfl
  | some z =>
    change (if t.hasRule .attributeType z then readType (t.text z) else none) = _
    rw [Option.filter_some]
    split
    · rw [Option.bind_some]
    · rw [Option.bind_none]

theorem WellFormed.typeNode?_eq_some_iff (wf : t.WellFormed) :
    t.typeNode? y = some z ↔ t.TypedBy y z := by
  rw [typeNode?, Option.filter_eq_some_iff,
    find?_isLeast (wf.siblingsAfter_increasing.imp Nat.le_of_lt), TypedBy]
  simp only [wf.mem_siblingsAfter_iff, decidesType, hasRule, Bool.or_eq_true, beq_iff_eq, and_assoc]

/-- `y` is an attribute name of a definition that has a name, and has a leaf
itself. -/
def IsAttribute (t : Tree) (y : NodeId) : Prop :=
  ∃ x n k, t.NamedBy x n ∧ t.Above x y ∧ t.rule? y = some .attributeName ∧ t.StartsWith y k

theorem WellFormed.isAttribute_iff (wf : t.WellFormed) :
    t.IsAttribute y ↔ ∃ x d n, t.definitionAt? x = some d ∧ (y, n) ∈ t.attributeNames x := by
  constructor
  · rintro ⟨x, m, n, hm, hy⟩
    obtain ⟨d, hd, -⟩ := wf.exists_definitionAt? hm
    exact ⟨x, d, n, hd, (wf.mem_attributeNames hm.1).mpr hy⟩
  · rintro ⟨x, d, n, hd, hy⟩
    have hm := (wf.namedBy_of_definitionAt? hd).1
    exact ⟨x, d.node, n, hm, (wf.mem_attributeNames hm.1).mp hy⟩

/-- A text that is read as a type has the letters of the type's spelling. -/
theorem mem_spelling_of_readType {text : String} {type : AttributeType} {c : Char}
    (h : readType text = some type) (hc : c ∈ text.toList) (hblank : Text.isBlank c = false) :
    c.toLower ∈ type.spelling.toList := by
  rw [readType, AttributeType.ofSpelling?] at h
  have hword := List.find?_some h
  rw [beq_iff_eq] at hword
  rw [hword, foldedWord, String.toList_ofList]
  exact List.mem_map_of_mem (Text.mem_trim hc hblank)

/-- No type is spelled with a mark of a comment. -/
theorem readType_of_mark {text : String} (h : '/' ∈ text.toList ∨ '-' ∈ text.toList) :
    readType text = none := by
  have hslash : ∀ type : AttributeType, '/' ∉ type.spelling.toList := by
    intro type
    cases type <;> decide
  have hdash : ∀ type : AttributeType, '-' ∉ type.spelling.toList := by
    intro type
    cases type <;> decide
  cases htype : readType text with
  | none => rfl
  | some type =>
    rcases h with h | h
    · exact absurd (mem_spelling_of_readType htype h (by decide)) (hslash type)
    · exact absurd (mem_spelling_of_readType htype h (by decide)) (hdash type)

namespace Padded

variable {m place width : Nat} {t' : Tree} (pad : Padded m place width t t')

include pad

theorem typeNode?_eq (y : Nat) :
    t'.typeNode? (renumber m y) = (t.typeNode? y).map (renumber m) := by
  have hfilter : (t'.siblingsAfter (renumber m y)).filter t'.decidesType =
      ((t.siblingsAfter y).filter t.decidesType).map (renumber m) := by
    have hmem : ∀ x, renumber m x ∈ t'.siblingsAfter (renumber m y) ↔ x ∈ t.siblingsAfter y := by
      intro x
      simp only [pad.doc'.mem_siblingsAfter_iff, pad.doc.mem_siblingsAfter_iff,
        renumber_lt_renumber, pad.parent?_eq, Option.map_eq_some_iff]
      refine and_congr_right fun _ => ⟨fun h => ?_, fun h => ?_⟩
      · obtain ⟨_, ⟨p, hp, rfl⟩, q, hq, heq⟩ := h
        rw [renumber_inj] at heq
        exact ⟨p, hp, heq ▸ hq⟩
      · obtain ⟨p, hp, hq⟩ := h
        exact ⟨renumber m p, ⟨p, hp, rfl⟩, p, hq, rfl⟩
    rw [filter_eq_map_renumber pad.doc.siblingsAfter_increasing
      pad.doc'.siblingsAfter_increasing hmem (by simp [decidesType, pad.hasRule_new])]
    simp only [decidesType, pad.hasRule_eq]
    rfl
  rw [typeNode?, ← List.head?_filter, hfilter, List.head?_map, List.head?_filter, typeNode?]
  cases (t.siblingsAfter y).find? t.decidesType with
  | none => rfl
  | some z =>
    simp only [Option.map_some, Option.filter_some, pad.hasRule_eq]
    cases t.hasRule .attributeType z <;> rfl

theorem typeAfter?_eq_iff (y : Nat) :
    t'.typeAfter? (renumber m y) = t.typeAfter? y ↔
      ∀ z, t.TypedBy y z → readType (t'.text (renumber m z)) = readType (t.text z) := by
  rw [typeAfter?_eq_bind, typeAfter?_eq_bind, pad.typeNode?_eq]
  simp only [← pad.doc.typeNode?_eq_some_iff]
  cases t.typeNode? y with
  | none => simp
  | some z => simp

end Padded

end Tree

/-! ## Catalogs -/

/-- An attribute under its new number. -/
def Attribute.moved (m : Nat) (a : Attribute) : Attribute := ⟨a.name, a.type, renumber m a.node⟩

/-- A definition under the new numbers. -/
def Definition.moved (m : Nat) (d : Definition) : Definition :=
  ⟨d.name, d.kind, d.attributes.map (Attribute.moved m), renumber m d.node⟩

/-- A catalog under the new numbers. -/
def Catalog.moved (m : Nat) (c : Catalog) : Catalog := ⟨c.definitions.map (Definition.moved m)⟩

theorem Catalog.eq_iff {c c' : Catalog} : c = c' ↔ c.definitions = c'.definitions := by
  cases c
  cases c'
  exact Catalog.mk.injEq _ _ ▸ Iff.rfl

/-- Definitions with the same leaves are the same when sorted exactly if they are
the same one by one. -/
theorem mergeSort_map_eq_iff {α : Type} {f g : α → Definition} {xs : List α}
    (hkey : ∀ x ∈ xs, (f x).node = (g x).node) :
    ((xs.map f).mergeSort fun a b => a.node ≤ b.node) =
        ((xs.map g).mergeSort fun a b => a.node ≤ b.node) ↔
      ∀ x ∈ xs, f x = g x := by
  have hf : ((xs.map f).mergeSort fun a b => a.node ≤ b.node) =
      (xs.mergeSort fun a b => (f a).node ≤ (f b).node).map f := by
    refine (List.map_mergeSort fun a _ b _ => ?_).symm
    rfl
  have hg : ((xs.map g).mergeSort fun a b => a.node ≤ b.node) =
      (xs.mergeSort fun a b => (f a).node ≤ (f b).node).map g := by
    refine (List.map_mergeSort fun a ha b hb => ?_).symm
    rw [hkey a ha, hkey b hb]
  rw [hf, hg, List.map_inj_left]
  simp only [List.mem_mergeSort]

/-- The entry of a definition of another tree, with the attributes that the
definition has in `t'`. -/
def Tree.reread (t' : Tree) (m : Nat) (entry : NodeId × Definition) : Definition :=
  ⟨entry.2.name, entry.2.kind, (t'.attributeNames (renumber m entry.1)).map t'.attributeAt,
    renumber m entry.2.node⟩

namespace Tree.Padded

variable {m place width x y z : Nat} {t t' : Tree} (pad : Padded m place width t t')

include pad

/-- A definition is read as before, but for its attributes. -/
theorem definitionAt?_reread (x : Nat) :
    t'.definitionAt? (renumber m x) = (t.definitionAt? x).map fun d => t'.reread m (x, d) := by
  rw [definitionAt?, definitionAt?, pad.rule?_eq, pad.nameLeaf?_eq]
  cases (t.rule? x).bind DefinitionKind.ofRule? with
  | none => rfl
  | some kind =>
    cases t.nameLeaf? x with
    | none => rfl
    | some leaf =>
      simp only [Option.bind_some, Option.map_some, pad.textAt_eq]
      rfl

/-- Its attributes are read as before, but for their types. -/
theorem reread_eq_moved_iff {d : Definition} (h : t.definitionAt? x = some d) :
    t'.reread m (x, d) = d.moved m ↔
      ∀ named ∈ t.attributeNames x, t'.typeAfter? (renumber m named.1) = t.typeAfter? named.1 := by
  obtain ⟨kind, n, -, -, rfl⟩ := definitionAt?_eq_some_iff.mp h
  simp only [reread, Definition.moved, Definition.mk.injEq, true_and, and_true]
  rw [pad.attributeNames_eq, List.map_map, List.map_map, List.map_inj_left]
  refine forall₂_congr fun named _ => ?_
  simp only [Function.comp_apply, attributeAt, Attribute.moved, Prod.map_fst, Prod.map_snd,
    pad.textAt_eq, Attribute.mk.injEq, true_and, and_true]

/-- The catalog is kept exactly if the types of all attributes are. -/
theorem catalog_eq_moved_iff :
    t'.catalog = t.catalog.moved m ↔
      ∀ y, t.IsAttribute y → t'.typeAfter? (renumber m y) = t.typeAfter? y := by
  have hmoved : (t.catalog.moved m).definitions =
      (t.listedEntries.map fun entry => entry.2.moved m).mergeSort fun d e => d.node ≤ e.node := by
    rw [catalog_eq_mergeSort, Catalog.moved, List.map_mergeSort (s := fun d e => d.node ≤ e.node)]
    · rw [List.map_map]
      rfl
    · intro d _ e _
      exact decide_eq_decide.mpr renumber_le_renumber.symm
  have hreread : t'.catalog.definitions =
      (t.listedEntries.map (t'.reread m)).mergeSort fun d e => d.node ≤ e.node := by
    have hread : t'.definitionAt? ∘ renumber m =
        fun x => ((t.definitionAt? x).map (x, ·)).map (t'.reread m) := by
      funext x
      rw [Function.comp_apply, pad.definitionAt?_reread, Option.map_map]
      rfl
    rw [catalog, pad.definitionNodes_eq, List.filterMap_map, hread, listedEntries,
      List.map_filterMap]
  have hkey : ∀ entry ∈ t.listedEntries, (t'.reread m entry).node = (entry.2.moved m).node :=
    fun _ _ => rfl
  rw [Catalog.eq_iff, hmoved, hreread, mergeSort_map_eq_iff hkey]
  refine ⟨fun h y hy => ?_, fun h => ?_⟩
  · obtain ⟨x, d, n, hd, hn⟩ := pad.doc.isAttribute_iff.mp hy
    have heq := h (x, d) (pad.doc.mem_listedEntries.mpr hd)
    exact (pad.reread_eq_moved_iff hd).mp heq (y, n) hn
  · rintro ⟨x, d⟩ hd
    rw [pad.doc.mem_listedEntries] at hd
    refine (pad.reread_eq_moved_iff hd).mpr fun named hnamed => ?_
    exact h named.1 (pad.doc.isAttribute_iff.mpr ⟨x, d, named.2, hd, hnamed⟩)

/-- The types of all attributes are kept exactly if the type nodes that the new text
lies in are read as before. -/
theorem typesKept_iff {p : Nat} (hp : t'.parent? m = some p) :
    (∀ y, t.IsAttribute y → t'.typeAfter? (renumber m y) = t.typeAfter? y) ↔
      ∀ y z, t.IsAttribute y → t.TypedBy y z → z = p ∨ t.Above z p →
        readType (t.textBefore m z ++ t'.textAt m ++ t.textFrom m z) = readType (t.text z) := by
  refine ⟨fun h y z hy hz hinside => ?_, fun h y hy => ?_⟩
  · rw [← pad.text_of_covers ((pad.covers_new_iff hp).mpr hinside)]
    exact (pad.typeAfter?_eq_iff y).mp (h y hy) z hz
  · refine (pad.typeAfter?_eq_iff y).mpr fun z hz => ?_
    by_cases hinside : t'.Covers (renumber m z) m
    · rw [pad.text_of_covers hinside]
      exact h y z hy hz ((pad.covers_new_iff hp).mp hinside)
    · rw [pad.text_of_not_covers hinside]

end Tree.Padded

/-- What trivia changes in the catalog.  A blank run or a comment put into a document
where `p` is the innermost open node leaves a document whose catalog differs at most
in the types of attributes.  It does not differ exactly if every type node around
`p`, or `p` itself, is read as before with the new text in it.  If the new text has
a mark of a comment, that is so exactly if none of these nodes was read as a type. -/
theorem Tree.catalog_of_padded {before rest : List Step} {kind : Kind} {text : String} {t : Tree}
    {p : NodeId} (hopen : (Draft.empty.run before).openNodes.head? = some p)
    (hkind : kind.isTrivia = true) (h : ofSteps (before ++ rest) = .ok t) :
    ∃ t' c c', ofSteps (before ++ .token kind text :: rest) = .ok t' ∧
      Catalog.ofTree t = .ok c ∧ Catalog.ofTree t' = .ok c' ∧
      c'.outline id = c.outline (renumber (Draft.empty.run before).nodes.size) ∧
      (c' = c.moved (Draft.empty.run before).nodes.size ↔
        ∀ y z, t.IsAttribute y → t.TypedBy y z → z = p ∨ t.Above z p →
          readType (t.textBefore (Draft.empty.run before).nodes.size z ++ text ++
            t.textFrom (Draft.empty.run before).nodes.size z) = readType (t.text z)) ∧
      ('/' ∈ text.toList ∨ '-' ∈ text.toList →
        (c' = c.moved (Draft.empty.run before).nodes.size ↔
          ∀ y z, t.IsAttribute y → t.TypedBy y z → z = p ∨ t.Above z p →
            readType (t.text z) = none)) := by
  have hnodes : (Draft.empty.run before).openNodes ≠ [] := by
    intro hnil
    rw [hnil] at hopen
    cases hopen
  obtain ⟨t', h', pad⟩ := @exists_padded before rest kind text t hnodes hkind h
  have hparent := (parent?_of_added hnodes h').trans hopen
  have htext := textAt_of_token? (token?_of_added hnodes h')
  have hkept := pad.catalog_eq_moved_iff.trans (pad.typesKept_iff hparent)
  rw [htext] at hkept
  refine ⟨t', t.catalog, t'.catalog, h', ofTree_eq, ofTree_eq, pad.catalog_eq, hkept, ?_⟩
  intro hmark
  rw [hkept]
  have hnone : ∀ before behind : String, readType (before ++ text ++ behind) = none := by
    intro before behind
    refine readType_of_mark ?_
    simp only [String.toList_append, List.mem_append]
    rcases hmark with hmark | hmark
    · exact Or.inl (Or.inl (Or.inr hmark))
    · exact Or.inr (Or.inl (Or.inr hmark))
  simp only [hnone, eq_comm]

/-- A stream `S` up to the name of its attribute `a`. -/
def Tree.uptoName : List Step :=
  [.openNode .siddhiApp, .openNode .definitionStream, .openNode .streamId, .text "S", .closeNode,
    .openNode .attributeName, .text "a", .closeNode]

/-- The type `int` of the attribute, and the ends of the open nodes. -/
def Tree.typeAndEnds : List Step :=
  [.openNode .attributeType, .text "int", .closeNode, .closeNode, .closeNode]

/-- A comment between the name of an attribute and its type lies in no type.  The
catalog keeps the type, although the comment spells another one. -/
theorem Tree.catalog_of_padded_commentBeforeType :
    (Draft.empty.run uptoName).openNodes.head? = some 1 ∧ Kind.blockComment.isTrivia = true ∧
      ∃ t t' c c', ofSteps (uptoName ++ typeAndEnds) = .ok t ∧
        ofSteps (uptoName ++ .token .blockComment "/* long */" :: typeAndEnds) = .ok t' ∧
        Catalog.ofTree t = .ok c ∧ Catalog.ofTree t' = .ok c' ∧ c' = c.moved 6 := by
  have hopen : (Draft.empty.run uptoName).openNodes.head? = some 1 := by decide
  have h : ofSteps (uptoName ++ typeAndEnds) =
      .ok (Draft.empty.run (uptoName ++ typeAndEnds)).tree := rfl
  obtain ⟨t', c, c', h', hc, hc', -, -, hkept⟩ :=
    @catalog_of_padded uptoName typeAndEnds .blockComment "/* long */" _ 1 hopen rfl h
  refine ⟨hopen, rfl, _, t', c, c', h, h', hc, hc', (hkept (by decide)).mpr ?_⟩
  intro y z _ htyped hinside
  have haround : ∀ a ∈ (1 : NodeId) :: (Draft.empty.run (uptoName ++ typeAndEnds)).tree.ancestors 1,
      (Draft.empty.run (uptoName ++ typeAndEnds)).tree.rule? a ≠ some .attributeType := by decide
  rw [(document_of_ofSteps h).above_iff, ← List.mem_cons] at hinside
  exact absurd htyped.2 (haround z hinside)

/-- A stream `S` up to the type `int` of its attribute `a`. -/
def Tree.uptoType : List Step := uptoName ++ [.openNode .attributeType, .text "int"]

/-- The ends of the nodes that `uptoType` opens. -/
def Tree.typeEnds : List Step := [.closeNode, .closeNode, .closeNode]

/-- A comment in a type hides the type. -/
theorem Tree.catalog_of_commentInType :
    Kind.blockComment.isComment = true ∧
      ∃ t t' c c', ofSteps (uptoType ++ typeEnds) = .ok t ∧
        ofSteps (uptoType ++ .token .blockComment "/* n */" :: typeEnds) = .ok t' ∧
        Catalog.ofTree t = .ok c ∧ Catalog.ofTree t' = .ok c' ∧ c' ≠ c.moved 8 := by
  have hfound : (Catalog.definitionNodes (Draft.empty.run (uptoType ++ typeEnds)).tree).mapM
      (Definition.ofNode? (Draft.empty.run (uptoType ++ typeEnds)).tree) =
      .ok [some ⟨"S", .stream, [⟨"a", some .int, 5⟩], 3⟩] := by decide
  have hfound' : (Catalog.definitionNodes (Draft.empty.run
      (uptoType ++ .token .blockComment "/* n */" :: typeEnds)).tree).mapM
      (Definition.ofNode? (Draft.empty.run
        (uptoType ++ .token .blockComment "/* n */" :: typeEnds)).tree) =
      .ok [some ⟨"S", .stream, [⟨"a", none, 5⟩], 3⟩] := by decide
  exact ⟨rfl, _, _, _, _, rfl, rfl, ofTree_of_sorted hfound (by decide),
    ofTree_of_sorted hfound' (by decide), by decide⟩

end SiddhiEditor
