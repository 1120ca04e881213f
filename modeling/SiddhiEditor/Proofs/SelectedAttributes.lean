import SiddhiEditor.Proofs.KnownNames
import SiddhiEditor.Proofs.Narrowing

/-!
# The attributes that a selection may use

Where a query may name an attribute, the labels of an answer are the names of the
attributes of the streams that the query reads, and `*` before them behind
`select`.  This module says which names these are, and in which order.

* The streams are the texts of the leaves that the query reads (`Tree.Reads`), in
  document order, each once.
* A stream has the attributes of its first definition, and none without one
  (`Catalog.Lists`).
* Names that do not begin with what has been typed are left out, and names that
  come again are, too.

Both times a list is reduced to its first occurrences.  `map_firstsBy` states what
this does to the keys: each key stays where it comes first.
-/

namespace SiddhiEditor

/-! ## Labels of an answer -/

/-- The keys of the first occurrences are the keys without later repetitions. -/
theorem map_firstsBy {α β : Type} [DecidableEq β] (key : α → β) (xs : List α) :
    (firstsBy key xs).map key = (xs.map key).eraseDups := by
  induction hn : xs.length using Nat.strongRecOn generalizing xs with
  | ind n ih =>
    cases xs with
    | nil => rfl
    | cons x xs =>
      have hcommute : firstsBy key (xs.filter fun y => key y != key x) =
          (firstsBy key xs).filter fun y => key y != key x :=
        firstsBy_filter (fun y z hkeys => by rw [hkeys]) xs
      have hshorter : (xs.filter fun y => key y != key x).length < n := by
        rw [← hn, List.length_cons]
        exact Nat.lt_succ_of_le (List.length_filter_le _ _)
      rw [firstsBy, ← hcommute, List.map_cons, ih _ hshorter _ rfl, List.map_cons,
        List.eraseDups_cons, List.filter_map]
      rfl

/-- The labels of an answer are those offered that begin with what has been typed,
each once. -/
theorem Engine.labels_distinct (offered : List Suggestion) (typed : String) :
    (distinct (offered.filter (·.isMatch typed))).map (·.label) =
      ((offered.map (·.label)).filter (Text.BeginsWith · typed)).eraseDups := by
  have hmatch : ∀ s : Suggestion, s.isMatch typed = decide (Text.BeginsWith s.label typed) := by
    intro s
    rw [Bool.eq_iff_iff, Suggestion.isMatch_iff, decide_eq_true_eq]
  rw [distinct, map_firstsBy, List.filter_map]
  simp only [hmatch, Function.comp_def]

/-! ## Attributes of the streams being read -/

/-- The names of the attributes that a stream has, in document order. -/
inductive Catalog.Lists (c : Catalog) (stream : String) : List String → Prop where
  /-- Those of its first definition. -/
  | found {d : Definition} : c.IsFirst stream d → (d.attributes.map (·.node)).Pairwise (· ≤ ·) →
      Lists c stream (d.attributes.map (·.name))
  /-- None, if it is not defined. -/
  | missing : (∀ d ∈ c.definitions, d.name ≠ stream) → Lists c stream []

theorem Catalog.exists_lists {c : Catalog}
    (hordered : ∀ d ∈ c.definitions, (d.attributes.map (·.node)).Pairwise (· ≤ ·))
    (streams : List String) :
    ∃ names, List.Forall₂ c.Lists streams names ∧
      (c.attributesOf streams).map (·.name) = names.flatten := by
  induction streams with
  | nil => exact ⟨[], .nil, rfl⟩
  | cons stream streams ih =>
    obtain ⟨names, hlists, hnames⟩ := ih
    cases hd : c.definition? stream with
    | none =>
      have hmissing : ∀ d ∈ c.definitions, d.name ≠ stream := by
        intro d hmem hname
        exact List.find?_eq_none.mp hd d hmem (beq_iff_eq.mpr hname)
      refine ⟨[] :: names, .cons (.missing hmissing) hlists, ?_⟩
      rw [attributesOf, List.filterMap_cons_none hd, List.flatten_cons, List.nil_append, ← hnames,
        attributesOf]
    | some d =>
      have hfirst := definition?_eq_some_iff_isFirst.mp hd
      refine ⟨d.attributes.map (·.name) :: names,
        .cons (.found hfirst (hordered d (mem_of_isFirst hfirst))) hlists, ?_⟩
      rw [attributesOf, List.filterMap_cons_some hd, List.flatMap_cons, List.map_append,
        List.flatten_cons, ← hnames, attributesOf]

theorem Tree.WellFormed.attributes_ordered {t : Tree} {d : Definition} (wf : t.WellFormed)
    (h : d ∈ t.catalog.definitions) : (d.attributes.map (·.node)).Pairwise (· ≤ ·) := by
  obtain ⟨x, hd⟩ := wf.mem_catalog.mp h
  obtain ⟨kind, leaf, -, -, rfl⟩ := definitionAt?_eq_some_iff.mp hd
  rw [List.map_map]
  exact attributeNames_ordered

/-! ## Places for attributes -/

/-- Behind a leaf of the kind an attribute may stand. -/
def Kind.PrecedesAttribute (kind : Kind) : Prop :=
  kind ∈ [.keyword .select, .keyword .by, .keyword .having, .keyword .and, .keyword .or,
    .keyword .not, .comma, .openPar] ∨ ∃ ch, ch ≠ '*' ∧ kind = .other ch

theorem Kind.PrecedesAttribute.asksForAttribute {kind : Kind} (h : kind.PrecedesAttribute)
    (hselect : kind ≠ .keyword .select) : Clause.asksForAttribute kind = true := by
  rcases h with hmem | ⟨ch, hch, rfl⟩
  · have hlisted : ∀ kind ∈ [.keyword .select, .keyword .by, .keyword .having, .keyword .and,
        .keyword .or, .keyword .not, .comma, .openPar],
        kind = .keyword .select ∨ Clause.asksForAttribute kind = true := by decide
    exact (hlisted kind hmem).resolve_left hselect
  · exact bne_iff_ne.mpr hch

namespace Clause

variable {t : Tree} {c : Context}

theorem querySection_of_asksForAttribute (h : asksForAttribute c.prev.kind = true) :
    querySection t c = inputAttributes t c.element := by
  rw [querySection]
  split
  case h_4 => rw [if_pos h]
  all_goals
    next hkind =>
      rw [hkind] at h
      cases h

/-- The suggestions at a place for an attribute. -/
theorem querySection_eq (h : c.prev.kind.PrecedesAttribute) :
    querySection t c = .ok ((if c.prev.kind = .keyword .select then [wholeEvent] else []) ++
      (t.catalog.attributesOf (t.readStreams c.element)).map Suggestion.ofAttribute) := by
  by_cases hselect : c.prev.kind = .keyword .select
  · rw [if_pos hselect, querySection, hselect]
    simp only [inputAttributes_eq]
    rfl
  · rw [if_neg hselect, querySection_of_asksForAttribute (h.asksForAttribute hselect),
      inputAttributes_eq, List.nil_append]

end Clause

theorem Context.exists_elementAt? {t : Tree} {offset : Nat} {c : Context}
    (h : ofOffset t offset = .ok (some c)) : ∃ x, t.elementAt? offset = some x := by
  cases helem : t.elementAt? offset with
  | some x => exact ⟨x, rfl⟩
  | none =>
    rw [ofOffset, helem] at h
    cases h

namespace Tree

variable {t : Tree} {offset : Nat} {c : Context}

/-- The answer at a place for an attribute. -/
theorem suggest_of_precedesAttribute {typed : String}
    (hcontext : Context.ofOffset t offset = .ok (some c))
    (hregion : Region.classify t c = .ok (some .querySection))
    (hprev : c.prev.kind.PrecedesAttribute) (htyped : Engine.typed t offset = .ok typed) :
    t.suggest offset = .ok (Engine.distinct
      (((if c.prev.kind = .keyword .select then [Clause.wholeEvent] else []) ++
        (t.catalog.attributesOf (t.readStreams c.element)).map Suggestion.ofAttribute).filter
          (·.isMatch typed))) := by
  have hoffered := Engine.standard.suggestions_of_classify hregion
  exact suggest_eq_ok hcontext (hoffered.trans (Clause.querySection_eq hprev)) htyped

/-- At a place for an attribute, the labels are the names of the attributes of the
streams being read that begin with what has been typed, each once, and behind
`select` the whole event before them. -/
theorem suggest_attributes {steps : List Step} (h : ofSteps steps = .ok t)
    (hcontext : Context.ofOffset t offset = .ok (some c))
    (hregion : Region.classify t c = .ok (some .querySection))
    (hprev : c.prev.kind.PrecedesAttribute) :
    ∃ (catalog : Catalog) (answer : List Suggestion) (typed : String) (leaves : List NodeId)
        (names : List (List String)),
      Catalog.ofTree t = .ok catalog ∧ t.suggest offset = .ok answer ∧
      (∃ x tok, t.elementAt? offset = some x ∧ t.token? x = some tok ∧ tok.Typed offset typed) ∧
      leaves.Pairwise (· ≤ ·) ∧ (∀ s, s ∈ leaves ↔ t.Reads c.element s) ∧
      List.Forall₂ catalog.Lists (leaves.map t.textAt).eraseDups names ∧
      answer.map (·.label) =
        (((if c.prev.kind = .keyword .select then ["*"] else []) ++ names.flatten).filter
          (Text.BeginsWith · typed)).eraseDups := by
  have doc := document_of_ofSteps h
  have wf := doc.toWellFormed
  obtain ⟨x, helem⟩ := Context.exists_elementAt? hcontext
  obtain ⟨tok, htok⟩ := doc.token?_of_elementAt? helem
  have hanswer := suggest_of_precedesAttribute hcontext hregion hprev
    (Engine.typed_of_elementAt? helem htok)
  obtain ⟨names, hlists, hnames⟩ :=
    Catalog.exists_lists (fun d => wf.attributes_ordered) (t.readStreams c.element)
  have hstreams : t.readStreams c.element = ((t.readLeaves c.element).map t.textAt).eraseDups := by
    rw [readStreams_eq_firstsBy, ← List.map_id (firstsBy id _), map_firstsBy, List.map_id]
  refine ⟨t.catalog, _, _, t.readLeaves c.element, names, ofTree_eq, hanswer,
    ⟨x, tok, helem, htok, Token.typed_iff.mpr rfl⟩, wf.readLeaves_ordered,
    fun s => wf.mem_readLeaves, hstreams ▸ hlists, ?_⟩
  have hoffered : ((t.catalog.attributesOf (t.readStreams c.element)).map
      Suggestion.ofAttribute).map (·.label) = names.flatten := by
    rw [List.map_map, ← hnames]
    rfl
  have hwhole : (if c.prev.kind = .keyword .select then [Clause.wholeEvent] else []).map
      (·.label) = if c.prev.kind = .keyword .select then ["*"] else [] := by
    split <;> rfl
  rw [Engine.labels_distinct, List.map_append, hwhole, hoffered]

/-- A query that reads `S`, `U`, `S` again and `T`, up to the word `pr` behind
`select`.  `S` is defined twice, `U` is not defined, and `S` and `T` share the
attribute `price`. -/
def joinedStreams : List Step :=
  [.openNode .siddhiApp,
    .openNode .definitionStream, .openNode .streamId, .text "S", .closeNode,
    .openNode .attributeName, .text "price", .closeNode, .closeNode,
    .openNode .definitionStream, .openNode .streamId, .text "S", .closeNode,
    .openNode .attributeName, .text "pressure", .closeNode, .closeNode,
    .openNode .definitionStream, .openNode .streamId, .text "T", .closeNode,
    .openNode .attributeName, .text "Prio", .closeNode,
    .openNode .attributeName, .text "price", .closeNode, .closeNode,
    .openNode .query, .openNode .queryInput, .openNode .streamId, .text "S", .closeNode,
    .openNode .streamId, .text "U", .closeNode, .openNode .streamId, .text "S", .closeNode,
    .openNode .streamId, .text "T", .closeNode, .closeNode,
    .openNode .querySection, .text "select pr", .closeNode, .closeNode, .closeNode]

/-- The tree of `joinedStreams`. -/
def joinedTree : Tree := (Draft.empty.run joinedStreams).tree

/-- The context at its end. -/
def joinedContext : Context := ⟨31, ⟨29, .keyword .select⟩, some ⟨27, .identifier⟩⟩

/-- The attribute `pressure` of the second definition is not offered, and `price` is
offered once. -/
theorem suggest_attributes_joined :
    ofSteps joinedStreams = .ok joinedTree ∧
      Context.ofOffset joinedTree 38 = .ok (some joinedContext) ∧
      Region.classify joinedTree joinedContext = .ok (some .querySection) ∧
      joinedContext.prev.kind.PrecedesAttribute ∧
      ∃ (catalog : Catalog) (answer : List Suggestion) (typed : String) (leaves : List NodeId)
          (names : List (List String)),
        Catalog.ofTree joinedTree = .ok catalog ∧ joinedTree.suggest 38 = .ok answer ∧
        (∃ x tok, joinedTree.elementAt? 38 = some x ∧ joinedTree.token? x = some tok ∧
          tok.Typed 38 typed) ∧
        leaves.Pairwise (· ≤ ·) ∧ (∀ s, s ∈ leaves ↔ joinedTree.Reads 31 s) ∧
        List.Forall₂ catalog.Lists (leaves.map joinedTree.textAt).eraseDups names ∧
        answer.map (·.label) =
          ((["*"] ++ names.flatten).filter (Text.BeginsWith · typed)).eraseDups ∧
        answer.map (·.label) = ["price", "Prio"] := by
  have h : ofSteps joinedStreams = .ok joinedTree := rfl
  have hcontext : Context.ofOffset joinedTree 38 = .ok (some joinedContext) := by decide
  have hregion : Region.classify joinedTree joinedContext = .ok (some .querySection) := by decide
  have hprev : joinedContext.prev.kind.PrecedesAttribute := .inl (by decide)
  have hfound : (Catalog.definitionNodes joinedTree).mapM (Definition.ofNode? joinedTree) =
      .ok [some ⟨"S", .stream, [⟨"price", none, 5⟩], 3⟩,
        some ⟨"S", .stream, [⟨"pressure", none, 10⟩], 8⟩,
        some ⟨"T", .stream, [⟨"Prio", none, 15⟩, ⟨"price", none, 17⟩], 13⟩] := by decide
  have hcatalog := ofTree_eq.symm.trans (ofTree_of_sorted hfound (by decide))
  have htyped : Engine.typed joinedTree 38 = .ok "pr" := by decide
  have hlabels := suggest_of_precedesAttribute hcontext hregion hprev htyped
  rw [Except.ok.inj hcatalog] at hlabels
  obtain ⟨catalog, answer, typed, leaves, names, hc, hanswer, hrest⟩ :=
    suggest_attributes h hcontext hregion hprev
  cases hlabels.symm.trans hanswer
  obtain ⟨htyped, hordered, hreads, hlists, hanswers⟩ := hrest
  exact ⟨h, hcontext, hregion, hprev, catalog, _, typed, leaves, names, hc, hanswer, htyped,
    hordered, hreads, hlists, hanswers, by decide⟩

end Tree

end SiddhiEditor
