import SiddhiEditor.Proofs.Failures
import SiddhiEditor.Proofs.Resolution

/-!
# Suggested names are names of the document

A suggestion for a name stands for a definition or for an attribute, and never
for a name that the document does not have.

The clauses of an engine offer keywords, functions, the whole event, definitions of
the catalog and attributes of the streams being read.  `Suggestion.Known` lists
these origins, and each clause is gone through once to see that there is no other
(`Engine.standard_allKnown`).  What can be said of a suggestion then follows from
its kind, by cases over the origins.  Narrowing an answer and keeping the first
suggestion of each label add nothing to it.
-/

namespace SiddhiEditor

/-! ## First occurrences -/

section

variable {α β : Type} [DecidableEq β] (key : α → β) (xs : List α)

/-- Keeping the first of each key leaves a part of the list. -/
theorem firstsBy_sublist : (firstsBy key xs).Sublist xs := by
  induction xs with
  | nil => exact List.Sublist.slnil
  | cons x xs ih => exact (List.filter_sublist.trans ih).cons_cons x

/-- Every key is kept once. -/
theorem nodup_map_firstsBy : ((firstsBy key xs).map key).Nodup := by
  induction xs with
  | nil => exact List.nodup_nil
  | cons x xs ih =>
    rw [firstsBy, List.map_cons, List.nodup_cons]
    constructor
    · intro hmem
      obtain ⟨y, hy, heq⟩ := List.mem_map.mp hmem
      have hne := (List.mem_filter.mp hy).2
      rw [heq, bne_self_eq_false] at hne
      cases hne
    · exact ih.sublist (List.filter_sublist.map key)

end

/-! ## Definitions and attributes -/

namespace Catalog

variable {c : Catalog} {name : String} {d : Definition}

/-- `d` is the first definition of the name. -/
def IsFirst (c : Catalog) (name : String) (d : Definition) : Prop :=
  d.name = name ∧ ∃ before behind, c.definitions = before ++ d :: behind ∧
    ∀ other ∈ before, other.name ≠ name

/-- A name is looked up to the first definition that has it. -/
theorem definition?_eq_some_iff_isFirst : c.definition? name = some d ↔ c.IsFirst name d := by
  rw [definition?, List.find?_eq_some_iff_append, IsFirst]
  simp

theorem mem_of_isFirst (h : c.IsFirst name d) : d ∈ c.definitions := by
  obtain ⟨-, before, behind, hsplit, -⟩ := h
  rw [hsplit]
  exact List.mem_append_right before List.mem_cons_self

/-- The attributes of names are those of the first definitions with these names. -/
theorem mem_attributesOf {names : List String} {a : Attribute} :
    a ∈ c.attributesOf names ↔ ∃ name ∈ names, ∃ d, c.IsFirst name d ∧ a ∈ d.attributes := by
  rw [attributesOf, List.mem_flatMap]
  simp only [List.mem_filterMap, definition?_eq_some_iff_isFirst]
  constructor
  · rintro ⟨d, ⟨name, hname, hd⟩, ha⟩
    exact ⟨name, hname, d, hd, ha⟩
  · rintro ⟨name, hname, d, hd, ha⟩
    exact ⟨d, ⟨name, hname, hd⟩, ha⟩

end Catalog

namespace Tree

variable {t : Tree} {x n l : Nat} {d : Definition} {a : Attribute} {name : String}

/-- The text of a visible leaf inside of a definition. -/
def IsWritten (t : Tree) (text : String) : Prop :=
  ∃ x n tok, t.IsDefinition x ∧ t.Above x n ∧ t.token? n = some tok ∧ tok.isVisible = true ∧
    tok.text = text

/-- What stands in a definition is written in the document. -/
theorem isWritten_textAt (hx : t.IsDefinition x) (habove : t.Above x n)
    (hvisible : t.isVisible n = true) : t.IsWritten (t.textAt n) := by
  obtain ⟨tok, htok, htrivia⟩ := isVisible_iff.mp hvisible
  exact ⟨x, n, tok, hx, habove, htok, htrivia, (textAt_of_token? htok).symm⟩

theorem Reads.isVisible {s : Nat} (h : t.Reads l s) : t.isVisible s = true := by
  obtain ⟨q, input, y, -, -, -, -, -, hs, -⟩ := h
  exact hs.2

namespace WellFormed

variable (wf : t.WellFormed)

include wf

theorem isWritten_name (h : d ∈ t.catalog.definitions) : t.IsWritten d.name := by
  obtain ⟨x, hd⟩ := wf.mem_catalog.mp h
  obtain ⟨hn, hname⟩ := wf.namedBy_of_definitionAt? hd
  rw [hname]
  exact isWritten_textAt hn.1 hn.above hn.isVisible

/-- The names of attributes are written in the document. -/
theorem isWritten_attribute (h : d ∈ t.catalog.definitions) (ha : a ∈ d.attributes) :
    t.IsWritten a.name := by
  obtain ⟨x, hd⟩ := wf.mem_catalog.mp h
  have hx := (wf.namedBy_of_definitionAt? hd).1.1
  obtain ⟨kind, leaf, -, -, rfl⟩ := definitionAt?_eq_some_iff.mp hd
  obtain ⟨⟨y, n⟩, hmem, rfl⟩ := List.mem_map.mp ha
  have hn : t.HasAttribute x n := ⟨y, (wf.mem_attributeNames hx).mp hmem⟩
  exact isWritten_textAt hx hn.above hn.isVisible

/-- A stream that is read has a leaf that names it in an input of the query. -/
theorem exists_reads (h : name ∈ t.readStreams l) :
    ∃ s tok, t.Reads l s ∧ t.token? s = some tok ∧ tok.text = name := by
  rw [readStreams_eq_firstsBy] at h
  obtain ⟨s, hs, rfl⟩ := List.mem_map.mp ((firstsBy_sublist id _).subset h)
  have hreads := wf.mem_readLeaves.mp hs
  obtain ⟨tok, htok, -⟩ := isVisible_iff.mp hreads.isVisible
  exact ⟨s, tok, hreads, htok, (textAt_of_token? htok).symm⟩

end WellFormed

end Tree

/-! ## Where suggestions come from -/

/-- The origins of suggestions for a context. -/
inductive Suggestion.Known (t : Tree) (c? : Option Context) : Suggestion → Prop where
  | ofKeyword (label : String) : Known t c? (keyword label)
  | ofFunction (label : String) : Known t c? (function label)
  | ofWholeEvent : Known t c? Clause.wholeEvent
  | ofDefinition {d : Definition} : d ∈ t.catalog.definitions → Known t c? (ofDefinition d)
  | ofAttribute {c : Context} {a : Attribute} : c? = some c →
      a ∈ t.catalog.attributesOf (t.readStreams c.element) → Known t c? (ofAttribute a)

/-- All suggestions of a result have an origin. -/
def AllKnown (t : Tree) (c? : Option Context) (result : Except Error (List Suggestion)) : Prop :=
  ∀ offered, result = .ok offered → ∀ s ∈ offered, s.Known t c?

section

variable {t : Tree} {c : Context} {c? : Option Context} {offered : List Suggestion}

theorem AllKnown.ok (h : ∀ s ∈ offered, s.Known t c?) : AllKnown t c? (.ok offered) := by
  rintro _ ⟨⟩
  exact h

theorem allKnown_keywords (labels : List String) :
    AllKnown t c? (.ok (Suggestion.keywords labels)) :=
  .ok (List.forall_mem_map.mpr fun label _ => .ofKeyword label)

theorem allKnown_functions (labels : List String) :
    AllKnown t c? (.ok (labels.map Suggestion.function)) :=
  .ok (List.forall_mem_map.mpr fun label _ => .ofFunction label)

namespace Clause

/-- Definitions of the catalog are offered by names that are known. -/
theorem known_of_mem_definitions {ds : List Definition} (hds : ds ⊆ t.catalog.definitions) :
    ∀ s ∈ ds.map Suggestion.ofDefinition, s.Known t c? :=
  List.forall_mem_map.mpr fun _ hd => .ofDefinition (hds hd)

/-- Attributes of the streams that are read are offered by names that are known. -/
theorem known_of_mem_attributes :
    ∀ s ∈ (t.catalog.attributesOf (t.readStreams c.element)).map Suggestion.ofAttribute,
      s.Known t (some c) :=
  List.forall_mem_map.mpr fun _ ha => .ofAttribute rfl ha

theorem definitionNames_allKnown : AllKnown t c? (definitionNames t) := by
  rw [definitionNames_eq]
  exact .ok (known_of_mem_definitions (List.Subset.refl _))

theorem queryInput_allKnown : AllKnown t (some c) (queryInput t c) := by
  rw [queryInput]
  split
  case h_1 => exact allKnown_functions ["window."]
  case h_2 =>
    split
    · exact allKnown_functions _
    · exact definitionNames_allKnown
  case h_6 => exact definitionNames_allKnown
  all_goals exact allKnown_keywords _

theorem querySection_allKnown : AllKnown t (some c) (querySection t c) := by
  rw [querySection, inputAttributes_eq]
  split
  case h_1 =>
    apply AllKnown.ok
    intro s hs
    rcases List.mem_cons.mp hs with rfl | hs
    · exact .ofWholeEvent
    · exact known_of_mem_attributes s hs
  case h_4 =>
    split
    · exact .ok known_of_mem_attributes
    · exact allKnown_keywords _
  all_goals exact allKnown_keywords ["by"]

theorem outputRate_allKnown : AllKnown t (some c) (outputRate t c) := by
  rw [outputRate]
  split
  case h_1 | h_6 | h_7 => exact allKnown_keywords _
  case h_8 => exact allKnown_keywords []
  all_goals exact allKnown_keywords ["every"]

theorem queryOutput_allKnown : AllKnown t (some c) (queryOutput t c) := by
  have htables : ∀ s ∈ (t.catalog.ofKind .table).map Suggestion.ofDefinition,
      s.Known t (some c) := known_of_mem_definitions List.filter_sublist.subset
  have hafter : AllKnown t (some c) (afterTarget t c) := by
    rw [afterTarget, outputVerb?_eq]
    simp only [bind, Except.bind]
    split
    case h_3 => exact allKnown_keywords []
    all_goals exact allKnown_keywords _
  have hotherwise : AllKnown t (some c) (if c.prevWithin t .target then afterTarget t c
      else .ok (Suggestion.keywords Vocabulary.queryOutputStart)) := by
    split
    · exact hafter
    · exact allKnown_keywords _
  simp only [queryOutput, tableNames_eq]
  split
  case h_1 => exact definitionNames_allKnown
  case h_2 => exact .ok htables
  case h_3 =>
    apply AllKnown.ok
    intro s hs
    rcases List.mem_append.mp hs with hs | hs
    · exact htables s hs
    · rw [List.mem_singleton.mp hs]
      exact .ofKeyword _
  case h_4 =>
    split
    · exact allKnown_keywords ["insert into"]
    · exact hotherwise
  case h_5 => exact allKnown_keywords _
  case h_6 => exact hotherwise

end Clause

/-- The standard engine offers nothing of another origin. -/
theorem Engine.standard_allKnown : AllKnown t c? (standard.suggestions t c?) := by
  cases c? with
  | none => exact allKnown_keywords _
  | some c =>
    simp only [suggestions, Region.classify_eq, bind, Except.bind]
    cases Region.of t c with
    | none => exact allKnown_keywords []
    | some region =>
      cases region with
      | queryInput => exact Clause.queryInput_allKnown
      | querySection => exact Clause.querySection_allKnown
      | outputRate => exact Clause.outputRate_allKnown
      | queryOutput => exact Clause.queryOutput_allKnown
      | afterOutputEventType => exact allKnown_keywords [Vocabulary.into]
      | _ => exact allKnown_keywords _

end

/-! ## What the kind of a suggestion says -/

namespace Suggestion

variable {t : Tree} {c? : Option Context} {s : Suggestion}

/-- Tables are offered as tables, and all other definitions as streams. -/
theorem definitionKind_cases (kind : DefinitionKind) :
    definitionKind kind = .stream ∧ (kind = .stream ∨ kind = .window) ∨
      definitionKind kind = .table ∧ kind = .table := by
  cases kind with
  | stream => exact .inl ⟨rfl, .inl rfl⟩
  | window => exact .inl ⟨rfl, .inr rfl⟩
  | table => exact .inr ⟨rfl, rfl⟩

/-- The suggestion stands for a definition or an attribute. -/
def IsName (s : Suggestion) : Prop := s.kind = .stream ∨ s.kind = .table ∨ s.kind = .attribute

namespace Known

variable (h : s.Known t c?)

include h

theorem exists_stream (hkind : s.kind = .stream) :
    ∃ d ∈ t.catalog.definitions, (d.kind = .stream ∨ d.kind = .window) ∧ d.name = s.label := by
  cases h with
  | @ofDefinition d hd =>
    rcases definitionKind_cases d.kind with ⟨-, hstream⟩ | ⟨hof, -⟩
    · exact ⟨d, hd, hstream, rfl⟩
    · cases hof.symm.trans hkind
  | _ => cases hkind

theorem exists_table (hkind : s.kind = .table) :
    ∃ d ∈ t.catalog.definitions, d.kind = .table ∧ d.name = s.label := by
  cases h with
  | @ofDefinition d hd =>
    rcases definitionKind_cases d.kind with ⟨hof, -⟩ | ⟨-, htable⟩
    · cases hof.symm.trans hkind
    · exact ⟨d, hd, htable, rfl⟩
  | _ => cases hkind

/-- An attribute that is offered belongs to the first definition of a stream that is
read. -/
theorem exists_attribute (hkind : s.kind = .attribute) :
    ∃ c, c? = some c ∧ ∃ name ∈ t.readStreams c.element, ∃ d, t.catalog.IsFirst name d ∧
      ∃ a ∈ d.attributes, a.name = s.label := by
  cases h with
  | @ofAttribute c a hc ha =>
    obtain ⟨name, hname, d, hd, ha⟩ := Catalog.mem_attributesOf.mp ha
    exact ⟨c, hc, name, hname, d, hd, a, ha, rfl⟩
  | @ofDefinition d hd =>
    rcases definitionKind_cases d.kind with ⟨hof, -⟩ | ⟨hof, -⟩
    all_goals cases hof.symm.trans hkind
  | _ => cases hkind

theorem insertText_of_keyword (hkind : s.kind = .keyword) : s.insertText = s.label ++ " " := by
  cases h with
  | ofKeyword label => rfl
  | @ofDefinition d hd =>
    rcases definitionKind_cases d.kind with ⟨hof, -⟩ | ⟨hof, -⟩
    all_goals cases hof.symm.trans hkind
  | _ => cases hkind

theorem insertText_of_isName (hname : s.IsName) : s.insertText = s.label := by
  cases h with
  | ofDefinition => rfl
  | ofAttribute => rfl
  | _ => rcases hname with hkind | hkind | hkind <;> cases hkind

/-- A name that is offered is written in the document. -/
theorem isWritten (wf : t.WellFormed) (hname : s.IsName) : t.IsWritten s.label := by
  cases h with
  | ofDefinition hd => exact wf.isWritten_name hd
  | ofAttribute hc ha =>
    obtain ⟨name, -, d, hd, ha⟩ := Catalog.mem_attributesOf.mp ha
    exact wf.isWritten_attribute (Catalog.mem_of_isFirst hd) ha
  | _ => rcases hname with hkind | hkind | hkind <;> cases hkind

end Known

/-- What a suggestion at an offset stands for is in the document. -/
structure Genuine (t : Tree) (catalog : Catalog) (offset : Nat) (s : Suggestion) : Prop where
  /-- A stream is a stream or a window of the catalog. -/
  stream : s.kind = .stream →
    ∃ d ∈ catalog.definitions, (d.kind = .stream ∨ d.kind = .window) ∧ d.name = s.label
  /-- A table is a table of the catalog. -/
  table : s.kind = .table → ∃ d ∈ catalog.definitions, d.kind = .table ∧ d.name = s.label
  /-- An attribute is one of the first definition of a stream that the query around
  the element reads. -/
  ofRead : s.kind = .attribute → ∃ c leaf tok d, Context.ofOffset t offset = .ok (some c) ∧
    t.Reads c.element leaf ∧ t.token? leaf = some tok ∧ catalog.IsFirst tok.text d ∧
      ∃ a ∈ d.attributes, a.name = s.label
  /-- A name inserts itself, as it is written in a definition. -/
  name : s.IsName → s.insertText = s.label ∧ t.IsWritten s.label
  /-- A keyword inserts a space behind it. -/
  keyword : s.kind = .keyword → s.insertText = s.label ++ " "

/-- A known suggestion is genuine in every context that it may be offered in. -/
theorem Known.genuine {offset : Nat} (h : s.Known t c?) (wf : t.WellFormed)
    (hcontext : Context.ofOffset t offset = .ok c?) : s.Genuine t t.catalog offset where
  stream := h.exists_stream
  table := h.exists_table
  ofRead hkind := by
    obtain ⟨c, rfl, name, hname, d, hd, ha⟩ := h.exists_attribute hkind
    obtain ⟨leaf, tok, hreads, htok, rfl⟩ := wf.exists_reads hname
    exact ⟨c, leaf, tok, d, hcontext, hreads, htok, hd, ha⟩
  name hname := ⟨h.insertText_of_isName hname, h.isWritten wf hname⟩
  keyword := h.insertText_of_keyword

end Suggestion

namespace Tree

/-- Every suggestion stands for something that is in the document, and no two of
them have the same label. -/
theorem suggest_genuine {steps : List Step} {t : Tree} (h : ofSteps steps = .ok t) (offset : Nat) :
    ∃ catalog answer, Catalog.ofTree t = .ok catalog ∧ t.suggest offset = .ok answer ∧
      (∀ s ∈ answer, s.Genuine t catalog offset) ∧ (answer.map (·.label)).Nodup := by
  have doc := document_of_ofSteps h
  obtain ⟨c?, hcontext⟩ := doc.ofOffset_ok offset
  obtain ⟨typed, htyped⟩ := doc.typed_ok offset
  obtain ⟨offered, hoffered⟩ := Engine.standard_suggestions_ok t c?
  refine ⟨t.catalog, _, ofTree_eq, suggest_eq_ok hcontext hoffered htyped, ?_,
    nodup_map_firstsBy _ _⟩
  intro s hs
  have hmem : s ∈ offered :=
    List.filter_sublist.subset ((firstsBy_sublist _ _).subset hs)
  exact (Engine.standard_allKnown offered hoffered s hmem).genuine doc.toWellFormed hcontext

/-- A stream, a table and an attribute of one name, and a query that reads it. -/
def sharedName : List Step :=
  [.openNode .siddhiApp, .openNode .definitionStream, .text "define stream ", .openNode .streamId,
    .text "S", .closeNode, .text " (", .openNode .attributeName, .text "S", .closeNode,
    .text " int);", .closeNode, .openNode .definitionTable, .text "define table ",
    .openNode .streamId, .text "S", .closeNode, .text ";", .closeNode, .openNode .query,
    .openNode .queryInput, .text "from ", .openNode .streamId, .text "S", .closeNode, .closeNode,
    .text " ", .openNode .querySection, .text "select ", .closeNode, .closeNode, .closeNode]

/-- The tree of `sharedName`. -/
def sharedNameTree : Tree := (Draft.empty.run sharedName).tree

/-- A stream and its attribute share a name, and the selection offers the attribute.
-/
theorem suggest_genuine_sharedName :
    ofSteps sharedName = .ok sharedNameTree ∧
      sharedNameTree.suggest 53 = .ok [⟨"*", "* ", .operator⟩, ⟨"S", "S", .attribute⟩] ∧
      ∃ catalog, Catalog.ofTree sharedNameTree = .ok catalog ∧
        Suggestion.Genuine sharedNameTree catalog 53 ⟨"S", "S", .attribute⟩ := by
  have h : ofSteps sharedName = .ok sharedNameTree := rfl
  have hfound : (Catalog.definitionNodes sharedNameTree).mapM (Definition.ofNode? sharedNameTree) =
      .ok [some ⟨"S", .stream, [⟨"S", none, 11⟩], 7⟩, some ⟨"S", .table, [], 22⟩] := by decide
  have hattributes : Clause.inputAttributes sharedNameTree 33 = .ok [⟨"S", "S", .attribute⟩] := by
    rw [Clause.inputAttributes, ofTree_of_sorted hfound (by decide)]
    decide
  have hcontext : Context.ofOffset sharedNameTree 53 =
      .ok (some ⟨33, ⟨32, .keyword .select⟩, some ⟨29, .identifier⟩⟩) := by decide
  have hregion : Region.classify sharedNameTree
      ⟨33, ⟨32, .keyword .select⟩, some ⟨29, .identifier⟩⟩ = .ok (some .querySection) := by decide
  have hoffered : Engine.standard.suggestions sharedNameTree
      (some ⟨33, ⟨32, .keyword .select⟩, some ⟨29, .identifier⟩⟩) =
        .ok [Clause.wholeEvent, ⟨"S", "S", .attribute⟩] := by
    rw [Engine.suggestions_of_classify _ hregion]
    exact congrArg (Except.map (Clause.wholeEvent :: ·)) hattributes
  have htyped : Engine.typed sharedNameTree 53 = .ok "" := by decide
  have hanswer : sharedNameTree.suggest 53 =
      .ok [⟨"*", "* ", .operator⟩, ⟨"S", "S", .attribute⟩] :=
    suggest_eq_ok hcontext hoffered htyped
  obtain ⟨catalog, answer, hcatalog, hanswer', hgenuine, -⟩ := suggest_genuine h 53
  cases hanswer.symm.trans hanswer'
  exact ⟨h, hanswer, catalog, hcatalog, hgenuine _ (by decide)⟩

end Tree

end SiddhiEditor
