import SiddhiEditor.Completion.Engine
import SiddhiEditor.Proofs.VisibleLeaves

/-!
# Questions that always have an answer

A question about a leaf fails at an interior node.  The leaves that contexts,
definitions and clauses ask about come from searches for visible leaves, and a
search for a visible leaf finds a leaf or nothing.  So these questions never
fail, in any tree.  Each section gives the answer of one of them as a value
without failures.  The equations are what later proofs use.
-/

namespace SiddhiEditor

/-- Questions that are all answered are answered together. -/
theorem mapM_eq_ok {ε α β : Type} {f : α → Except ε β} {g : α → β} {xs : List α}
    (h : ∀ x ∈ xs, f x = .ok (g x)) : xs.mapM f = .ok (xs.map g) := by
  induction xs with
  | nil => rfl
  | cons x xs ih =>
    rw [List.mapM_cons, h x List.mem_cons_self, ih fun y hy => h y (List.mem_cons_of_mem _ hy)]
    rfl

namespace Tree

variable {t : Tree} {x y : Nat} {tok : Token}

/-! ## Leaves -/

/-- The token of a leaf is not refused. -/
theorem token_of_token? (h : t.token? x = some tok) : t.token x = .ok tok := by
  rw [token, h]

/-- The kind of a leaf. -/
def kindAt (t : Tree) (x : NodeId) : Kind := ((t.token? x).map (·.kind)).getD .whitespace

/-- The text of a leaf. -/
def textAt (t : Tree) (x : NodeId) : String := ((t.token? x).map (·.text)).getD ""

/-- A leaf with its kind. -/
def seenAt (t : Tree) (x : NodeId) : Seen := ⟨x, t.kindAt x⟩

theorem kindAt_of_token? (h : t.token? x = some tok) : t.kindAt x = tok.kind := by
  simp [kindAt, h]

/-- `x` is a leaf of a given kind. -/
def IsOfKind (t : Tree) (kind : Kind) (x : NodeId) : Prop :=
  ∃ tok, t.token? x = some tok ∧ tok.kind = kind

theorem isOfKind_iff_of_token? {kind : Kind} (h : t.token? x = some tok) :
    t.IsOfKind kind x ↔ tok.kind = kind := by
  simp [IsOfKind, h]

theorem isOfKind_iff {kind : Kind} (h : t.isLeaf x = true) :
    t.IsOfKind kind x ↔ t.kindAt x = kind := by
  obtain ⟨tok, htok⟩ := isLeaf_iff.mp h
  rw [kindAt_of_token? htok, isOfKind_iff_of_token? htok]

theorem textAt_of_token? (h : t.token? x = some tok) : t.textAt x = tok.text := by
  simp [textAt, h]

/-- A visible node is a leaf, so its token is not refused. -/
theorem token_of_isVisible (h : t.isVisible x = true) :
    ∃ tok, t.token x = .ok tok ∧ tok.kind = t.kindAt x ∧ tok.text = t.textAt x := by
  obtain ⟨tok, htok, -⟩ := isVisible_iff.mp h
  exact ⟨tok, token_of_token? htok, (kindAt_of_token? htok).symm, (textAt_of_token? htok).symm⟩

/-! ## The leaf before -/

theorem seen_of_isVisible (h : t.isVisible x = true) : t.seen x = .ok (t.seenAt x) := by
  obtain ⟨tok, htok, hkind, -⟩ := token_of_isVisible h
  rw [seen, htok, seenAt, ← hkind]
  rfl

/-- The visible leaf before a node is always known, or known to be missing. -/
theorem seenBefore_eq : t.seenBefore x = .ok ((t.prevVisible? x).map t.seenAt) := by
  rw [seenBefore]
  cases h : t.prevVisible? x with
  | none => rfl
  | some leaf =>
    simp only [seen_of_isVisible (isVisible_of_prevVisible? h)]
    rfl

theorem follows_eq {k : Keyword} :
    t.follows k x = .ok ((t.prevVisible? x).any fun leaf => t.kindAt leaf == .keyword k) := by
  rw [follows]
  cases h : t.prevVisible? x with
  | none => rfl
  | some leaf =>
    obtain ⟨tok, htok, hkind, -⟩ := token_of_isVisible (isVisible_of_prevVisible? h)
    simp only [htok, Option.any_some, ← hkind]
    rfl

end Tree

/-! ## Contexts -/

namespace Context

variable {t : Tree} {x : Nat}

/-- The context of an element is made from the two visible leaves before it. -/
theorem ofElement_eq :
    ofElement t x = .ok ((t.prevVisible? x).map fun leaf =>
      ⟨x, t.seenAt leaf, (t.prevVisible? leaf).map t.seenAt⟩) := by
  rw [ofElement, Tree.seenBefore_eq]
  cases h : t.prevVisible? x with
  | none => rfl
  | some leaf =>
    simp only [Option.map_some, bind, Except.bind, Tree.seenBefore_eq]
    rfl

/-- The context behind a leaf is about the node that the leaf closes. -/
theorem behind_eq {kind : Kind} :
    behind t x kind =
      .ok (some ⟨t.closedBy x kind, ⟨x, kind⟩, (t.prevVisible? x).map t.seenAt⟩) := by
  rw [behind, Tree.seenBefore_eq]
  rfl

/-- The context at an offset, from the element there. -/
theorem ofOffset_of_elementAt? {offset : Nat} {tok : Token} (helem : t.elementAt? offset = some x)
    (htok : t.token? x = some tok) :
    ofOffset t offset =
      if (tok.kind.isTrivia || tok.kind.isWord || offset < tok.stop) = true then ofElement t x
      else behind t x tok.kind := by
  rw [ofOffset, helem]
  simp only [Tree.token_of_token? htok]
  rfl

end Context

/-- What has been typed at an offset, from the element there. -/
theorem Engine.typed_of_elementAt? {t : Tree} {x offset : Nat} {tok : Token}
    (helem : t.elementAt? offset = some x) (htok : t.token? x = some tok) :
    typed t offset = .ok (typedPart tok offset) := by
  rw [typed, helem]
  simp only [Tree.token_of_token? htok]
  rfl

/-! ## Regions -/

/-- The leaf before ends an event type that follows `insert`. -/
def Context.endsInsertedEventType (c : Context) (t : Tree) : Bool :=
  ((t.parent? c.prev.node).filter (t.hasRule .outputEventType)).any fun eventType =>
    (t.prevVisible? eventType).any fun leaf => t.kindAt leaf == .keyword .insert

/-- Whether an event type behind `insert` has just ended is always known. -/
theorem Context.afterInsertedEventType_eq {t : Tree} {c : Context} :
    c.afterInsertedEventType t = .ok (c.endsInsertedEventType t) := by
  rw [afterInsertedEventType, endsInsertedEventType]
  cases (t.parent? c.prev.node).filter (t.hasRule .outputEventType) with
  | none => rfl
  | some eventType => exact Tree.follows_eq

namespace Region

/-- The region of a context. -/
def of (t : Tree) (c : Context) : Option Region :=
  if !c.isWithin t .query then if c.betweenStatements t then some .topLevel else none
  else if c.isWithin t .queryInput then some .queryInput
  else if c.afterAnonymousStream t then some .afterAnonymousStreamInput
  else if c.isWithin t .querySection then some .querySection
  else if c.isWithin t .outputRate then some .outputRate
  else if c.afterEventRate t then some .startOfQueryOutput
  else if c.afterInsert t then some .afterInsertKeyword
  else some (if c.endsInsertedEventType t then .afterOutputEventType else .queryOutput)

/-- Every context has a region or is known to have none. -/
theorem classify_eq {t : Tree} {c : Context} : classify t c = .ok (of t c) := by
  rw [classify, of]
  rw [Context.afterInsertedEventType_eq]
  simp only [bind, Except.bind, pure, Except.pure, apply_ite Except.ok]

end Region

/-! ## Definitions -/

namespace Tree

variable {t : Tree} {x : Nat}

/-- The attribute of an attribute name and its leaf. -/
def attributeAt (t : Tree) (named : NodeId × NodeId) : Attribute :=
  ⟨t.textAt named.2, t.typeAfter? named.1, named.2⟩

/-- The attributes of a definition are read from visible leaves. -/
theorem attributeOf_eq {named : NodeId × NodeId} (h : named ∈ t.attributeNames x) :
    t.attributeOf named = .ok (t.attributeAt named) := by
  obtain ⟨y, -, hy⟩ := List.mem_filterMap.mp h
  obtain ⟨leaf, hleaf, hnamed⟩ := Option.map_eq_some_iff.mp hy
  subst hnamed
  obtain ⟨tok, htok, -, htext⟩ := token_of_isVisible (isVisible_of_firstVisible? hleaf)
  rw [attributeOf, htok, attributeAt, ← htext]
  rfl

theorem isVisible_of_nameLeaf? {leaf : Nat} (h : t.nameLeaf? x = some leaf) :
    t.isVisible leaf = true := by
  obtain ⟨y, -, hy⟩ := Option.bind_eq_some_iff.mp h
  exact isVisible_of_firstVisible? hy

/-- The definition at a node. -/
def definitionAt? (t : Tree) (x : NodeId) : Option Definition :=
  ((t.rule? x).bind DefinitionKind.ofRule?).bind fun kind =>
    (t.nameLeaf? x).map fun leaf =>
      ⟨t.textAt leaf, kind, (t.attributeNames x).map t.attributeAt, leaf⟩

/-- Every node is known to be a definition or not. -/
theorem ofNode?_eq : Definition.ofNode? t x = .ok (t.definitionAt? x) := by
  rw [Definition.ofNode?, definitionAt?]
  cases (t.rule? x).bind DefinitionKind.ofRule? with
  | none => rfl
  | some kind =>
    cases hleaf : t.nameLeaf? x with
    | none => rfl
    | some leaf =>
      obtain ⟨tok, htok, -, htext⟩ := token_of_isVisible (isVisible_of_nameLeaf? hleaf)
      simp only [htok, mapM_eq_ok fun _ h => attributeOf_eq h, Option.bind_some, Option.map_some,
        ← htext]
      rfl

/-- The catalog of a tree. -/
def catalog (t : Tree) : Catalog :=
  ⟨((Catalog.definitionNodes t).filterMap t.definitionAt?).mergeSort fun a b => a.node ≤ b.node⟩

/-- Every tree has a catalog. -/
theorem ofTree_eq : Catalog.ofTree t = .ok t.catalog := by
  rw [Catalog.ofTree, mapM_eq_ok fun _ _ => ofNode?_eq, catalog]
  simp only [bind, Except.bind, pure, Except.pure, List.filterMap_map, Function.id_comp]

/-! ## The streams that a query reads -/

/-- The names of the streams that the query around `x` reads, each once. -/
def readStreams (t : Tree) (x : NodeId) : List String :=
  ((t.ancestor? .query x).map fun query =>
    firstsBy id ((t.inputStreamLeaves query).map t.textAt)).getD []

theorem token?_of_mem_inputStreamLeaves {query : Nat} (h : x ∈ t.inputStreamLeaves query) :
    ∃ tok, t.token? x = some tok := by
  obtain ⟨y, -, hy⟩ := List.mem_filterMap.mp h
  obtain ⟨tok, htok, -⟩ := isVisible_iff.mp (isVisible_of_firstVisible? hy)
  exact ⟨tok, htok⟩

/-- The streams that are read around a node are always known. -/
theorem inputStreams_eq : t.inputStreams x = .ok (t.readStreams x) := by
  rw [inputStreams, readStreams]
  cases t.ancestor? .query x with
  | none => rfl
  | some query =>
    have htokens : (t.inputStreamLeaves query).mapM t.token =
        .ok ((t.inputStreamLeaves query).map fun leaf => (t.token? leaf).getD ⟨.dot, "", 0⟩) := by
      refine mapM_eq_ok fun leaf hleaf => ?_
      obtain ⟨tok, htok⟩ := token?_of_mem_inputStreamLeaves hleaf
      rw [token_of_token? htok, htok]
      rfl
    simp only [htokens, Option.map_some, Option.getD_some, bind, Except.bind, pure, Except.pure,
      List.map_map]
    congr 2
    refine List.map_congr_left fun leaf hleaf => ?_
    obtain ⟨tok, htok⟩ := token?_of_mem_inputStreamLeaves hleaf
    simp [textAt, htok]

end Tree

/-! ## Clauses -/

namespace Clause

variable {t : Tree} {c : Context}

theorem definitionNames_eq :
    definitionNames t = .ok (t.catalog.definitions.map Suggestion.ofDefinition) := by
  rw [definitionNames, Tree.ofTree_eq]
  rfl

theorem tableNames_eq :
    tableNames t = .ok ((t.catalog.ofKind .table).map Suggestion.ofDefinition) := by
  rw [tableNames, Tree.ofTree_eq]
  rfl

theorem inputAttributes_eq {x : Nat} :
    inputAttributes t x =
      .ok ((t.catalog.attributesOf (t.readStreams x)).map Suggestion.ofAttribute) := by
  rw [inputAttributes, Tree.ofTree_eq, Tree.inputStreams_eq]
  rfl

/-- The verb of an output is its first visible leaf. -/
theorem outputVerb?_eq :
    outputVerb? t c =
      .ok (((t.ancestor? .queryOutput c.prev.node).bind t.firstVisible?).map t.kindAt) := by
  rw [outputVerb?]
  cases h : (t.ancestor? .queryOutput c.prev.node).bind t.firstVisible? with
  | none => rfl
  | some leaf =>
    obtain ⟨y, -, hy⟩ := Option.bind_eq_some_iff.mp h
    obtain ⟨tok, htok, hkind, -⟩ := Tree.token_of_isVisible (Tree.isVisible_of_firstVisible? hy)
    simp only [htok, Option.map_some, ← hkind]
    rfl

/-- The clause of a query input always has an answer. -/
theorem queryInput_ok (t : Tree) (c : Context) : ∃ offered, queryInput t c = .ok offered := by
  rw [queryInput, definitionNames_eq]
  split
  case h_2 => split <;> exact ⟨_, rfl⟩
  all_goals exact ⟨_, rfl⟩

theorem querySection_ok (t : Tree) (c : Context) : ∃ offered, querySection t c = .ok offered := by
  rw [querySection, inputAttributes_eq]
  split
  case h_4 => split <;> exact ⟨_, rfl⟩
  all_goals exact ⟨_, rfl⟩

theorem outputRate_ok (t : Tree) (c : Context) : ∃ offered, outputRate t c = .ok offered := by
  rw [outputRate]
  split <;> exact ⟨_, rfl⟩

theorem afterTarget_ok (t : Tree) (c : Context) : ∃ offered, afterTarget t c = .ok offered := by
  rw [afterTarget, outputVerb?_eq]
  simp only [bind, Except.bind]
  split <;> exact ⟨_, rfl⟩

theorem queryOutput_ok (t : Tree) (c : Context) : ∃ offered, queryOutput t c = .ok offered := by
  have hotherwise : ∃ offered, (if c.prevWithin t .target then afterTarget t c
      else .ok (Suggestion.keywords Vocabulary.queryOutputStart)) = .ok offered := by
    split
    · exact afterTarget_ok t c
    · exact ⟨_, rfl⟩
  simp only [queryOutput, definitionNames_eq, tableNames_eq]
  split
  case h_4 => split <;> [exact ⟨_, rfl⟩; exact hotherwise]
  case h_6 => exact hotherwise
  all_goals exact ⟨_, rfl⟩

end Clause

/-- The standard engine has suggestions for every context. -/
theorem Engine.standard_suggestions_ok (t : Tree) (c? : Option Context) :
    ∃ offered, standard.suggestions t c? = .ok offered := by
  cases c? with
  | none => exact ⟨_, rfl⟩
  | some c =>
    simp only [suggestions, Region.classify_eq, bind, Except.bind]
    cases Region.of t c with
    | none => exact ⟨_, rfl⟩
    | some region =>
      cases region with
      | queryInput => exact Clause.queryInput_ok t c
      | querySection => exact Clause.querySection_ok t c
      | outputRate => exact Clause.outputRate_ok t c
      | queryOutput => exact Clause.queryOutput_ok t c
      | _ => exact ⟨_, rfl⟩

/-- What is offered in a context is what the clause of its region offers. -/
theorem Engine.suggestions_of_classify (e : Engine) {t : Tree} {c : Context} {region : Region}
    (h : Region.classify t c = .ok (some region)) :
    e.suggestions t (some c) = e.resolve t c region := by
  simp only [suggestions, h]
  rfl

/-- The answer to a request, from its context, what is offered there and what has
been typed. -/
theorem Tree.suggest_eq_ok {t : Tree} {offset : Nat} {c? : Option Context}
    {offered : List Suggestion} {typed : String} (hcontext : Context.ofOffset t offset = .ok c?)
    (hoffered : Engine.standard.suggestions t c? = .ok offered)
    (htyped : Engine.typed t offset = .ok typed) :
    t.suggest offset = .ok (Engine.distinct (offered.filter (·.isMatch typed))) := by
  simp only [suggest, Engine.complete, hcontext, hoffered, htyped, bind, Except.bind]
  rfl

end SiddhiEditor
