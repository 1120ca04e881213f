import SiddhiEditor.Proofs.Reindentation

/-!
# Which questions fail

A question about the tree of a document fails in two cases only.

* A completion request fails when the clause of its region fails, and it fails
  with the error of that clause.  The clauses of this library never fail, so the
  standard engine answers every request.
* The role of a node, and the definition that it refers to, are asked of leaves.
  An interior node is refused, and the error names the node and its rule.

The steps on the way to an answer look tokens up at leaves that a search has
found, so none of them fails.  What is left of each question is the one step that
may, and `bind_eq_error_iff` finds it.
-/

namespace SiddhiEditor

/-- Two steps fail when the first fails, or when the second fails on what the
first has given. -/
theorem bind_eq_error_iff {ε α β : Type} {first : Except ε α} {second : α → Except ε β} {err : ε} :
    first >>= second = .error err ↔
      first = .error err ∨ ∃ a, first = .ok a ∧ second a = .error err := by
  cases first with
  | error e => simp [bind, Except.bind]
  | ok a => simp [bind, Except.bind]

/-! ## Requests -/

/-- A request at an offset always has a context or none. -/
theorem Tree.Document.ofOffset_ok {t : Tree} (doc : t.Document) (offset : Nat) :
    ∃ c?, Context.ofOffset t offset = .ok c? := by
  cases helem : t.elementAt? offset with
  | none => exact ⟨none, by rw [Context.ofOffset, helem]⟩
  | some leaf =>
    obtain ⟨tok, htok⟩ := doc.token?_of_elementAt? helem
    rw [Context.ofOffset_of_elementAt? helem htok]
    split
    · exact ⟨_, Context.ofElement_eq⟩
    · exact ⟨_, Context.behind_eq⟩

/-- What has been typed is known at every offset. -/
theorem Tree.Document.typed_ok {t : Tree} (doc : t.Document) (offset : Nat) :
    ∃ typed, Engine.typed t offset = .ok typed := by
  cases helem : t.elementAt? offset with
  | none => exact ⟨"", by rw [Engine.typed, helem]⟩
  | some leaf =>
    obtain ⟨tok, htok⟩ := doc.token?_of_elementAt? helem
    exact ⟨_, Engine.typed_of_elementAt? helem htok⟩

namespace Engine

variable (e : Engine) {t : Tree} {c : Context} {err : Error}

/-- The clause that answers in a region.  The other regions have fixed
suggestions. -/
def clause? : Region → Option Clause
  | .queryInput => some e.queryInput
  | .querySection => some e.querySection
  | .outputRate => some e.outputRate
  | .queryOutput => some e.queryOutput
  | _ => none

/-- The context is in the region of a clause, and the clause fails on it. -/
def Fails (t : Tree) (c : Context) (err : Error) : Prop :=
  ∃ region clause, Region.classify t c = .ok (some region) ∧ e.clause? region = some clause ∧
    clause t c = .error err

theorem resolve_eq_error_iff {region : Region} :
    e.resolve t c region = .error err ↔
      ∃ clause, e.clause? region = some clause ∧ clause t c = .error err := by
  cases region <;> simp [resolve, clause?]

theorem suggestions_eq_error_iff {c? : Option Context} :
    e.suggestions t c? = .error err ↔ ∃ c, c? = some c ∧ e.Fails t c err := by
  cases c? with
  | none => simp [suggestions]
  | some c =>
    simp only [suggestions, Region.classify_eq, bind, Except.bind, Option.some_inj,
      exists_eq_left', Fails, Except.ok.injEq]
    cases Region.of t c with
    | none => simp [pure, Except.pure]
    | some region => simp [resolve_eq_error_iff]

/-- A request at an offset fails when the clause of its region fails. -/
theorem complete_eq_error_iff (doc : t.Document) {offset : Nat} :
    e.complete t offset = .error err ↔
      ∃ c, Context.ofOffset t offset = .ok (some c) ∧ e.Fails t c err := by
  obtain ⟨c?, hcontext⟩ := doc.ofOffset_ok offset
  obtain ⟨typed, htyped⟩ := doc.typed_ok offset
  have hlast : ∀ offered : List Suggestion,
      (do let typed ← Engine.typed t offset
          return distinct (offered.filter (·.isMatch typed)) : Except Error _) ≠ .error err := by
    intro offered
    rw [htyped]
    exact nofun
  rw [complete, bind_eq_error_iff]
  simp only [hcontext, bind_eq_error_iff, suggestions_eq_error_iff, hlast, Except.ok.injEq,
    exists_eq_left', reduceCtorEq, false_or, and_false, exists_false, or_false]

/-- A request about an element fails when the clause of its region fails. -/
theorem completeAt_eq_error_iff {x : Nat} :
    e.completeAt t x = .error err ↔
      ∃ c, Context.ofElement t x = .ok (some c) ∧ e.Fails t c err := by
  obtain ⟨c?, hcontext⟩ : ∃ c?, Context.ofElement t x = .ok c? := ⟨_, Context.ofElement_eq⟩
  rw [completeAt, bind_eq_error_iff]
  simp only [hcontext, bind_eq_error_iff, suggestions_eq_error_iff, pure, Except.pure,
    Except.ok.injEq, exists_eq_left', reduceCtorEq, false_or, and_false, exists_false, or_false]

end Engine

namespace Tree

variable {t : Tree} {x : Nat} {err : Error}

/-- The standard engine answers every request. -/
theorem Document.suggest_ok (doc : t.Document) (offset : Nat) :
    ∃ answer, t.suggest offset = .ok answer := by
  cases h : t.suggest offset with
  | ok answer => exact ⟨answer, rfl⟩
  | error err =>
    obtain ⟨c, hcontext, hfails⟩ := (Engine.standard.complete_eq_error_iff doc).mp h
    obtain ⟨offered, hoffered⟩ := Engine.standard_suggestions_ok t (some c)
    have herror := Engine.standard.suggestions_eq_error_iff.mpr ⟨c, rfl, hfails⟩
    cases hoffered.symm.trans herror

/-! ## References -/

/-- The token of a node is refused when the node is interior. -/
theorem token_eq_error_iff (hx : x < t.size) :
    t.token x = .error err ↔ ∃ r, t.rule? x = some r ∧ err = .interiorNode x r := by
  rcases rule?_or_token? hx with ⟨r, hr⟩ | ⟨tok, htok⟩
  · simp [token, token?_eq_none_of_rule? hr, hr, eq_comm]
  · have hrule : t.rule? x = none := by
      cases hr : t.rule? x with
      | none => rfl
      | some r => cases (token?_eq_none_of_rule? hr).symm.trans htok
    simp [token, htok, hrule]

theorem isIntoTarget_ok (t : Tree) (x : Nat) : ∃ found, t.isIntoTarget x = .ok found := by
  rw [isIntoTarget]
  split
  · exact ⟨_, follows_eq⟩
  · exact ⟨false, rfl⟩

theorem role?_eq_error_iff : t.role? x = .error err ↔ t.token x = .error err := by
  obtain ⟨found, hfound⟩ := isIntoTarget_ok t x
  rw [role?, bind_eq_error_iff]
  refine or_iff_left ?_
  rintro ⟨tok, -, hrest⟩
  rw [hfound] at hrest
  split at hrest
  · cases hrest
  · cases hrest

/-- The definition that a node refers to is refused with its role.  A node with a role
has a token, and that is all that is asked of it again. -/
theorem resolve?_eq_error_iff {catalog : Catalog} :
    catalog.resolve? t x = .error err ↔ t.token x = .error err := by
  rw [Catalog.resolve?, bind_eq_error_iff, role?_eq_error_iff]
  refine or_iff_left ?_
  rintro ⟨role, hrole, hrest⟩
  obtain ⟨tok, htok⟩ : ∃ tok, t.token x = .ok tok := by
    cases h : t.token x with
    | ok tok => exact ⟨tok, rfl⟩
    | error fault =>
      rw [role?_eq_error_iff.mpr h] at hrole
      cases hrole
  simp only [htok, inputStreams_eq] at hrest
  split at hrest
  · cases hrest
  · cases hrest
  · cases hrest

/-! ## Documents -/

/-- Every document can be indented anew. -/
theorem Document.reindent_ok (doc : t.Document) (style : CodeStyle) :
    ∃ out, t.reindent style = .ok out := by
  obtain ⟨out, hout, -⟩ := relaid_lines doc style 0 t.source.toList
  refine ⟨String.ofList out, ?_⟩
  rw [reindent, hout]
  rfl

/-- Which questions about a tree fail, and with which error. -/
structure Answering (t : Tree) : Prop where
  /-- A request at an offset fails with its clause. -/
  complete : ∀ (e : Engine) (offset : Nat) (err : Error), e.complete t offset = .error err ↔
    ∃ c, Context.ofOffset t offset = .ok (some c) ∧ e.Fails t c err
  /-- A request about an element fails with its clause. -/
  completeAt : ∀ (e : Engine) (x : Nat) (err : Error), e.completeAt t x = .error err ↔
    ∃ c, Context.ofElement t x = .ok (some c) ∧ e.Fails t c err
  /-- The standard engine answers every request. -/
  suggest : ∀ offset, ∃ answer, t.suggest offset = .ok answer
  /-- There is a catalog. -/
  catalog : ∃ catalog, Catalog.ofTree t = .ok catalog
  /-- Every node is a definition or not. -/
  definition : ∀ x, ∃ definition?, Definition.ofNode? t x = .ok definition?
  /-- The streams read around a node are known. -/
  inputStreams : ∀ x, ∃ names, t.inputStreams x = .ok names
  /-- Every element has a context or none. -/
  ofElement : ∀ x, ∃ c?, Context.ofElement t x = .ok c?
  /-- Every offset has a context or none. -/
  ofOffset : ∀ offset, ∃ c?, Context.ofOffset t offset = .ok c?
  /-- Every context is in a region or in none. -/
  classify : ∀ c, ∃ region?, Region.classify t c = .ok region?
  /-- The document can be indented anew in every style. -/
  reindent : ∀ style, ∃ out, t.reindent style = .ok out
  /-- The role is refused at interior nodes. -/
  role : ∀ (x : Nat) (err : Error), x < t.size →
    (t.role? x = .error err ↔ ∃ r, t.rule? x = some r ∧ err = .interiorNode x r)
  /-- The definition referred to is refused at interior nodes. -/
  resolve : ∀ (catalog : Catalog) (x : Nat) (err : Error), x < t.size →
    (catalog.resolve? t x = .error err ↔ ∃ r, t.rule? x = some r ∧ err = .interiorNode x r)

/-- In the tree of every finished run, questions fail only through a clause that
fails, or at an interior node where a leaf was expected. -/
theorem ofSteps_answering {steps : List Step} (h : ofSteps steps = .ok t) : t.Answering where
  complete e _ _ := e.complete_eq_error_iff (document_of_ofSteps h)
  completeAt e _ _ := e.completeAt_eq_error_iff
  suggest := (document_of_ofSteps h).suggest_ok
  catalog := ⟨_, ofTree_eq⟩
  definition _ := ⟨_, ofNode?_eq⟩
  inputStreams _ := ⟨_, inputStreams_eq⟩
  ofElement _ := ⟨_, Context.ofElement_eq⟩
  ofOffset := (document_of_ofSteps h).ofOffset_ok
  classify _ := ⟨_, Region.classify_eq⟩
  reindent := (document_of_ofSteps h).reindent_ok
  role _ _ hx := role?_eq_error_iff.trans (token_eq_error_iff hx)
  resolve _ _ _ hx := resolve?_eq_error_iff.trans (token_eq_error_iff hx)

/-- A query with an empty token and an empty node, whose output is being typed. -/
def halfOutput : List Step :=
  [.openNode .siddhiApp, .openNode .query, .openNode .queryInput, .text "from é",
    .token .whitespace "", .closeNode, .openNode .querySection, .closeNode, .text " in",
    .closeNode, .closeNode]

/-- The standard engine with a clause for outputs that always fails. -/
def refusingOutput : Engine :=
  { Engine.standard with queryOutput := fun _ _ => .error (.build (.stated "no tables")) }

/-- The request behind the half-typed word fails with the clause, and so does the
role of the empty node, while the standard engine answers. -/
theorem ofSteps_answering_halfOutput :
    ∃ t, ofSteps halfOutput = .ok t ∧
      refusingOutput.complete t 10 = .error (.build (.stated "no tables")) ∧
      t.role? 7 = .error (.interiorNode 7 .querySection) ∧
      ∃ answer, t.suggest 10 = .ok answer := by
  refine ⟨_, rfl, ?_, ?_, (@ofSteps_answering _ halfOutput rfl).suggest 10⟩
  · refine ((@ofSteps_answering _ halfOutput rfl).complete _ _ _).mpr ⟨_, rfl, ?_⟩
    exact ⟨.queryOutput, _, rfl, rfl, rfl⟩
  · exact ((@ofSteps_answering _ halfOutput rfl).role 7 _ (by decide)).mpr ⟨_, rfl, rfl⟩

end Tree

end SiddhiEditor
