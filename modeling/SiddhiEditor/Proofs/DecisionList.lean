import SiddhiEditor.Proofs.Cursor

/-!
# The regions as a decision list

The regions are given by a list of rows.  A row has a condition on the tree, and
the first row whose condition holds decides (`FirstMatch`).  The conditions ask
which rules stand above three nodes: the element, the leaf before it, and the
visible leaf before that.  They are stated on the parents and tokens of the tree,
not on what a context has recorded.

`Context.Records` connects the two.  A context of a request, however it was made,
records the leaf before and the one before that as the tree has them, and then
each test of the classification is the condition of a row.

One test is wider than its row.  A `)` that closes an annotation ends a statement
when the annotation is not part of a query.  The test does not ask for the query.
So the classification follows the list up to this case, `Tree.EndsQueryAnnotation`,
and there it takes the element to be between statements where the list has no
region.
-/

namespace SiddhiEditor

namespace Tree

/-! ## The rows -/

/-- Nothing but the root and partitions stands above `x`. -/
def AtStatementLevel (t : Tree) (x : NodeId) : Prop :=
  ∀ a, t.Above a x → a = root ∨ t.rule? a = some .partition

/-- The leaf closes an annotation. -/
def EndsAnnotation (t : Tree) (leaf : NodeId) : Prop :=
  t.IsOfKind .closePar leaf ∧ t.Under .annotationRule leaf

/-- The leaf ends a statement or an annotation outside all queries, or opens a
block of statements. -/
def EndsStatement (t : Tree) (leaf : NodeId) : Prop :=
  t.IsOfKind .semicolon leaf ∨ t.IsOfKind (.keyword .begin) leaf ∨
    t.EndsAnnotation leaf ∧ ¬ t.Under .query leaf

/-- The element is outside all queries and at statement level, behind a leaf that
closes an annotation inside a query. -/
def EndsQueryAnnotation (t : Tree) (element prev : NodeId) : Prop :=
  ¬ t.Under .query element ∧ t.AtStatementLevel element ∧ t.EndsAnnotation prev ∧
    t.Under .query prev

end Tree

namespace Region

/-- A row of a decision list. -/
structure Row where
  /-- When the row applies. -/
  condition : Prop
  /-- The region that it gives, if any. -/
  region : Option Region

/-- The first row that applies gives the region. -/
inductive FirstMatch : List Row → Option Region → Prop where
  | here {row : Row} {rest : List Row} : row.condition → FirstMatch (row :: rest) row.region
  | later {row : Row} {rest : List Row} {region : Option Region} :
    ¬ row.condition → FirstMatch rest region → FirstMatch (row :: rest) region

/-- The rows for a request about an element behind the leaf `prev`. -/
def decisionList (t : Tree) (element prev : NodeId) : List Row :=
  [⟨¬ t.Under .query element ∧ t.AtStatementLevel element ∧ t.EndsStatement prev,
      some .topLevel⟩,
    ⟨¬ t.Under .query element, none⟩,
    ⟨t.Under .queryInput element, some .queryInput⟩,
    ⟨t.Under .queryInput prev ∧ t.Under .anonymousStream prev ∧
        (t.Under .outputEventType prev ∨
          t.IsOfKind .closePar prev ∧ ∃ before, t.Precedes before prev ∧
            t.Under .outputEventType before),
      some .afterAnonymousStreamInput⟩,
    ⟨t.Under .querySection element, some .querySection⟩,
    ⟨t.Under .outputRate element, some .outputRate⟩,
    ⟨t.Under .outputRate prev ∧ t.IsOfKind (.keyword .events) prev ∧
        ∃ before, t.Precedes before prev ∧ t.IsOfKind .intLiteral before,
      some .startOfQueryOutput⟩,
    ⟨t.IsOfKind (.keyword .insert) prev ∧
        ∃ before, t.Precedes before prev ∧
          (t.Under .outputRate before ∨ t.Under .querySection before ∨
            t.Under .queryInput before),
      some .afterInsertKeyword⟩,
    ⟨∃ eventType, t.parent? prev = some eventType ∧ t.rule? eventType = some .outputEventType ∧
        ∃ before, t.Precedes before eventType ∧ t.IsOfKind (.keyword .insert) before,
      some .afterOutputEventType⟩,
    ⟨True, some .queryOutput⟩]

namespace FirstMatch

variable {rows : List Row} {region region' : Option Region}

/-- A list gives one region at most. -/
theorem unique (h : FirstMatch rows region) (h' : FirstMatch rows region') : region = region' := by
  induction h with
  | here hrow =>
    cases h' with
    | here => rfl
    | later hnot => exact absurd hrow hnot
  | later hnot _ ih =>
    cases h' with
    | here hrow => exact absurd hrow hnot
    | later _ hrest => exact ih hrest

/-- A test for the condition of the first row decides between its region and that
of the other rows. -/
theorem test {test : Bool} {condition : Prop} (h : test = true ↔ condition)
    (hrest : FirstMatch rows region') :
    FirstMatch (⟨condition, region⟩ :: rows) (if test then region else region') := by
  cases test with
  | true => exact @here ⟨condition, region⟩ rows (h.mp rfl)
  | false => exact later (fun hc => Bool.noConfusion (h.mpr hc)) hrest

end FirstMatch

end Region

/-! ## What contexts record -/

namespace Context

variable {t : Tree} {c : Context}

/-- The context is about a visible leaf and the visible leaf before it, as the tree
has them. -/
structure Records (t : Tree) (c : Context) : Prop where
  visible : t.isVisible c.prev.node = true
  follows : c.Follows t c.prev.node

/-- The context of an element records visible leaves. -/
theorem records_of_ofElement {x : Nat} (h : ofElement t x = .ok (some c)) : c.Records t := by
  rw [ofElement_eq, Except.ok.injEq, Option.map_eq_some_iff] at h
  obtain ⟨leaf, hleaf, rfl⟩ := h
  exact ⟨Tree.isVisible_of_prevVisible? hleaf, rfl, rfl⟩

/-- So does the context at an offset. -/
theorem records_of_ofOffset (doc : t.Document) {offset : Nat}
    (h : ofOffset t offset = .ok (some c)) : c.Records t := by
  rw [ofOffset] at h
  cases helem : t.elementAt? offset with
  | none =>
    rw [helem] at h
    cases h
  | some leaf =>
    obtain ⟨tok, htok⟩ := doc.token?_of_elementAt? helem
    simp only [helem, Tree.token_of_token? htok, bind, Except.bind] at h
    split at h
    · exact records_of_ofElement h
    next hpunctuation =>
      rw [behind_eq, Except.ok.injEq, Option.some_inj] at h
      subst h
      refine ⟨Tree.isVisible_iff.mpr ⟨tok, htok, ?_⟩, ?_, rfl⟩
      · simp only [Bool.or_eq_true, not_or] at hpunctuation
        simpa [Token.isVisible] using hpunctuation.1.1
      · rw [Tree.seenAt, Tree.kindAt_of_token? htok]

namespace Records

variable (wf : t.WellFormed) (records : c.Records t)

include records

theorem kind_eq : c.prev.kind = t.kindAt c.prev.node := congrArg Seen.kind records.follows.1

theorem lt_size : c.prev.node < t.size := by
  obtain ⟨tok, htok, -⟩ := Tree.isVisible_iff.mp records.visible
  exact Tree.lt_size_of_token? htok

theorem isOfKind_iff {kind : Kind} : t.IsOfKind kind c.prev.node ↔ c.prev.kind = kind := by
  rw [Tree.isOfKind_iff (Tree.isLeaf_of_isVisible records.visible), records.kind_eq]

theorem prevIs_iff {kind : Kind} : c.prevIs kind = true ↔ t.IsOfKind kind c.prev.node := by
  rw [prevIs, beq_iff_eq, records.isOfKind_iff]

include wf

/-- A test of the leaf before the leaf before. -/
theorem prevPrev_any_iff {p : Seen → Bool} {P : NodeId → Prop}
    (h : ∀ leaf, t.isVisible leaf = true → (p (t.seenAt leaf) = true ↔ P leaf)) :
    c.prevPrev.any p = true ↔ ∃ before, t.Precedes before c.prev.node ∧ P before := by
  rw [records.follows.2, Option.any_map, Option.any_eq_true]
  refine exists_congr fun leaf => ?_
  rw [wf.prevVisible?_eq_some_iff records.lt_size]
  exact and_congr_right fun hleaf => h leaf hleaf.2.1

theorem prevPrevWithin_iff {r : Rule} :
    c.prevPrevWithin t r = true ↔
      ∃ before, t.Precedes before c.prev.node ∧ t.Under r before :=
  records.prevPrev_any_iff wf fun _ _ => wf.isWithin_iff

theorem prevPrevIs_iff {kind : Kind} :
    c.prevPrevIs kind = true ↔
      ∃ before, t.Precedes before c.prev.node ∧ t.IsOfKind kind before := by
  refine records.prevPrev_any_iff wf fun leaf hleaf => ?_
  rw [beq_iff_eq, Tree.isOfKind_iff (Tree.isLeaf_of_isVisible hleaf)]
  rfl

/-! ## The tests of the classification -/

theorem afterAnonymousStream_iff :
    c.afterAnonymousStream t = true ↔
      t.Under .queryInput c.prev.node ∧ t.Under .anonymousStream c.prev.node ∧
        (t.Under .outputEventType c.prev.node ∨
          t.IsOfKind .closePar c.prev.node ∧ ∃ before, t.Precedes before c.prev.node ∧
            t.Under .outputEventType before) := by
  simp only [afterAnonymousStream, prevWithin, Bool.and_eq_true, Bool.or_eq_true, and_assoc,
    wf.isWithin_iff, records.prevIs_iff, records.prevPrevWithin_iff wf]

theorem afterEventRate_iff :
    c.afterEventRate t = true ↔
      t.Under .outputRate c.prev.node ∧ t.IsOfKind (.keyword .events) c.prev.node ∧
        ∃ before, t.Precedes before c.prev.node ∧ t.IsOfKind .intLiteral before := by
  simp only [afterEventRate, prevWithin, Bool.and_eq_true, and_assoc, wf.isWithin_iff,
    records.prevIs_iff, records.prevPrevIs_iff wf]

theorem afterInsert_iff :
    c.afterInsert t = true ↔
      t.IsOfKind (.keyword .insert) c.prev.node ∧
        ∃ before, t.Precedes before c.prev.node ∧
          (t.Under .outputRate before ∨ t.Under .querySection before ∨
            t.Under .queryInput before) := by
  simp only [afterInsert, Bool.and_eq_true, Bool.or_eq_true, or_assoc, records.prevIs_iff,
    records.prevPrevWithin_iff wf, and_or_left, exists_or]

omit records in
theorem endsInsertedEventType_iff :
    c.endsInsertedEventType t = true ↔
      ∃ eventType, t.parent? c.prev.node = some eventType ∧
        t.rule? eventType = some .outputEventType ∧
        ∃ before, t.Precedes before eventType ∧ t.IsOfKind (.keyword .insert) before := by
  rw [endsInsertedEventType, Option.any_eq_true]
  simp only [Option.filter_eq_some_iff, Tree.hasRule, beq_iff_eq, and_assoc]
  refine exists_congr fun eventType => and_congr_right fun _ => and_congr_right fun hrule => ?_
  rw [Option.any_eq_true]
  refine exists_congr fun before => ?_
  rw [wf.prevVisible?_eq_some_iff (Tree.lt_size_of_rule? hrule)]
  refine and_congr_right fun hbefore => ?_
  rw [beq_iff_eq, Tree.isOfKind_iff (Tree.isLeaf_of_isVisible hbefore.2.1)]

/-- The leaf before ends a statement, or an annotation of a query. -/
theorem afterStatement_iff :
    c.afterStatement t = true ↔
      t.EndsStatement c.prev.node ∨ t.EndsAnnotation c.prev.node ∧ t.Under .query c.prev.node := by
  have hsplit : t.EndsStatement c.prev.node ∨
        t.EndsAnnotation c.prev.node ∧ t.Under .query c.prev.node ↔
      t.IsOfKind .semicolon c.prev.node ∨ t.IsOfKind (.keyword .begin) c.prev.node ∨
        t.EndsAnnotation c.prev.node := by
    rw [Tree.EndsStatement]
    tauto
  rw [hsplit, Tree.EndsAnnotation]
  simp only [records.isOfKind_iff, afterStatement, prevWithin, ← wf.isWithin_iff]
  split
  next hkind => simp [hkind]
  next hkind => simp [hkind]
  next hkind => simp [hkind]
  next hsemicolon hbegin hclose =>
    simp only [Bool.false_eq_true, false_iff, not_or, not_and]
    exact ⟨hsemicolon, hbegin, fun hkind => absurd hkind hclose⟩

end Records

end Context

/-! ## Documents without errors -/

/-- The root is the one application of the tree, and no node is an error. -/
structure Tree.IsApplication (t : Tree) : Prop where
  rule_root : t.rule? root = some .siddhiApp
  only : ∀ x < t.size, t.rule? x = some .siddhiApp → x = root
  errorFree : ∀ x < t.size, t.rule? x ≠ some .error

namespace Tree.IsApplication

variable {t : Tree} {c : Context} (app : t.IsApplication) (wf : t.WellFormed)

include app

/-- Statements stand under the root and under partitions. -/
theorem mayHoldStatements_iff {x : Nat} :
    Context.mayHoldStatements (t.rule? x) = true ↔ x = root ∨ t.rule? x = some .partition := by
  constructor
  · intro h
    unfold Context.mayHoldStatements at h
    split at h
    next hrule => exact Or.inl (app.only x (lt_size_of_rule? hrule) hrule)
    next hrule => exact Or.inr hrule
    next hrule => exact absurd hrule (app.errorFree x (lt_size_of_rule? hrule))
    next => cases h
  · intro h
    rcases h with rfl | hrule
    · rw [app.rule_root]
      rfl
    · rw [hrule]
      rfl

include wf

/-- Where a statement may start, said by the tree. -/
theorem betweenStatements_iff (records : c.Records t) :
    c.betweenStatements t = true ↔
      t.AtStatementLevel c.element ∧
        (t.EndsStatement c.prev.node ∨
          t.EndsAnnotation c.prev.node ∧ t.Under .query c.prev.node) := by
  rw [Context.betweenStatements, Bool.and_eq_true, records.afterStatement_iff wf, List.all_eq_true]
  simp only [app.mayHoldStatements_iff, AtStatementLevel, wf.above_iff]

/-- Behind anything but an annotation of a query, the first row that applies gives
the region. -/
theorem firstMatch_of (records : c.Records t)
    (h : ¬ t.EndsQueryAnnotation c.element c.prev.node) :
    Region.FirstMatch (Region.decisionList t c.element c.prev.node) (Region.of t c) := by
  have hwithin : ∀ r, c.isWithin t r = true ↔ t.Under r c.element := fun r => wf.isWithin_iff
  have houtside : (!c.isWithin t .query) = true ↔ ¬ t.Under .query c.element := by
    rw [Bool.not_eq_true', ← Bool.not_eq_true, hwithin]
  have htop : (!c.isWithin t .query && c.betweenStatements t) = true ↔
      ¬ t.Under .query c.element ∧ t.AtStatementLevel c.element ∧ t.EndsStatement c.prev.node := by
    rw [Bool.and_eq_true, houtside, app.betweenStatements_iff wf records]
    refine and_congr_right fun hquery => and_congr_right fun hlevel => or_iff_left ?_
    exact fun hends => h ⟨hquery, hlevel, hends⟩
  have hregion : Region.of t c =
      if !c.isWithin t .query && c.betweenStatements t then some .topLevel
      else if !c.isWithin t .query then none
      else if c.isWithin t .queryInput then some .queryInput
      else if c.afterAnonymousStream t then some .afterAnonymousStreamInput
      else if c.isWithin t .querySection then some .querySection
      else if c.isWithin t .outputRate then some .outputRate
      else if c.afterEventRate t then some .startOfQueryOutput
      else if c.afterInsert t then some .afterInsertKeyword
      else if c.endsInsertedEventType t then some .afterOutputEventType
      else some .queryOutput := by
    rw [Region.of, apply_ite some]
    cases c.isWithin t .query <;> simp
  rw [hregion]
  exact .test htop <| .test houtside <| .test (hwithin _) <|
    .test (records.afterAnonymousStream_iff wf) <| .test (hwithin _) <| .test (hwithin _) <|
    .test (records.afterEventRate_iff wf) <| .test (records.afterInsert_iff wf) <|
    .test (Context.Records.endsInsertedEventType_iff wf) (.here trivial)

/-- Behind an annotation of a query, the element is taken to be between
statements, and the list has no region. -/
theorem topLevel_of (records : c.Records t) (h : t.EndsQueryAnnotation c.element c.prev.node) :
    Region.of t c = some .topLevel ∧
      Region.FirstMatch (Region.decisionList t c.element c.prev.node) none := by
  obtain ⟨houtside, hlevel, hends, hquery⟩ := h
  constructor
  · have hwithin : c.isWithin t .query = false := by
      rw [← Bool.not_eq_true]
      exact fun h => houtside (wf.isWithin_iff.mp h)
    have hbetween : c.betweenStatements t = true :=
      (app.betweenStatements_iff wf records).mpr ⟨hlevel, Or.inr ⟨hends, hquery⟩⟩
    simp [Region.of, hwithin, hbetween]
  · refine .later (fun hrow => ?_) (.here houtside)
    obtain ⟨-, -, hstatement⟩ := hrow
    have hclose := records.isOfKind_iff.mp hends.1
    rw [EndsStatement, records.isOfKind_iff, records.isOfKind_iff, hclose] at hstatement
    rcases hstatement with hkind | hkind | ⟨-, hnot⟩
    · cases hkind
    · cases hkind
    · exact hnot hquery

end Tree.IsApplication

namespace Region

open SiddhiEditor.Tree

/-- In the tree of a document without errors, every context of a request has the
region that the first matching row of the decision list gives, unless the element
is at statement level behind an annotation of a query.  There the region is
`topLevel`, and the list gives none. -/
theorem classify_firstMatch {steps : List Step} {t : Tree} {c : Context}
    (h : ofSteps steps = .ok t) (app : t.IsApplication)
    (hc : (∃ x, Context.ofElement t x = .ok (some c)) ∨
      ∃ offset, Context.ofOffset t offset = .ok (some c)) :
    ∃ region, classify t c = .ok region ∧
      (FirstMatch (decisionList t c.element c.prev.node) region ↔
        ¬ t.EndsQueryAnnotation c.element c.prev.node) ∧
      (t.EndsQueryAnnotation c.element c.prev.node →
        region = some .topLevel ∧
          FirstMatch (decisionList t c.element c.prev.node) none) := by
  have doc := document_of_ofSteps h
  have records : c.Records t := by
    rcases hc with ⟨x, hx⟩ | ⟨offset, hoffset⟩
    · exact Context.records_of_ofElement hx
    · exact Context.records_of_ofOffset doc hoffset
  refine ⟨of t c, classify_eq, ⟨fun hmatch hends => ?_, app.firstMatch_of doc.toWellFormed records⟩,
    app.topLevel_of doc.toWellFormed records⟩
  obtain ⟨htop, hnone⟩ := app.topLevel_of doc.toWellFormed records hends
  rw [htop] at hmatch
  cases hmatch.unique hnone

/-- A query that has read an anonymous stream. -/
def anonymousInput : List Step :=
  [.openNode .siddhiApp, .openNode .query, .openNode .queryInput, .text "from ",
    .openNode .anonymousStream, .text "(", .openNode .queryInput, .text "from S", .closeNode,
    .text " return ", .openNode .outputEventType, .text "all events", .closeNode, .text ")",
    .closeNode, .closeNode, .text " ", .closeNode, .closeNode]

/-- Behind the `)` of the anonymous stream the row for anonymous streams is the
first that applies. -/
theorem classify_firstMatch_anonymousInput :
    ∃ t c, ofSteps anonymousInput = .ok t ∧ t.IsApplication ∧
      Context.ofOffset t 32 = .ok (some c) ∧
      FirstMatch (decisionList t c.element c.prev.node) (some .afterAnonymousStreamInput) := by
  have h : ofSteps anonymousInput = .ok (Draft.empty.run anonymousInput).tree := rfl
  have app : (Draft.empty.run anonymousInput).tree.IsApplication :=
    ⟨by decide, by decide, by decide⟩
  have hcontext : Context.ofOffset (Draft.empty.run anonymousInput).tree 32 =
      .ok (some ⟨19, ⟨18, .closePar⟩, some ⟨17, .keyword .events⟩⟩) := by decide
  obtain ⟨region, hregion, hlist, -⟩ := classify_firstMatch h app (.inr ⟨32, hcontext⟩)
  have hfound : classify (Draft.empty.run anonymousInput).tree
      ⟨19, ⟨18, .closePar⟩, some ⟨17, .keyword .events⟩⟩ =
      .ok (some .afterAnonymousStreamInput) := by decide
  cases hregion.symm.trans hfound
  refine ⟨_, _, h, app, hcontext, hlist.mpr fun hends => hends.1 ?_⟩
  exact (document_of_ofSteps h).isWithin_iff.mp (by decide)

/-- A query of which only the annotation has been written. -/
def annotatedQuery : List Step :=
  [.openNode .siddhiApp, .openNode .query, .openNode .annotationRule, .text "@info(name = 'q')",
    .closeNode, .closeNode, .text " ", .closeNode]

/-- Behind the annotation the region is `topLevel`.  The list gives no region,
because the `)` is in the query. -/
theorem classify_annotatedQuery :
    ∃ t c, ofSteps annotatedQuery = .ok t ∧ t.IsApplication ∧
      Context.ofOffset t 18 = .ok (some c) ∧ classify t c = .ok (some .topLevel) ∧
      FirstMatch (decisionList t c.element c.prev.node) none ∧
      ¬ FirstMatch (decisionList t c.element c.prev.node) (some .topLevel) := by
  have app : (Draft.empty.run annotatedQuery).tree.IsApplication :=
    ⟨by decide, by decide, by decide⟩
  have h : ofSteps annotatedQuery = .ok (Draft.empty.run annotatedQuery).tree := rfl
  have doc := document_of_ofSteps h
  have hcontext : Context.ofOffset (Draft.empty.run annotatedQuery).tree 18 =
      .ok (some ⟨12, ⟨11, .closePar⟩, some ⟨10, .stringLiteral⟩⟩) := by decide
  have records := Context.records_of_ofOffset doc hcontext
  have houtside : ¬ (Draft.empty.run annotatedQuery).tree.Under .query 12 := by
    rw [← doc.isWithin_iff]
    decide
  have hlevel : (Draft.empty.run annotatedQuery).tree.AtStatementLevel 12 := by
    intro a ha
    have hroot : (Draft.empty.run annotatedQuery).tree.ancestors 12 = [root] := by decide
    rw [doc.above_iff, hroot, List.mem_singleton] at ha
    exact Or.inl ha
  obtain ⟨htop, hnone⟩ := app.topLevel_of doc.toWellFormed records
    ⟨houtside, hlevel, ⟨records.isOfKind_iff.mpr rfl, doc.isWithin_iff.mp (by decide)⟩,
      doc.isWithin_iff.mp (by decide)⟩
  refine ⟨_, _, h, app, hcontext, classify_eq.trans (congrArg _ htop), hnone, fun hmatch => ?_⟩
  cases hmatch.unique hnone

end Region

end SiddhiEditor
