import SiddhiEditor.Proofs.Answers

/-!
# Contexts that look alike

Two contexts, each in a tree of its own, have the same region when the questions
of the classification have the same answers for both (`Context.Alike`).  The
questions are which rules stand around the element and around the two leaves
before it, and of which kinds these leaves are.  No question asks for the
application, so an element right under it looks like the application itself.

The suggestions depend on a few questions more, about the names that are defined
and about the query around the element (`Context.Exchangeable`).

The numbers of the rows are not among the answers.  Proofs about two trees use
this: they compare the answers one by one, and take the region and the
suggestions from here.
-/

namespace SiddhiEditor

namespace Context

variable {t t' t'' : Tree} {c c' c'' : Context}

/-- The classification learns the same of both contexts. -/
structure Alike (t : Tree) (c : Context) (t' : Tree) (c' : Context) : Prop where
  /-- The same rules stand around the elements, the application apart. -/
  within : ∀ r, r ≠ .siddhiApp → c'.isWithin t' r = c.isWithin t r
  /-- All nodes around the one element may hold statements if all around the other
  may. -/
  holders : (t'.ancestors c'.element).all (fun x => mayHoldStatements (t'.rule? x)) =
    (t.ancestors c.element).all fun x => mayHoldStatements (t.rule? x)
  /-- The leaves before are of one kind. -/
  kind : c'.prev.kind = c.prev.kind
  /-- The same rules stand around the leaves before. -/
  prevWithin : ∀ r, c'.prevWithin t' r = c.prevWithin t r
  /-- The leaves before these are of one kind. -/
  prevPrevIs : ∀ kind, c'.prevPrevIs kind = c.prevPrevIs kind
  /-- The same rules stand around the leaves before these. -/
  prevPrevWithin : ∀ r, c'.prevPrevWithin t' r = c.prevPrevWithin t r
  /-- Both leaves before end an event type behind `insert`, or neither does. -/
  eventType : c'.endsInsertedEventType t' = c.endsInsertedEventType t

namespace Alike

theorem trans (first : Alike t c t' c') (second : Alike t' c' t'' c'') : Alike t c t'' c'' where
  within r hr := (second.within r hr).trans (first.within r hr)
  holders := second.holders.trans first.holders
  kind := second.kind.trans first.kind
  prevWithin r := (second.prevWithin r).trans (first.prevWithin r)
  prevPrevIs kind := (second.prevPrevIs kind).trans (first.prevPrevIs kind)
  prevPrevWithin r := (second.prevPrevWithin r).trans (first.prevPrevWithin r)
  eventType := second.eventType.trans first.eventType

variable (alike : Alike t c t' c')

include alike

theorem prevIs (kind : Kind) : c'.prevIs kind = c.prevIs kind := by
  rw [Context.prevIs, Context.prevIs, alike.kind]

/-- Alike contexts are between statements together. -/
theorem betweenStatements : c'.betweenStatements t' = c.betweenStatements t := by
  simp only [Context.betweenStatements, Context.afterStatement, alike.holders, alike.kind,
    alike.prevWithin]

theorem afterAnonymousStream : c'.afterAnonymousStream t' = c.afterAnonymousStream t := by
  simp only [Context.afterAnonymousStream, alike.prevWithin, alike.prevPrevWithin, alike.prevIs]

theorem afterEventRate : c'.afterEventRate t' = c.afterEventRate t := by
  simp only [Context.afterEventRate, alike.prevWithin, alike.prevIs, alike.prevPrevIs]

theorem afterInsert : c'.afterInsert t' = c.afterInsert t := by
  simp only [Context.afterInsert, alike.prevIs, alike.prevPrevWithin]

/-- Contexts that look alike have one region. -/
theorem region_eq : Region.of t' c' = Region.of t c := by
  have hquery := alike.within .query (by decide)
  have hinput := alike.within .queryInput (by decide)
  have hsection := alike.within .querySection (by decide)
  have hrate := alike.within .outputRate (by decide)
  simp only [Region.of, hquery, hinput, hsection, hrate, alike.betweenStatements,
    alike.afterAnonymousStream, alike.afterEventRate, alike.afterInsert, alike.eventType]

end Alike

/-- The standard engine learns the same of both contexts. -/
structure Exchangeable (t : Tree) (c : Context) (t' : Tree) (c' : Context) : Prop
    extends Alike t c t' c' where
  /-- The same names are defined. -/
  definitionNames : Clause.definitionNames t' = Clause.definitionNames t
  /-- The same tables are defined. -/
  tableNames : Clause.tableNames t' = Clause.tableNames t
  /-- The queries around the elements read the same attributes. -/
  inputAttributes :
    Clause.inputAttributes t' c'.element = Clause.inputAttributes t c.element
  /-- The outputs around the leaves before start alike. -/
  outputVerb? : Clause.outputVerb? t' c' = Clause.outputVerb? t c

namespace Exchangeable

theorem trans (first : Exchangeable t c t' c') (second : Exchangeable t' c' t'' c'') :
    Exchangeable t c t'' c'' where
  toAlike := first.toAlike.trans second.toAlike
  definitionNames := second.definitionNames.trans first.definitionNames
  tableNames := second.tableNames.trans first.tableNames
  inputAttributes := second.inputAttributes.trans first.inputAttributes
  outputVerb? := second.outputVerb?.trans first.outputVerb?

variable (same : Exchangeable t c t' c')

include same

theorem queryInput : Clause.queryInput t' c' = Clause.queryInput t c := by
  simp only [Clause.queryInput, same.kind, same.prevPrevIs, same.definitionNames]

theorem querySection : Clause.querySection t' c' = Clause.querySection t c := by
  simp only [Clause.querySection, same.kind, same.inputAttributes]

theorem outputRate : Clause.outputRate t' c' = Clause.outputRate t c := by
  simp only [Clause.outputRate, same.kind]

theorem queryOutput : Clause.queryOutput t' c' = Clause.queryOutput t c := by
  simp only [Clause.queryOutput, Clause.afterTarget, same.kind, same.prevPrevIs, same.prevWithin,
    same.definitionNames, same.tableNames, same.outputVerb?]

/-- No clause tells the two contexts apart. -/
theorem resolve (region : Region) :
    Engine.standard.resolve t' c' region = Engine.standard.resolve t c region := by
  cases region with
  | queryInput => exact same.queryInput
  | querySection => exact same.querySection
  | outputRate => exact same.outputRate
  | queryOutput => exact same.queryOutput
  | _ => rfl

/-- Exchangeable contexts have the same suggestions. -/
theorem suggestions :
    Engine.standard.suggestions t' (some c') = Engine.standard.suggestions t (some c) := by
  simp only [Engine.suggestions, Region.classify_eq, same.region_eq, same.resolve]

end Exchangeable

/-! ## Elements with the same surroundings -/

/-- An element is known by the nodes around it only, the application apart. -/
theorem exchangeable_of_ancestor? {x : Nat}
    (h : ∀ r, r ≠ .siddhiApp → t.ancestor? r x = t.ancestor? r c.element)
    (hholders : (t.ancestors x).all (fun y => mayHoldStatements (t.rule? y)) =
      (t.ancestors c.element).all fun y => mayHoldStatements (t.rule? y)) :
    Exchangeable t c t { c with element := x } where
  within r hr := by
    rw [Context.isWithin, Context.isWithin, Tree.isWithin, Tree.isWithin, h r hr]
  holders := hholders
  kind := rfl
  prevWithin _ := rfl
  prevPrevIs _ := rfl
  prevPrevWithin _ := rfl
  eventType := rfl
  definitionNames := rfl
  tableNames := rfl
  inputAttributes := by
    rw [Clause.inputAttributes_eq, Clause.inputAttributes_eq, Tree.readStreams, Tree.readStreams,
      h .query (by decide)]
  outputVerb? := rfl

/-- Two children of one node are exchangeable as elements. -/
theorem exchangeable_of_sibling (wf : t.WellFormed) {x p : Nat} (hx : t.parent? x = some p)
    (hc : t.parent? c.element = some p) : Exchangeable t c t { c with element := x } := by
  have hup : t.ancestors x = t.ancestors c.element := by
    rw [wf.ancestors_of_parent? hx, wf.ancestors_of_parent? hc]
  refine exchangeable_of_ancestor? (fun r _ => ?_) (by rw [hup])
  rw [Tree.ancestor?, Tree.ancestor?, hup]

/-- An element right under the application is exchangeable with the application. -/
theorem exchangeable_of_application (wf : t.WellFormed) {x : Nat}
    (hx : t.parent? x = some Tree.root) (hc : c.element = Tree.root)
    (happ : t.rule? Tree.root = some .siddhiApp) :
    Exchangeable t c t { c with element := x } := by
  have htop : t.ancestors Tree.root = [] :=
    Tree.WellFormed.ancestors_of_parent?_eq_none wf.parent?_root
  have hup : t.ancestors x = [Tree.root] := by rw [wf.ancestors_of_parent? hx, htop]
  refine exchangeable_of_ancestor? (fun r hr => ?_) ?_
  · have hnot : t.hasRule r Tree.root = false := by simp [Tree.hasRule, happ, hr.symm]
    rw [Tree.ancestor?, Tree.ancestor?, hc, hup, htop, List.find?_cons_of_neg (by simp [hnot])]
  · rw [hc, hup, htop, List.all_cons, happ]
    rfl

end Context

end SiddhiEditor
