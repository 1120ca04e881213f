import SiddhiEditor.Proofs.BackwardWalk
import SiddhiEditor.Proofs.DocumentEnd
import SiddhiEditor.Proofs.Resolution

/-!
# The nodes that punctuation closes

Behind a `)` or a `;` the cursor is outside of the nodes that the punctuation closes.
They are found by a climb.  It starts at the punctuation and goes on to the parent as
long as the parent has the punctuation as its last visible leaf and, behind a `)`, is
not a query.

A climb ends below the first node that does not pass, and what comes further up is not
looked at.  It still finds the outermost node.  A node that ends with a leaf contains
only nodes around the leaf that end with it, too (`lastVisible?_of_covers`), so the
nodes that pass are not interrupted by one that does not end with the leaf.  Queries
may interrupt them.  Behind a `)` the climb stays inside of the innermost query around
it, and the query is the same for the node found.

At the end of a document all nodes around the last leaf end with it.  So the node found
is the root behind a `;`, and behind a `)` it is the root or a child of the query.
-/

namespace SiddhiEditor

namespace Tree

variable {t : Tree} {x y n p leaf : Nat} {ok : Nat → Bool} {pass : Nat → Prop}

/-! ## Climbing -/

/-- The end of the climb from `x` that goes on as long as the parent passes. -/
def lift (t : Tree) (ok : NodeId → Bool) (x : NodeId) : NodeId :=
  ((t.ancestors x).takeWhile ok).getLast?.getD x

/-- `n` is reached from `x` by steps to the parent, all of them to nodes that pass. -/
inductive Reaches (t : Tree) (pass : NodeId → Prop) : NodeId → NodeId → Prop where
  | here {x : NodeId} : Reaches t pass x x
  | up {x p n : NodeId} : t.parent? x = some p → pass p → Reaches t pass p n → Reaches t pass x n

/-- `n` is a node of the set, and the others are below it. -/
def IsOutermost (t : Tree) (s : Set NodeId) (n : NodeId) : Prop :=
  n ∈ s ∧ ∀ m ∈ s, n = m ∨ t.Above n m

theorem Reaches.mono {pass' : Nat → Prop} (h : t.Reaches pass x n)
    (hpass : ∀ p, pass p → pass' p) : t.Reaches pass' x n := by
  induction h with
  | here => exact .here
  | up hp hok _ ih => exact .up hp (hpass _ hok) ih

/-- The last step goes to a node that passes. -/
theorem Reaches.eq_or_pass (h : t.Reaches pass x n) : n = x ∨ pass n := by
  induction h with
  | here => exact Or.inl rfl
  | up _ hok _ ih =>
    rcases ih with rfl | hn
    · exact Or.inr hok
    · exact Or.inr hn

theorem lift_of_parent?_eq_none (h : t.parent? x = none) : t.lift ok x = x := by
  rw [lift, WellFormed.ancestors_of_parent?_eq_none h]
  rfl

namespace WellFormed

variable (wf : t.WellFormed)

include wf

theorem eq_or_above_iff : x = y ∨ t.Above x y ↔ t.Covers x y := by
  rw [wf.above_iff_covers]
  constructor
  · rintro (rfl | h)
    · exact Covers.refl t x
    · exact h.2
  · intro h
    rcases Nat.eq_or_lt_of_le h.1 with heq | hlt
    · exact Or.inl heq
    · exact Or.inr ⟨hlt, h⟩

/-- A step of the climb. -/
theorem lift_of_parent? (h : t.parent? x = some p) :
    t.lift ok x = if ok p then t.lift ok p else x := by
  rw [lift, wf.ancestors_of_parent? h, List.takeWhile_cons]
  cases ok p with
  | true =>
    simp only [if_true, List.getLast?_cons, Option.getD_some]
    rfl
  | false => rfl

theorem covers_of_reaches (h : t.Reaches pass x n) : t.Covers n x := by
  induction h with
  | here => exact Covers.refl t _
  | up hp _ _ ih => exact ih.trans (wf.parent_spec hp).2.2

/-- The climb ends at the outermost of the nodes that it can reach. -/
theorem lift_isOutermost :
    t.IsOutermost {n | t.Reaches (fun p => ok p = true) x n} (t.lift ok x) := by
  induction x using wf.parent_induction with
  | top x hx =>
    rw [lift_of_parent?_eq_none hx]
    refine ⟨.here, fun m hm => ?_⟩
    cases hm with
    | here => exact Or.inl rfl
    | up hp _ _ => cases hx.symm.trans hp
  | below x p hp ih =>
    rw [wf.lift_of_parent? hp]
    cases hok : ok p with
    | true =>
      obtain ⟨hreaches, hbelow⟩ := ih
      refine ⟨.up hp hok hreaches, fun m hm => ?_⟩
      cases hm with
      | here =>
        rw [wf.eq_or_above_iff]
        exact (wf.covers_of_reaches hreaches).trans (wf.parent_spec hp).2.2
      | up hp' _ hm =>
        cases hp.symm.trans hp'
        exact hbelow m hm
    | false =>
      refine ⟨.here, fun m hm => ?_⟩
      cases hm with
      | here => exact Or.inl rfl
      | up hp' hok' _ =>
        cases hp.symm.trans hp'
        cases hok.symm.trans hok'

/-- The climb ends below a node that does not pass. -/
theorem not_pass_of_lift (h : t.parent? (t.lift ok x) = some p) : ok p = false := by
  induction x using wf.parent_induction with
  | top x hx =>
    rw [lift_of_parent?_eq_none hx, hx] at h
    cases h
  | below x q hq ih =>
    rw [wf.lift_of_parent? hq] at h
    cases hok : ok q with
    | true =>
      rw [hok] at h
      exact ih h
    | false =>
      rw [hok] at h
      cases hq.symm.trans h
      exact hok

end WellFormed

/-! ## Nodes that end with a leaf -/

/-- The last visible leaf of a node is the greatest visible row that it covers. -/
theorem lastVisible?_eq_some_iff :
    t.lastVisible? x = some leaf ↔
      IsGreatest {m | t.Covers x m ∧ t.isVisible m = true} leaf := by
  have hdecreasing : (t.subtree x).reverse.Pairwise (· > ·) :=
    List.pairwise_reverse.mpr subtree_increasing
  rw [lastVisible?, find?_isGreatest hdecreasing]
  simp only [List.mem_reverse, mem_subtree]

/-- A node that ends with a leaf contains only nodes around the leaf that end with it,
too. -/
theorem lastVisible?_of_covers (h : t.lastVisible? x = some leaf) (hxy : t.Covers x y)
    (hy : t.Covers y leaf) : t.lastVisible? y = some leaf := by
  rw [lastVisible?_eq_some_iff] at h ⊢
  refine ⟨⟨hy, h.1.2⟩, fun m hm => ?_⟩
  exact h.2 ⟨hxy.trans hm.1, hm.2⟩

/-- The nodes at or above a leaf that end with it. -/
def endingWith (t : Tree) (leaf : NodeId) : Set NodeId :=
  {n | (n = leaf ∨ t.Above n leaf) ∧ t.lastVisible? n = some leaf}

namespace WellFormed

variable (wf : t.WellFormed)

include wf

/-- On the way to a node that ends with the leaf all nodes end with it. -/
theorem reaches_of_lastVisible? (h : t.Reaches pass x n) (hx : t.Covers x leaf)
    (hn : t.lastVisible? n = some leaf) :
    t.Reaches (fun p => t.lastVisible? p = some leaf ∧ pass p) x n := by
  induction h with
  | here => exact .here
  | up hp hpass hreaches ih =>
    have hcov := (wf.parent_spec hp).2.2.trans hx
    exact .up hp ⟨lastVisible?_of_covers hn (wf.covers_of_reaches hreaches) hcov, hpass⟩
      (ih hcov hn)

/-- The climb over nodes that end with the leaf finds the outermost of them. -/
theorem lift_isOutermost_endingWith (hvis : t.isVisible leaf = true)
    (hok : ∀ p, ok p = true ↔ t.lastVisible? p = some leaf ∧ pass p) :
    t.IsOutermost {n ∈ t.endingWith leaf | t.Reaches pass leaf n} (t.lift ok leaf) := by
  have hsame : {n ∈ t.endingWith leaf | t.Reaches pass leaf n} =
      {n | t.Reaches (fun p => ok p = true) leaf n} := by
    simp only [hok]
    ext n
    constructor
    · rintro ⟨⟨-, hlast⟩, hreaches⟩
      exact wf.reaches_of_lastVisible? hreaches (Covers.refl t leaf) hlast
    · intro h
      refine ⟨⟨wf.eq_or_above_iff.mpr (wf.covers_of_reaches h), ?_⟩, h.mono fun p hp => hp.2⟩
      rcases h.eq_or_pass with rfl | hn
      · exact wf.lastVisible?_of_visible hvis
      · exact hn.1
  rw [hsame]
  exact wf.lift_isOutermost

/-- Nothing is in the way of a climb that all nodes pass. -/
theorem reaches_of_covers (h : t.Covers n x) : t.Reaches (fun _ => True) x n := by
  induction x using wf.parent_induction with
  | top x hx =>
    rcases wf.eq_or_above_iff.mpr h with rfl | habove
    · exact .here
    · rw [wf.above_iff, ancestors_of_parent?_eq_none hx] at habove
      cases habove
  | below x p hp ih =>
    rcases (wf.covers_iff hp).mp h with rfl | hnp
    · exact .here
    · exact .up hp trivial (ih hnp)

/-- Below the innermost node of a rule the way up does not change which node this is. -/
theorem ancestor?_of_reaches {r : Rule} (h : t.Reaches (fun p => t.rule? p ≠ some r) x n) :
    t.ancestor? r n = t.ancestor? r x := by
  induction h with
  | here => rfl
  | up hp hrule _ ih =>
    rw [ih, ancestor?, ancestor?, wf.ancestors_of_parent? hp,
      List.find?_cons_of_neg (by simpa [hasRule] using hrule)]

theorem under_of_ancestor?_eq {r : Rule} (h : t.ancestor? r x = t.ancestor? r y) :
    t.Under r x ↔ t.Under r y := by
  rw [← wf.isWithin_iff, ← wf.isWithin_iff, isWithin, isWithin, h]

end WellFormed

/-! ## The element behind closing punctuation -/

/-- The node may be left behind with the leaf, which is of the given kind. -/
def closes (t : Tree) (leaf : NodeId) (kind : Kind) (x : NodeId) : Bool :=
  t.lastVisible? x == some leaf && !(t.hasRule .query x && kind != .semicolon)

/-- The node that a leaf closes is reached by going up while the leaf closes the
parent. -/
theorem closedBy_eq_lift {kind : Kind} (h : kind = .semicolon ∨ kind = .closePar) :
    t.closedBy leaf kind = t.lift (t.closes leaf kind) leaf := by
  rcases h with rfl | rfl <;> rfl

/-- A semicolon closes every node that it ends. -/
theorem closes_semicolon_iff :
    t.closes leaf .semicolon p = true ↔ t.lastVisible? p = some leaf ∧ True := by
  simp [closes]

/-- A parenthesis closes every node that it ends, except a query. -/
theorem closes_closePar_iff :
    t.closes leaf .closePar p = true ↔
      t.lastVisible? p = some leaf ∧ t.rule? p ≠ some .query := by
  simp [closes, hasRule]

/-- All nodes around the last leaf end with it. -/
theorem IsLastLeaf.lastVisible?_eq (h : t.IsLastLeaf leaf) (hvis : t.isVisible leaf = true)
    (hx : t.Covers x leaf) : t.lastVisible? x = some leaf := by
  rw [lastVisible?_eq_some_iff]
  refine ⟨⟨hx, hvis⟩, fun m hm => ?_⟩
  by_contra hlt
  have hm' := isVisible_eq_false_of_isLeaf (h.2 m (Nat.not_le.mp hlt))
  rw [hm.2] at hm'
  cases hm'

namespace WellFormed

variable (wf : t.WellFormed)

include wf

/-- A semicolon closes the outermost node that it ends. -/
theorem closedBy_semicolon_isOutermost (hvis : t.isVisible leaf = true) :
    t.IsOutermost (t.endingWith leaf) (t.closedBy leaf .semicolon) := by
  have hall : {n ∈ t.endingWith leaf | t.Reaches (fun _ => True) leaf n} = t.endingWith leaf := by
    ext n
    refine and_iff_left_of_imp fun hn => ?_
    exact wf.reaches_of_covers (wf.eq_or_above_iff.mp hn.1)
  rw [closedBy_eq_lift (Or.inl rfl), ← hall]
  exact wf.lift_isOutermost_endingWith hvis fun p => closes_semicolon_iff

/-- A parenthesis closes the outermost node that it ends inside of its query. -/
theorem closedBy_closePar_isOutermost (hvis : t.isVisible leaf = true) :
    t.IsOutermost {n ∈ t.endingWith leaf | t.Reaches (fun p => t.rule? p ≠ some .query) leaf n}
      (t.closedBy leaf .closePar) := by
  rw [closedBy_eq_lift (Or.inr rfl)]
  exact wf.lift_isOutermost_endingWith hvis fun p => closes_closePar_iff

/-- The parent of the node that the last leaf closes does not pass for another reason
than its last leaf. -/
theorem closes_of_parent?_closedBy {kind : Kind} (hlast : t.IsLastLeaf leaf)
    (hvis : t.isVisible leaf = true) (hkind : kind = .semicolon ∨ kind = .closePar)
    (h : t.parent? (t.closedBy leaf kind) = some p) :
    t.lastVisible? p = some leaf ∧ t.closes leaf kind p = false := by
  have hcov := (wf.parent_spec h).2.2.trans (wf.closedBy_covers leaf kind)
  rw [closedBy_eq_lift hkind] at h
  exact ⟨hlast.lastVisible?_eq hvis hcov, wf.not_pass_of_lift h⟩

/-- A semicolon that is the last leaf closes the document. -/
theorem closedBy_semicolon_eq_root (hlast : t.IsLastLeaf leaf) (hvis : t.isVisible leaf = true) :
    t.closedBy leaf .semicolon = root := by
  have hlt : t.closedBy leaf .semicolon < t.size := by
    obtain ⟨tok, htok⟩ := isLeaf_iff.mp hlast.1
    exact Nat.lt_of_le_of_lt (wf.closedBy_covers leaf .semicolon).1 (lt_size_of_token? htok)
  rcases Nat.eq_zero_or_pos (t.closedBy leaf .semicolon) with hzero | hpos
  · exact hzero
  · obtain ⟨p, hp⟩ := wf.exists_parent hpos hlt
    obtain ⟨hends, hstops⟩ := wf.closes_of_parent?_closedBy hlast hvis (Or.inl rfl) hp
    rw [closes_semicolon_iff.mpr ⟨hends, trivial⟩] at hstops
    cases hstops

theorem parent?_closedBy_closePar (hlast : t.IsLastLeaf leaf) (hvis : t.isVisible leaf = true) :
    t.parent? (t.closedBy leaf .closePar) = t.ancestor? .query leaf := by
  have hreaches := (wf.closedBy_closePar_isOutermost hvis).1.2
  rw [← wf.ancestor?_of_reaches hreaches, ancestor?]
  cases hp : t.parent? (t.closedBy leaf .closePar) with
  | none =>
    rw [ancestors_of_parent?_eq_none hp]
    rfl
  | some p =>
    obtain ⟨hends, hstops⟩ := wf.closes_of_parent?_closedBy hlast hvis (Or.inr rfl) hp
    have hquery : t.hasRule .query p = true := by
      simpa [closes, hends] using hstops
    rw [wf.ancestors_of_parent? hp, List.find?_cons_of_pos hquery]

end WellFormed

end Tree

namespace Context

open SiddhiEditor.Tree

/-- The cursor stands at the end of a document that ends with a `;` or a `)`.  Behind a
`;` the element is the outermost node around the `;` that ends with it, which is the
root.  Behind a `)` it is the outermost of those that are reached without going on to a
query.  So it is in a query when the `)` is, and in the same one.  It is then a child of
the query, and the root otherwise. -/
theorem ofOffset_outermost {steps : List Step} {t : Tree} {leaf : NodeId} {tok : Token}
    (h : ofSteps steps = .ok t) (hback : t.leaves.back? = some leaf)
    (htok : t.token? leaf = some tok) (hne : tok.text ≠ "")
    (hkind : tok.kind = .semicolon ∨ tok.kind = .closePar) :
    ∃ c, ofOffset t t.source.utf8ByteSize = .ok (some c) ∧
      (tok.kind = .semicolon → t.IsOutermost (t.endingWith leaf) c.element ∧ c.element = root) ∧
      (tok.kind = .closePar →
        t.IsOutermost
          {n ∈ t.endingWith leaf | t.Reaches (fun p => t.rule? p ≠ some .query) leaf n} c.element ∧
        (t.Under .query c.element ↔ t.Under .query leaf) ∧
        (∀ q, t.IsQueryAround q c.element ↔ t.IsQueryAround q leaf) ∧
        t.parent? c.element = t.ancestor? .query leaf) := by
  have doc := document_of_ofSteps h
  have hlast := doc.isLastLeaf_of_back? hback
  have hpunctuation : tok.isVisible = true ∧ tok.kind.isWord = false := by
    rw [Token.isVisible]
    rcases hkind with hkind | hkind <;> simp [hkind, Kind.isTrivia, Kind.isWord]
  obtain ⟨hvisible, hword⟩ := hpunctuation
  have hvis : t.isVisible leaf = true := isVisible_iff.mpr ⟨tok, htok, hvisible⟩
  refine ⟨⟨t.closedBy leaf tok.kind, ⟨leaf, tok.kind⟩, (t.prevVisible? leaf).map t.seenAt⟩,
    ?_, ?_, ?_⟩
  · rw [doc.ofOffset_end_punctuation hlast htok hne hvisible hword, behind_eq]
  · intro hkind
    rw [hkind]
    exact ⟨doc.closedBy_semicolon_isOutermost hvis, doc.closedBy_semicolon_eq_root hlast hvis⟩
  · intro hkind
    have houtermost := doc.closedBy_closePar_isOutermost hvis
    have hquery := doc.ancestor?_of_reaches houtermost.1.2
    rw [hkind]
    refine ⟨houtermost, doc.under_of_ancestor?_eq hquery, fun q => ?_,
      doc.parent?_closedBy_closePar hlast hvis⟩
    rw [← doc.ancestor?_query_iff, ← doc.ancestor?_query_iff, hquery]

/-- A query in a partition, whose input ends with a `)`.  A node without leaves and then
`behind` follow the input in the query. -/
def windowInput (behind : String) : List Step :=
  [.openNode .siddhiApp, .openNode .partition, .text "begin ", .openNode .query,
    .openNode .queryInput, .text "from S#window.length(5)", .closeNode, .openNode .querySection,
    .closeNode, .text behind, .closeNode, .closeNode, .closeNode]

theorem ofOffset_outermost_windowInput :
    (∃ t c, ofSteps (windowInput "") = .ok t ∧ t.leaves.back? = some 15 ∧
      t.token? 15 = some ⟨.closePar, ")", 28⟩ ∧
      ofOffset t t.source.utf8ByteSize = .ok (some c) ∧
      t.IsOutermost
        {n ∈ t.endingWith 15 | t.Reaches (fun p => t.rule? p ≠ some .query) 15 n} c.element ∧
      t.Under .query c.element ∧ t.parent? c.element = some 4) ∧
    ∃ t c, ofSteps (windowInput ";") = .ok t ∧ t.leaves.back? = some 17 ∧
      t.token? 17 = some ⟨.semicolon, ";", 29⟩ ∧
      ofOffset t t.source.utf8ByteSize = .ok (some c) ∧
      t.IsOutermost (t.endingWith 17) c.element ∧ c.element = root := by
  constructor
  · have h : ofSteps (windowInput "") = .ok (Draft.empty.run (windowInput "")).tree := rfl
    have wf := (document_of_ofSteps h).toWellFormed
    have hback : (Draft.empty.run (windowInput "")).tree.leaves.back? = some 15 := by decide
    have htok : (Draft.empty.run (windowInput "")).tree.token? 15 =
        some ⟨.closePar, ")", 28⟩ := by decide
    obtain ⟨c, hc, -, hpar⟩ := ofOffset_outermost h hback htok (by decide) (Or.inr rfl)
    obtain ⟨houtermost, hunder, -, hparent⟩ := hpar rfl
    exact ⟨_, c, h, hback, htok, hc, houtermost, hunder.mpr (wf.isWithin_iff.mp (by decide)),
      hparent.trans (by decide)⟩
  · have h : ofSteps (windowInput ";") = .ok (Draft.empty.run (windowInput ";")).tree := rfl
    have hback : (Draft.empty.run (windowInput ";")).tree.leaves.back? = some 17 := by decide
    have htok : (Draft.empty.run (windowInput ";")).tree.token? 17 =
        some ⟨.semicolon, ";", 29⟩ := by decide
    obtain ⟨c, hc, hsemicolon, -⟩ := ofOffset_outermost h hback htok (by decide) (Or.inl rfl)
    exact ⟨_, c, h, hback, htok, hc, hsemicolon rfl⟩

end Context

end SiddhiEditor
