import SiddhiEditor.Proofs.Cursor
import SiddhiEditor.Proofs.DocumentEnd

/-!
# Look-up by offset and scans of the leaves

A leaf is looked up by halving the list of leaves.  The same answers come from going
through all leaves and asking each for its span, and from saying which leaf is meant
(`LookedUp`).

*The leaf at a byte.*  The spans of the leaves tile the document, so every byte is in
exactly one of them, and no span goes beyond the end.

*The element of a request.*  Two leaves cannot both end at the cursor or behind it
and start before it, so there is at most one word that the cursor is inside of or
right behind.  Without such a word it is the leaf at the byte, and at the end of the
document the last leaf, which ends there (`stop_of_isLastLeaf`).

An empty leaf covers no byte, and no cursor is inside of it or right behind it, so it
is found only as the last leaf.
-/

namespace SiddhiEditor

namespace Tree

variable {t : Tree} {x y offset : Nat}

/-- The leaf `x` covers the byte at `offset`. -/
def IsLeafAt (t : Tree) (offset : Nat) (x : NodeId) : Prop :=
  ∃ tok, t.token? x = some tok ∧ tok.start ≤ offset ∧ offset < tok.stop

/-- The leaf `x` is a word, and the cursor at `offset` is inside of it or right
behind it. -/
def IsWordAt (t : Tree) (offset : Nat) (x : NodeId) : Prop :=
  ∃ tok, t.token? x = some tok ∧ tok.kind.isWord = true ∧ tok.start < offset ∧ offset ≤ tok.stop

/-- The first leaf that covers the byte at `offset`. -/
def leafScan? (t : Tree) (offset : Nat) : Option NodeId :=
  t.leaves.toList.find? fun x => (t.token? x).any (·.contains offset)

/-- What the searches by halving find at an offset. -/
structure LookedUp (t : Tree) (offset : Nat) : Prop where
  /-- The leaf is the one that a scan of the leaves finds. -/
  leaf_scan : t.leafAt? offset = t.leafScan? offset
  /-- There is a leaf at the bytes of the document and nowhere else. -/
  leaf_isSome : (t.leafAt? offset).isSome = true ↔ offset < t.source.utf8ByteSize
  /-- The leaf is the one leaf that covers the byte. -/
  leaf_unique : ∀ x, t.leafAt? offset = some x →
    t.IsLeafAt offset x ∧ ∀ y, t.IsLeafAt offset y → y = x
  /-- The element is the one that scans of the leaves find. -/
  element_scan : t.elementAt? offset = (t.wordScan? offset).or ((t.leafScan? offset).or
    (if offset = t.source.utf8ByteSize then t.leaves.back? else none))
  /-- There is at most one word at the cursor, and it is the element. -/
  element_word : ∀ x, t.IsWordAt offset x →
    t.elementAt? offset = some x ∧ ∀ y, t.IsWordAt offset y → y = x
  /-- Without a word, the element is the leaf. -/
  element_leaf : (∀ y, ¬t.IsWordAt offset y) → ∀ x, t.leafAt? offset = some x →
    t.elementAt? offset = some x
  /-- Without a word and a leaf, it is the last leaf, at the end of the document. -/
  element_last : (∀ y, ¬t.IsWordAt offset y) → t.leafAt? offset = none →
    t.elementAt? offset = if offset = t.source.utf8ByteSize then t.leaves.back? else none

namespace Document

variable (doc : t.Document)

include doc

/-- The leaf that is found at an offset is the one that covers it. -/
theorem leafAt?_iff_isLeafAt : t.leafAt? offset = some x ↔ t.IsLeafAt offset x := by
  rw [doc.leafAt?_eq_some_iff]
  simp only [Token.contains_iff, IsLeafAt]

theorem wordAt?_iff_isWordAt : t.wordAt? offset = some x ↔ t.IsWordAt offset x := by
  rw [doc.wordAt?_eq_some_iff]
  simp only [Token.touches_iff, IsWordAt]

/-- The halving search finds the same leaf as a scan of all leaves. -/
theorem leafScan?_eq : t.leafScan? offset = t.leafAt? offset := by
  apply doc.find?_leaves_eq
  · intro x hx
    obtain ⟨tok, htok, -⟩ := (Option.any_eq_true _ _).mp hx
    exact isLeaf_iff.mpr ⟨tok, htok⟩
  · intro x
    rw [doc.leafAt?_eq_some_iff, Option.any_eq_true]

/-- There is a leaf at every offset before the end. -/
theorem leafAt?_isSome_iff :
    (t.leafAt? offset).isSome = true ↔ offset < t.source.utf8ByteSize := by
  constructor
  · intro h
    obtain ⟨x, hx⟩ := Option.isSome_iff_exists.mp h
    obtain ⟨tok, htok, -, hlt⟩ := doc.leafAt?_iff_isLeafAt.mp hx
    exact Nat.lt_of_lt_of_le hlt (doc.stop_le_length htok)
  · intro h
    obtain ⟨x, tok, htok, hcontains⟩ := doc.exists_leaf_contains h
    rw [doc.leafAt?_eq_some_iff.mpr ⟨tok, htok, hcontains⟩]
    rfl

/-- The last leaf always ends with the document. -/
theorem lastLeafAt?_eq :
    t.lastLeafAt? offset =
      if offset = t.source.utf8ByteSize then t.leaves.back? else none := by
  rw [lastLeafAt?]
  cases hlast : t.leaves.back? with
  | none => simp
  | some x =>
    have hstop := doc.stop_of_isLastLeaf (doc.isLastLeaf_of_back? hlast)
    rw [Option.filter_some, hstop]
    simp only [beq_iff_eq, @eq_comm Nat offset]

/-- The element at an offset is a word, or else a leaf, or at the end the last leaf.
-/
theorem elementAt?_eq_scan :
    t.elementAt? offset = (t.wordScan? offset).or ((t.leafScan? offset).or
      (if offset = t.source.utf8ByteSize then t.leaves.back? else none)) := by
  rw [elementAt?, doc.wordScan?_eq, doc.leafScan?_eq, ← doc.lastLeafAt?_eq]

/-- Without a word at the cursor, the other two ways to find an element count. -/
theorem elementAt?_of_no_word (h : ∀ y, ¬t.IsWordAt offset y) :
    t.elementAt? offset = (t.leafAt? offset).or
      (if offset = t.source.utf8ByteSize then t.leaves.back? else none) := by
  have hnone : t.wordAt? offset = none := by
    rw [Option.eq_none_iff_forall_ne_some]
    intro y hy
    exact h y (doc.wordAt?_iff_isWordAt.mp hy)
  rw [elementAt?, hnone, Option.none_or, doc.lastLeafAt?_eq]

end Document

/-- In a finished tree the searches by halving agree with scans of the leaves.  They
find the one leaf at a byte, and the one word at the cursor before any other leaf. -/
theorem ofSteps_lookedUp {steps : List Step} (h : ofSteps steps = .ok t) (offset : Nat) :
    t.LookedUp offset := by
  have doc := document_of_ofSteps h
  constructor
  case leaf_scan => exact doc.leafScan?_eq.symm
  case leaf_isSome => exact doc.leafAt?_isSome_iff
  case leaf_unique =>
    intro x hx
    refine ⟨doc.leafAt?_iff_isLeafAt.mp hx, ?_⟩
    intro y hy
    rw [doc.leafAt?_iff_isLeafAt.mpr hy] at hx
    exact Option.some.inj hx
  case element_scan => exact doc.elementAt?_eq_scan
  case element_word =>
    intro x hx
    have hword := doc.wordAt?_iff_isWordAt.mpr hx
    constructor
    · rw [elementAt?, hword, Option.some_or]
    · intro y hy
      rw [doc.wordAt?_iff_isWordAt.mpr hy] at hword
      exact Option.some.inj hword
  case element_leaf =>
    intro hnone x hx
    rw [doc.elementAt?_of_no_word hnone, hx, Option.some_or]
  case element_last =>
    intro hnone hleaf
    rw [doc.elementAt?_of_no_word hnone, hleaf, Option.none_or]

/-- Two words, the first of them empty, a comma, a parenthesis, and an empty leaf at
the end. -/
def emptyLeaves : List Step :=
  [.openNode .siddhiApp, .token .identifier "", .token .identifier "ab", .text ",)",
    .token .whitespace "", .closeNode]

theorem ofSteps_lookedUp_emptyLeaves :
    ∃ t, ofSteps emptyLeaves = .ok t ∧ t.source.utf8ByteSize = 4 ∧
      (∀ y, t.IsLeafAt 0 y → y = 2) ∧ t.leafAt? 2 = some 3 ∧ t.elementAt? 2 = some 2 ∧
      t.leafAt? 4 = none ∧ t.elementAt? 4 = some 5 := by
  have h : ofSteps emptyLeaves = .ok (Draft.empty.run emptyLeaves).tree := rfl
  have hword : (Draft.empty.run emptyLeaves).tree.IsWordAt 2 2 :=
    ⟨⟨.identifier, "ab", 0⟩, rfl, by decide⟩
  obtain ⟨-, hfirst⟩ := (ofSteps_lookedUp h 0).leaf_unique 2 (by decide)
  have hlast := (ofSteps_lookedUp h 4).element_scan
  exact ⟨_, h, by decide, hfirst, by decide, ((ofSteps_lookedUp h 2).element_word 2 hword).1,
    by decide, hlast.trans (by decide)⟩

end Tree

end SiddhiEditor
