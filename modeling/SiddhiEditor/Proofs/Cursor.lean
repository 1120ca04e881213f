import SiddhiEditor.Proofs.Answers
import SiddhiEditor.Proofs.Construction

/-!
# The leaves before the cursor

A request at an offset finds its element by searches by halving, and the two
leaves before it by walks through the tree.  What comes out can be said without
any of this.  Leave out the word that is being typed, and take the last visible
leaf that ends at or before the cursor, and the visible leaf before that one.

The scan and the walk agree when two things hold of the element
(`lastBehind?_eq_prevVisible?`).  All leaves before it end at or before the
cursor, and every visible leaf from it on is the word being typed or ends behind
the cursor.  Each way to find an element provides both.  Punctuation that ends
the document right at the cursor is the one element that is itself the answer.

Leaves without text are excluded.  An empty leaf at the cursor ends at the
cursor, also when it stands behind the element.
-/

namespace SiddhiEditor

namespace Tree

/-! ## Scans of the list of leaves -/

/-- The word that the cursor is inside of or right behind. -/
def wordScan? (t : Tree) (offset : Nat) : Option NodeId :=
  t.leaves.toList.find? fun x =>
    (t.token? x).any fun tok => tok.kind.isWord && tok.touches offset

/-- The last visible leaf, other than that word, that ends at or before the
cursor. -/
def lastBehind? (t : Tree) (offset : Nat) : Option NodeId :=
  (t.leaves.toList.filter fun x =>
    t.isVisible x && t.wordScan? offset != some x && t.stop x ≤ offset).getLast?

/-- The last visible leaf before the leaf `x`. -/
def lastBefore? (t : Tree) (x : NodeId) : Option NodeId :=
  (t.leaves.toList.filter fun y => t.isVisible y && y < x).getLast?

variable {t : Tree} {x y offset : Nat} {tok : Token}

/-- The last leaf that meets a condition, said by the rows. -/
theorem WellFormed.getLast?_leaves_filter (wf : t.WellFormed) {q : Nat → Bool} :
    (t.leaves.toList.filter q).getLast? = some x ↔
      t.isLeaf x = true ∧ q x = true ∧ ∀ y : Nat, x < y → t.isLeaf y = true → q y = false := by
  rw [wf.leaves_eq, List.filter_filter, List.getLast?_filter, find?_reverse_range_eq_some_iff]
  simp only [Bool.and_eq_true]
  refine ⟨fun h => ?_, fun h => ?_⟩
  · obtain ⟨-, ⟨hq, hleaf⟩, hlast⟩ := h
    refine ⟨hleaf, hq, fun y hxy hy => ?_⟩
    obtain ⟨tok, htok⟩ := isLeaf_iff.mp hy
    have hnot := hlast y hxy (lt_size_of_token? htok)
    rwa [hy, Bool.and_true] at hnot
  · obtain ⟨hleaf, hq, hlast⟩ := h
    obtain ⟨tok, htok⟩ := isLeaf_iff.mp hleaf
    refine ⟨lt_size_of_token? htok, ⟨hq, hleaf⟩, fun y hxy _ => ?_⟩
    cases hy : t.isLeaf y with
    | false => exact Bool.and_false _
    | true => rw [hlast y hxy hy, Bool.false_and]

/-- The scan before a node finds what the walk from the node finds. -/
theorem WellFormed.lastBefore?_eq (wf : t.WellFormed) (hx : x < t.size) :
    t.lastBefore? x = t.prevVisible? x := by
  refine Option.ext fun y => ?_
  rw [lastBefore?, wf.getLast?_leaves_filter, wf.prevVisible?_eq_some_iff hx]
  simp only [Bool.and_eq_true, decide_eq_true_eq, Bool.and_eq_false_iff, decide_eq_false_iff_not]
  refine ⟨fun h => ?_, fun h => ?_⟩
  · obtain ⟨-, ⟨hvis, hlt⟩, hlast⟩ := h
    refine ⟨hlt, hvis, fun z hyz hzx => ?_⟩
    rw [Bool.eq_false_iff]
    intro hz
    cases hlast z hyz (isLeaf_of_isVisible hz) with
    | inl hfalse => simp [hz] at hfalse
    | inr hge => exact hge hzx
  · obtain ⟨hlt, hvis, hbetween⟩ := h
    refine ⟨isLeaf_of_isVisible hvis, ⟨hvis, hlt⟩, fun z hyz _ => ?_⟩
    rcases Nat.lt_or_ge z x with hzx | hzx
    · exact Or.inl (hbetween z hyz hzx)
    · exact Or.inr (Nat.not_lt.mpr hzx)

namespace Document

variable (doc : t.Document)

include doc

theorem wordScan?_eq : t.wordScan? offset = t.wordAt? offset := by
  apply doc.find?_leaves_eq
  · intro x hx
    obtain ⟨tok, htok, -⟩ := (Option.any_eq_true _ _).mp hx
    exact isLeaf_iff.mpr ⟨tok, htok⟩
  · intro x
    rw [doc.wordAt?_eq_some_iff, Option.any_eq_true]
    simp only [Bool.and_eq_true]

theorem lastBehind?_eq_some_iff :
    t.lastBehind? offset = some x ↔
      (t.isVisible x = true ∧ t.wordAt? offset ≠ some x ∧ t.stop x ≤ offset) ∧
        ∀ y : Nat, x < y → t.isVisible y = true →
          t.wordAt? offset = some y ∨ offset < t.stop y := by
  rw [lastBehind?, doc.getLast?_leaves_filter, doc.wordScan?_eq]
  simp only [Bool.and_eq_true, bne_iff_ne, decide_eq_true_eq, Bool.and_eq_false_iff,
    bne_eq_false_iff_eq, decide_eq_false_iff_not, Nat.not_le, and_assoc]
  refine ⟨fun h => ?_, fun h => ?_⟩
  · obtain ⟨-, hvis, hword, hstop, hlast⟩ := h
    refine ⟨hvis, hword, hstop, fun y hxy hy => ?_⟩
    rcases hlast y hxy (isLeaf_of_isVisible hy) with (hfalse | hy') | hy'
    · simp [hy] at hfalse
    · exact Or.inl hy'
    · exact Or.inr hy'
  · obtain ⟨hvis, hword, hstop, hlast⟩ := h
    refine ⟨isLeaf_of_isVisible hvis, hvis, hword, hstop, fun y hxy _ => ?_⟩
    cases hy : t.isVisible y with
    | false => exact Or.inl (Or.inl rfl)
    | true =>
      cases hlast y hxy hy with
      | inl hword' => exact Or.inl (Or.inr hword')
      | inr hstop' => exact Or.inr hstop'

/-- The scan agrees with the walk from an element that divides the leaves at the
cursor. -/
theorem lastBehind?_eq_prevVisible? (hx : x < t.size)
    (hbefore : ∀ y : Nat, y < x → t.isVisible y = true →
      t.wordAt? offset ≠ some y ∧ t.stop y ≤ offset)
    (hafter : ∀ y : Nat, x ≤ y → t.isVisible y = true →
      t.wordAt? offset = some y ∨ offset < t.stop y) :
    t.lastBehind? offset = t.prevVisible? x := by
  refine Option.ext fun y => ?_
  rw [doc.lastBehind?_eq_some_iff, doc.prevVisible?_eq_some_iff hx]
  refine ⟨fun h => ?_, fun h => ?_⟩
  · obtain ⟨⟨hvis, hword, hstop⟩, hlast⟩ := h
    refine ⟨?_, hvis, fun z hyz hzx => ?_⟩
    · rcases Nat.lt_or_ge y x with hlt | hge
      · exact hlt
      · cases hafter y hge hvis with
        | inl hword' => exact absurd hword' hword
        | inr hstop' => omega
    · rw [Bool.eq_false_iff]
      intro hz
      obtain ⟨hword', hstop'⟩ := hbefore z hzx hz
      cases hlast z hyz hz with
      | inl h => exact hword' h
      | inr h => omega
  · obtain ⟨hlt, hvis, hbetween⟩ := h
    refine ⟨⟨hvis, hbefore y hlt hvis⟩, fun z hyz hz => ?_⟩
    rcases Nat.lt_or_ge z x with hzx | hzx
    · rw [hbetween z hyz hzx] at hz
      cases hz
    · exact hafter z hzx hz

/-! ## The ways to find an element -/

theorem elementAt?_eq_none_of_lt (h : t.source.utf8ByteSize < offset) :
    t.elementAt? offset = none := by
  have hword : t.wordAt? offset = none := by
    rw [Option.eq_none_iff_forall_ne_some]
    intro x hx
    obtain ⟨tok, htok, -, htouches⟩ := doc.wordAt?_eq_some_iff.mp hx
    have hle := doc.stop_le_length htok
    rw [Token.touches_iff] at htouches
    omega
  have hleaf : t.leafAt? offset = none := by
    rw [Option.eq_none_iff_forall_ne_some]
    intro x hx
    obtain ⟨tok, htok, hcontains⟩ := doc.leafAt?_eq_some_iff.mp hx
    have hle := doc.stop_le_length htok
    rw [Token.contains_iff] at hcontains
    omega
  have hlast : t.lastLeafAt? offset = none := by
    rw [Option.eq_none_iff_forall_ne_some]
    intro x hx
    obtain ⟨hx, -, hstop⟩ := doc.lastLeafAt?_eq_some_iff.mp hx
    obtain ⟨tok, htok⟩ := isLeaf_iff.mp hx
    have hle := doc.stop_le_length htok
    rw [stop_of_token? htok] at hstop
    omega
  rw [elementAt?, hword, hleaf, hlast]
  rfl

/-- Leaves before an element end where it starts. -/
theorem stop_le_of_lt (htok : t.token? x = some tok) (hyx : y < x) (hy : t.isVisible y = true) :
    t.stop y ≤ tok.start := by
  obtain ⟨other, hother, -⟩ := isVisible_iff.mp hy
  rw [stop_of_token? hother]
  exact doc.stop_le_start hother htok hyx

/-- At a word, the last visible leaf that has ended is the one before the word.  A
later leaf starts behind the word and has a byte of its own. -/
theorem lastBehind?_of_wordAt? (hne : ∀ x tok, t.token? x = some tok → tok.text ≠ "")
    (h : t.wordAt? offset = some x) : t.lastBehind? offset = t.prevVisible? x := by
  obtain ⟨tok, htok, hword, htouches⟩ := doc.wordAt?_eq_some_iff.mp h
  rw [Token.touches_iff] at htouches
  refine doc.lastBehind?_eq_prevVisible? (lt_size_of_token? htok) (fun y hyx hy => ?_)
    fun y hxy hy => ?_
  · have hle := doc.stop_le_of_lt htok hyx hy
    refine ⟨fun heq => ?_, by omega⟩
    rw [h] at heq
    cases heq
    omega
  · rcases Nat.eq_or_lt_of_le hxy with rfl | hlt
    · exact Or.inl h
    · obtain ⟨other, hother, -⟩ := isVisible_iff.mp hy
      have hle := doc.stop_le_start htok hother hlt
      have hpos := Text.utf8ByteSize_pos (hne y other hother)
      rw [stop_of_token? hother]
      simp only [Token.stop, Token.length] at htouches hle ⊢
      exact Or.inr (by omega)

/-- Where there is no word, the last visible leaf that has ended is the one before the
leaf at the cursor. -/
theorem lastBehind?_of_leafAt? (hword : t.wordAt? offset = none)
    (h : t.leafAt? offset = some x) : t.lastBehind? offset = t.prevVisible? x := by
  obtain ⟨tok, htok, hcontains⟩ := doc.leafAt?_eq_some_iff.mp h
  rw [Token.contains_iff] at hcontains
  refine doc.lastBehind?_eq_prevVisible? (lt_size_of_token? htok) (fun y hyx hy => ?_)
    fun y hxy hy => ?_
  · have hle := doc.stop_le_of_lt htok hyx hy
    exact ⟨by simp [hword], by omega⟩
  · have hle := doc.stop_le_stop (isLeaf_iff.mpr ⟨tok, htok⟩) (isLeaf_of_isVisible hy) hxy
    rw [stop_of_token? htok] at hle
    exact Or.inr (by omega)

/-- At the end of the document the last leaf is the element.  Trivia there is not
the answer, and any other leaf that is not a word is. -/
theorem lastBehind?_of_lastLeafAt? (hword : t.wordAt? offset = none)
    (h : t.lastLeafAt? offset = some x) :
    t.lastBehind? offset = if t.isVisible x then some x else t.prevVisible? x := by
  obtain ⟨hleaf, hlast, hstop⟩ := doc.lastLeafAt?_eq_some_iff.mp h
  obtain ⟨tok, htok⟩ := isLeaf_iff.mp hleaf
  have hnone : ∀ y : Nat, x < y → t.isVisible y = true → False := by
    intro y hxy hy
    have hfalse := hlast y hxy
    rw [isLeaf_of_isVisible hy] at hfalse
    cases hfalse
  cases hvis : t.isVisible x with
  | true =>
    rw [if_pos rfl, doc.lastBehind?_eq_some_iff]
    exact ⟨⟨hvis, by simp [hword], by omega⟩, fun y hxy hy => (hnone y hxy hy).elim⟩
  | false =>
    rw [if_neg Bool.false_ne_true]
    refine doc.lastBehind?_eq_prevVisible? (lt_size_of_token? htok) (fun y hyx hy => ?_)
      fun y hxy hy => ?_
    · have hle := doc.stop_le_stop (isLeaf_of_isVisible hy) hleaf (Nat.le_of_lt hyx)
      exact ⟨by simp [hword], by omega⟩
    · rcases Nat.eq_or_lt_of_le hxy with rfl | hlt
      · rw [hvis] at hy
        cases hy
      · exact (hnone y hlt hy).elim

/-- Without an element inside the document there is no leaf at all.  The last leaf
ends with the text, so a cursor at the end would be at this leaf. -/
theorem isLeaf_eq_false_of_elementAt? (hle : offset ≤ t.source.utf8ByteSize)
    (h : t.elementAt? offset = none) (x : Nat) : t.isLeaf x = false := by
  rw [elementAt?, Option.or_eq_none_iff, Option.or_eq_none_iff] at h
  obtain ⟨-, hleaf, hlast⟩ := h
  rw [Bool.eq_false_iff]
  intro hx
  obtain ⟨z, hz⟩ : ∃ z, t.leaves.toList.getLast? = some z := by
    cases hl : t.leaves.toList.getLast? with
    | none =>
      rw [List.getLast?_eq_none_iff] at hl
      have hmem := doc.mem_leaves.mpr hx
      rw [hl] at hmem
      cases hmem
    | some z => exact ⟨z, rfl⟩
  rw [← List.filter_true t.leaves.toList, doc.getLast?_leaves_filter] at hz
  obtain ⟨hzleaf, -, hzlast⟩ := hz
  obtain ⟨tok, htok⟩ := isLeaf_iff.mp hzleaf
  have hstop : t.stop z ≠ offset := by
    intro hstop
    have hsome := doc.lastLeafAt?_eq_some_iff.mpr ⟨hzleaf, fun y hy => ?_, hstop⟩
    · rw [hlast] at hsome
      cases hsome
    · rw [Bool.eq_false_iff]
      exact fun hleaf => Bool.noConfusion (hzlast y hy hleaf)
  have hend : offset = t.source.utf8ByteSize := by
    rcases Nat.eq_or_lt_of_le hle with heq | hlt
    · exact heq
    · obtain ⟨y, other, hother, hcontains⟩ := doc.exists_leaf_contains hlt
      rw [doc.leafAt?_eq_some_iff.mpr ⟨other, hother, hcontains⟩] at hleaf
      cases hleaf
  have hlt : t.stop z < t.source.utf8ByteSize := by
    have hle := doc.stop_le_length htok
    rw [← stop_of_token? htok] at hle
    omega
  obtain ⟨y, other, hother, hcontains⟩ := doc.exists_leaf_contains hlt
  have hyleaf := isLeaf_iff.mpr ⟨other, hother⟩
  rw [Token.contains_iff] at hcontains
  rcases Nat.lt_or_ge z y with hzy | hyz
  · exact Bool.noConfusion (hzlast y hzy hyleaf)
  · have hle := doc.stop_le_stop hyleaf hzleaf hyz
    rw [stop_of_token? hother] at hle
    omega

end Document

end Tree

/-! ## Contexts -/

namespace Context

open SiddhiEditor.Tree

variable {t : Tree} {x offset : Nat}

section Element

variable (doc : t.Document)

include doc

/-- The context at a word is that of the word. -/
theorem ofOffset_of_wordAt? (h : t.wordAt? offset = some x) :
    ofOffset t offset = ofElement t x := by
  obtain ⟨tok, htok, hkind, -⟩ := doc.wordAt?_eq_some_iff.mp h
  rw [ofOffset, elementAt?, h, Option.some_or]
  simp [token_of_token? htok, bind, Except.bind, hkind]

theorem ofOffset_of_leafAt? (hword : t.wordAt? offset = none) (h : t.leafAt? offset = some x) :
    ofOffset t offset = ofElement t x := by
  obtain ⟨tok, htok, hcontains⟩ := doc.leafAt?_eq_some_iff.mp h
  rw [Token.contains_iff] at hcontains
  rw [ofOffset, elementAt?, hword, Option.none_or, h, Option.some_or]
  simp [token_of_token? htok, bind, Except.bind, hcontains.2]

/-- The last leaf is not a word when it is the element.  A word that ends at the
cursor would have been found first. -/
theorem ofOffset_of_lastLeafAt? (hne : ∀ x tok, t.token? x = some tok → tok.text ≠ "")
    (hword : t.wordAt? offset = none) (hleaf : t.leafAt? offset = none)
    (h : t.lastLeafAt? offset = some x) :
    ofOffset t offset = if t.isVisible x then behind t x (t.kindAt x) else ofElement t x := by
  obtain ⟨hx, -, hstop⟩ := doc.lastLeafAt?_eq_some_iff.mp h
  obtain ⟨tok, htok⟩ := isLeaf_iff.mp hx
  rw [stop_of_token? htok] at hstop
  have hnot : tok.kind.isWord = false := by
    rw [Bool.eq_false_iff]
    intro hkind
    have hpos := Text.utf8ByteSize_pos (hne x tok htok)
    have htouches : tok.touches offset = true := by
      rw [Token.touches_iff]
      simp only [Token.stop, Token.length] at hstop ⊢
      omega
    rw [doc.wordAt?_eq_some_iff.mpr ⟨tok, htok, hkind, htouches⟩] at hword
    cases hword
  have hvis : t.isVisible x = !tok.kind.isTrivia := by
    simp [isVisible, htok, Token.isVisible]
  rw [ofOffset, elementAt?, hword, hleaf, Option.none_or, Option.none_or, h]
  cases htrivia : tok.kind.isTrivia <;>
    simp [token_of_token? htok, kindAt_of_token? htok, bind, Except.bind, hvis, htrivia, hnot,
      hstop]

end Element

/-- The context is about a leaf and the visible leaf before it. -/
def Follows (t : Tree) (leaf : NodeId) (c : Context) : Prop :=
  c.prev = t.seenAt leaf ∧ c.prevPrev = (t.prevVisible? leaf).map t.seenAt

/-- There is a context exactly when there is a leaf, and it is about the leaf. -/
def Agrees (t : Tree) : Option NodeId → Option Context → Prop
  | none, c? => c? = none
  | some leaf, c? => ∃ c, c? = some c ∧ c.Follows t leaf

/-- A context has the visible leaf that was asked for, and the one before it. -/
theorem ofElement_agrees : ∃ c?, ofElement t x = .ok c? ∧ Agrees t (t.prevVisible? x) c? := by
  refine ⟨_, ofElement_eq, ?_⟩
  cases t.prevVisible? x with
  | none => exact rfl
  | some leaf => exact ⟨_, rfl, rfl, rfl⟩

/-- Inside the document a request is about the leaf that the scan finds. -/
theorem ofOffset_agrees (doc : t.Document)
    (hne : ∀ x tok, t.token? x = some tok → tok.text ≠ "")
    (hle : offset ≤ t.source.utf8ByteSize) :
    ∃ c?, ofOffset t offset = .ok c? ∧ Agrees t (t.lastBehind? offset) c? := by
  cases hword : t.wordAt? offset with
  | some x =>
    rw [ofOffset_of_wordAt? doc hword, doc.lastBehind?_of_wordAt? hne hword]
    exact ofElement_agrees
  | none =>
    cases hleaf : t.leafAt? offset with
    | some x =>
      rw [ofOffset_of_leafAt? doc hword hleaf, doc.lastBehind?_of_leafAt? hword hleaf]
      exact ofElement_agrees
    | none =>
      cases hlast : t.lastLeafAt? offset with
      | some x =>
        rw [ofOffset_of_lastLeafAt? doc hne hword hleaf hlast,
          doc.lastBehind?_of_lastLeafAt? hword hlast]
        cases t.isVisible x with
        | true => exact ⟨_, behind_eq, _, rfl, rfl, rfl⟩
        | false => exact ofElement_agrees
      | none =>
        have helem : t.elementAt? offset = none := by
          rw [elementAt?, hword, hleaf, hlast]
          rfl
        have hscan : t.lastBehind? offset = none := by
          rw [Option.eq_none_iff_forall_ne_some]
          intro y hy
          have hy := isLeaf_of_isVisible (doc.lastBehind?_eq_some_iff.mp hy).1.1
          rw [doc.isLeaf_eq_false_of_elementAt? hle helem y] at hy
          cases hy
        rw [ofOffset, helem, hscan]
        exact ⟨none, rfl, rfl⟩

/-- A request at any offset of a document without empty leaves has no context
when the offset is behind the text or no visible leaf, other than the word being
typed, ends at or before it.  Otherwise its context is about the last such leaf
and the visible leaf before that, with their kinds. -/
theorem ofOffset_eq_scan {steps : List Step} (h : ofSteps steps = .ok t)
    (hne : ∀ tok ∈ t.tokens, tok.text ≠ "") (offset : Nat) :
    (ofOffset t offset = .ok none ↔
      t.source.utf8ByteSize < offset ∨ t.lastBehind? offset = none) ∧
    (offset ≤ t.source.utf8ByteSize → ∀ leaf, t.lastBehind? offset = some leaf →
      ∃ c, ofOffset t offset = .ok (some c) ∧
        (∃ tok, t.token? leaf = some tok ∧ c.prev = ⟨leaf, tok.kind⟩) ∧
        c.prevPrev.map (·.node) = t.lastBefore? leaf ∧
        ∀ before, c.prevPrev = some before →
          ∃ tok, t.token? before.node = some tok ∧ before.kind = tok.kind) := by
  have doc := document_of_ofSteps h
  have hne : ∀ x tok, t.token? x = some tok → tok.text ≠ "" := fun x tok htok =>
    hne tok (doc.mem_tokens.mpr ⟨x, htok⟩)
  refine ⟨?_, fun hle leaf hleaf => ?_⟩
  · rcases Nat.lt_or_ge t.source.utf8ByteSize offset with hlt | hle
    · rw [ofOffset, doc.elementAt?_eq_none_of_lt hlt]
      exact ⟨fun _ => Or.inl hlt, fun _ => rfl⟩
    · obtain ⟨c?, hc, hagrees⟩ := ofOffset_agrees doc hne hle
      rw [hc]
      cases hscan : t.lastBehind? offset with
      | none =>
        rw [hscan] at hagrees
        exact ⟨fun _ => Or.inr rfl, fun _ => congrArg Except.ok hagrees⟩
      | some leaf =>
        rw [hscan] at hagrees
        obtain ⟨c, rfl, -⟩ := hagrees
        refine ⟨fun h => absurd h (by simp), fun h => ?_⟩
        rcases h with hlt | hnone
        · omega
        · cases hnone
  · obtain ⟨c?, hc, hagrees⟩ := ofOffset_agrees doc hne hle
    rw [hleaf] at hagrees
    obtain ⟨c, rfl, hprev, hbefore⟩ := hagrees
    have hvis := (doc.lastBehind?_eq_some_iff.mp hleaf).1.1
    obtain ⟨tok, htok, -⟩ := isVisible_iff.mp hvis
    refine ⟨c, hc, ⟨tok, htok, ?_⟩, ?_, fun before hb => ?_⟩
    · rw [hprev, seenAt, kindAt_of_token? htok]
    · rw [hbefore, doc.lastBefore?_eq (lt_size_of_token? htok), Option.map_map]
      cases t.prevVisible? leaf <;> rfl
    · rw [hbefore] at hb
      obtain ⟨y, hy, rfl⟩ := Option.map_eq_some_iff.mp hb
      obtain ⟨tok, htok, -⟩ := isVisible_iff.mp (isVisible_of_prevVisible? hy)
      exact ⟨tok, htok, kindAt_of_token? htok⟩

/-- The input of a query whose next stream is being typed behind a `#`. -/
def hashInput : List Step :=
  [.openNode .siddhiApp, .openNode .query, .openNode .queryInput, .text "from S#wi", .closeNode,
    .closeNode, .closeNode]

theorem ofOffset_eq_scan_hashInput :
    ∃ t, ofSteps hashInput = .ok t ∧ t.lastBehind? 9 = some 6 ∧
      ∃ c, ofOffset t 9 = .ok (some c) ∧
        (∃ tok, t.token? 6 = some tok ∧ c.prev = ⟨6, tok.kind⟩) ∧
        c.prevPrev.map (·.node) = t.lastBefore? 6 ∧
        ∀ before, c.prevPrev = some before →
          ∃ tok, t.token? before.node = some tok ∧ before.kind = tok.kind :=
  ⟨_, rfl, by decide, (@ofOffset_eq_scan _ hashInput rfl (by decide) 9).2 (by decide) 6 (by decide)⟩

end Context

end SiddhiEditor
