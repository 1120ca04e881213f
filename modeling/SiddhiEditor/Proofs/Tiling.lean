import SiddhiEditor.Proofs.Preorder
import SiddhiEditor.Tree.Offset

/-!
# Documents and their leaves

The leaves of a document tile its text: the first starts at offset 0, each
starts where the one before ends, and the last ends with the text.  `Tiles`
says it of a list of tokens, and `Document` adds it to the shape of the tree.

A search by halving over the leaves then finds the first leaf whose end is far
enough (`leafFrom?_eq_find?`).  Tiling makes that leaf the only candidate, so
every look-up by offset is decided by the span of one leaf
(`leafAt?_eq_some_iff`, `wordAt?_eq_some_iff`, `lastLeafAt?_eq_some_iff`).
Empty leaves may stand anywhere, so the ends increase only weakly.
-/

namespace SiddhiEditor

theorem Token.contains_iff {tok : Token} {offset : Nat} :
    tok.contains offset = true ↔ tok.start ≤ offset ∧ offset < tok.stop := by
  simp [contains]

theorem Token.touches_iff {tok : Token} {offset : Nat} :
    tok.touches offset = true ↔ tok.start < offset ∧ offset ≤ tok.stop := by
  simp [touches]

/-! ## Tilings -/

/-- The tokens lie end to end from `a` to `b`. -/
def Tiles : (a : Nat) → List Token → (b : Nat) → Prop
  | a, [], b => a = b
  | a, tok :: rest, b => tok.start = a ∧ Tiles tok.stop rest b

namespace Tiles

variable {a b : Nat} {toks : List Token}

theorem append_iff {more : List Token} :
    Tiles a (toks ++ more) b ↔ ∃ m, Tiles a toks m ∧ Tiles m more b := by
  induction toks generalizing a with
  | nil => simp [Tiles]
  | cons tok rest ih =>
    simp only [List.cons_append, Tiles, ih]
    constructor
    · rintro ⟨hstart, m, hrest, hmore⟩
      exact ⟨m, ⟨hstart, hrest⟩, hmore⟩
    · rintro ⟨m, ⟨hstart, hrest⟩, hmore⟩
      exact ⟨hstart, m, hrest, hmore⟩

/-- A token more at the end. -/
theorem concat {tok : Token} (h : Tiles a toks tok.start) : Tiles a (toks ++ [tok]) tok.stop :=
  append_iff.mpr ⟨tok.start, h, rfl, rfl⟩

theorem le (h : Tiles a toks b) : a ≤ b := by
  induction toks generalizing a with
  | nil => exact Nat.le_of_eq h
  | cons tok rest ih =>
    obtain ⟨rfl, hrest⟩ := h
    exact Nat.le_trans (Nat.le_add_right _ _) (ih hrest)

/-- The tiling ends behind the bytes of its texts. -/
theorem stop_eq (h : Tiles a toks b) :
    b = a + (String.join (toks.map (·.text))).utf8ByteSize := by
  induction toks generalizing a with
  | nil => simpa [Tiles] using h.symm
  | cons tok rest ih =>
    obtain ⟨rfl, hrest⟩ := h
    rw [ih hrest, List.map_cons, String.join_cons, String.utf8ByteSize_append, Token.stop,
      Token.length, Nat.add_assoc]

theorem start_le {tok : Token} (h : Tiles a toks b) (hmem : tok ∈ toks) : a ≤ tok.start := by
  induction toks generalizing a with
  | nil => cases hmem
  | cons first rest ih =>
    obtain ⟨rfl, hrest⟩ := h
    rcases List.mem_cons.mp hmem with rfl | hmem
    · exact Nat.le_refl _
    · exact Nat.le_trans (Nat.le_add_right _ _) (ih hrest hmem)

theorem le_stop {tok : Token} (h : Tiles a toks b) (hmem : tok ∈ toks) : tok.stop ≤ b := by
  induction toks generalizing a with
  | nil => cases hmem
  | cons first rest ih =>
    obtain ⟨rfl, hrest⟩ := h
    rcases List.mem_cons.mp hmem with rfl | hmem
    · exact hrest.le
    · exact ih hrest hmem

/-- A token ends before every later one starts. -/
theorem separated (h : Tiles a toks b) :
    toks.Pairwise fun first second => first.stop ≤ second.start := by
  induction toks generalizing a with
  | nil => exact List.Pairwise.nil
  | cons tok rest ih =>
    exact List.Pairwise.cons (fun second hmem => h.2.start_le hmem) (ih h.2)

/-- Every offset of the tiled interval is covered. -/
theorem exists_contains {offset : Nat} (h : Tiles a toks b) (ha : a ≤ offset) (hb : offset < b) :
    ∃ tok ∈ toks, tok.contains offset = true := by
  induction toks generalizing a with
  | nil =>
    cases h
    omega
  | cons tok rest ih =>
    obtain ⟨rfl, hrest⟩ := h
    rcases Nat.lt_or_ge offset tok.stop with hlt | hge
    · exact ⟨tok, List.mem_cons_self, Token.contains_iff.mpr ⟨ha, hlt⟩⟩
    · obtain ⟨found, hmem, hcontains⟩ := ih hrest hge
      exact ⟨found, List.mem_cons_of_mem _ hmem, hcontains⟩

end Tiles

/-! ## Halving -/

/-- For a condition that never comes back once it has failed, halving finds the
place where it fails first. -/
theorem bisect_spec {q : Nat → Bool} (hq : ∀ i j, i ≤ j → q j = true → q i = true)
    {steps low high : Nat} (hsteps : high - low ≤ steps) (hle : low ≤ high)
    (hlow : ∀ i, i < low → q i = true) :
    bisect q steps low high ≤ high ∧ (∀ i, i < bisect q steps low high → q i = true) ∧
      ∀ i, bisect q steps low high ≤ i → i < high → q i = false := by
  induction steps generalizing low high with
  | zero =>
    obtain rfl : low = high := by omega
    exact ⟨Nat.le_refl _, hlow, fun i hi hi' => by simp only [bisect] at hi; omega⟩
  | succ steps ih =>
    rw [bisect]
    split
    next hlt =>
      dsimp only
      split
      next hmid =>
        obtain ⟨h1, h2, h3⟩ := @ih ((low + high) / 2 + 1) high (by omega)
          (by omega) fun i hi => hq i _ (by omega) hmid
        exact ⟨h1, h2, h3⟩
      next hmid =>
        obtain ⟨h1, h2, h3⟩ := @ih low ((low + high) / 2) (by omega) (by omega) hlow
        refine ⟨by omega, h2, fun i hi hi' => ?_⟩
        rcases Nat.lt_or_ge i ((low + high) / 2) with hlt' | hge
        · exact h3 i hi hlt'
        · rw [Bool.eq_false_iff]
          exact fun htrue => hmid (hq _ i hge htrue)
    next hnot =>
      obtain rfl : low = high := by omega
      exact ⟨Nat.le_refl _, hlow, fun i hi hi' => by omega⟩

/-- The boundary divides the numbers that meet a condition from those that do not. -/
theorem boundary_spec {q : Nat → Bool} (hq : ∀ i j, i ≤ j → q j = true → q i = true) (n : Nat) :
    (∀ i, i < boundary q n → q i = true) ∧ ∀ i, boundary q n ≤ i → i < n → q i = false :=
  (bisect_spec hq (Nat.sub_le n 0) (Nat.zero_le n) fun i hi => by omega).2

/-- An entry that is the first to have a property is found by a scan. -/
theorem getElem?_eq_find? {α : Type} {q : α → Bool} {xs : List α} {n : Nat}
    (hbelow : ∀ i x, i < n → xs[i]? = some x → q x = false)
    (hat : ∀ x, xs[n]? = some x → q x = true) : xs[n]? = xs.find? q := by
  induction xs generalizing n with
  | nil => simp
  | cons x xs ih =>
    cases n with
    | zero =>
      rw [List.find?_cons_of_pos (hat x rfl)]
      rfl
    | succ n =>
      rw [List.find?_cons_of_neg (by simp [hbelow 0 x (Nat.succ_pos n) rfl])]
      exact ih (fun i y hi hy => hbelow (i + 1) y (Nat.succ_lt_succ hi) hy) hat

namespace Tree

variable {t : Tree} {x y offset : Nat} {tok : Token}

/-! ## The tokens of a tree -/

/-- The tokens of the leaves, in order. -/
def tokens (t : Tree) : List Token := t.leaves.toList.filterMap t.token?

/-- The tree of a document: the rows are in pre-order and the leaves tile the
text. -/
structure Document (t : Tree) : Prop extends t.WellFormed where
  /-- The leaves tile the text. -/
  tiled : Tiles 0 t.tokens t.source.utf8ByteSize

theorem isLeaf_iff : t.isLeaf x = true ↔ ∃ tok, t.token? x = some tok := Option.isSome_iff_exists

theorem isVisible_iff :
    t.isVisible x = true ↔ ∃ tok, t.token? x = some tok ∧ tok.isVisible = true :=
  Option.any_eq_true _ _

theorem isLeaf_of_isVisible (h : t.isVisible x = true) : t.isLeaf x = true := by
  obtain ⟨tok, htok, -⟩ := isVisible_iff.mp h
  exact isLeaf_iff.mpr ⟨tok, htok⟩

theorem isVisible_eq_false_of_isLeaf (h : t.isLeaf x = false) : t.isVisible x = false := by
  rw [Bool.eq_false_iff]
  intro hvis
  rw [isLeaf_of_isVisible hvis] at h
  cases h

theorem stop_of_token? (h : t.token? x = some tok) : t.stop x = tok.stop := by
  simp [stop, h]

namespace WellFormed

variable (wf : t.WellFormed)

include wf

theorem mem_leaves : x ∈ t.leaves.toList ↔ t.isLeaf x = true := by
  rw [wf.leaves_eq, List.mem_filter, List.mem_range]
  refine ⟨fun h => h.2, fun h => ⟨?_, h⟩⟩
  obtain ⟨tok, htok⟩ := isLeaf_iff.mp h
  exact lt_size_of_token? htok

/-- A scan of the leaves for a property that at most one leaf has. -/
theorem find?_leaves_eq {q : NodeId → Bool} {found : Option NodeId}
    (hleaf : ∀ x, q x = true → t.isLeaf x = true) (h : ∀ x, found = some x ↔ q x = true) :
    t.leaves.toList.find? q = found := by
  cases hscan : t.leaves.toList.find? q with
  | some x => exact ((h x).mpr (List.find?_some hscan)).symm
  | none =>
    rw [List.find?_eq_none] at hscan
    cases found with
    | none => rfl
    | some x =>
      have hq := (h x).mp rfl
      exact absurd hq (hscan x (wf.mem_leaves.mpr (hleaf x hq)))

/-- Leaves are listed in the order of the document. -/
theorem leaves_increasing : t.leaves.toList.Pairwise (· < ·) := by
  rw [wf.leaves_eq]
  exact List.pairwise_lt_range.sublist List.filter_sublist

theorem tokens_eq : t.tokens = (List.range t.size).filterMap t.token? := by
  rw [tokens, wf.leaves_eq, List.filterMap_filter]
  refine List.filterMap_congr fun x _ => ?_
  cases h : t.token? x <;> simp [isLeaf, h]

/-- The text of the document is that of its tokens. -/
theorem source_eq : t.source = String.join (t.tokens.map (·.text)) := by
  rw [source, text, wf.subtree_root, wf.tokens_eq, List.map_filterMap]

theorem mem_tokens : tok ∈ t.tokens ↔ ∃ x, t.token? x = some tok := by
  rw [tokens, List.mem_filterMap]
  constructor
  · rintro ⟨x, -, h⟩
    exact ⟨x, h⟩
  · rintro ⟨x, h⟩
    exact ⟨x, wf.mem_leaves.mpr (isLeaf_iff.mpr ⟨tok, h⟩), h⟩

end WellFormed

namespace Document

variable (doc : t.Document)

include doc

/-- A leaf ends before every later leaf starts. -/
theorem stop_le_start {first second : Token} (hx : t.token? x = some first)
    (hy : t.token? y = some second) (hxy : x < y) : first.stop ≤ second.start := by
  have hsep := doc.tiled.separated
  rw [doc.tokens_eq, List.pairwise_filterMap] at hsep
  exact (List.pairwise_iff_getElem.mp hsep x y (by simpa using lt_size_of_token? hx)
    (by simpa using lt_size_of_token? hy) hxy) first (by simpa using hx) second (by simpa using hy)

/-- Of two leaves the later one ends later. -/
theorem stop_le_stop (hx : t.isLeaf x = true) (hy : t.isLeaf y = true) (hxy : x ≤ y) :
    t.stop x ≤ t.stop y := by
  obtain ⟨first, hfirst⟩ := isLeaf_iff.mp hx
  obtain ⟨second, hsecond⟩ := isLeaf_iff.mp hy
  rcases Nat.eq_or_lt_of_le hxy with rfl | hlt
  · exact Nat.le_refl _
  · rw [stop_of_token? hfirst, stop_of_token? hsecond]
    exact Nat.le_trans (doc.stop_le_start hfirst hsecond hlt) (Nat.le_add_right _ _)

theorem stop_le_length (h : t.token? x = some tok) : tok.stop ≤ t.source.utf8ByteSize :=
  doc.tiled.le_stop (doc.mem_tokens.mpr ⟨x, h⟩)

/-- Every byte of the text belongs to a leaf. -/
theorem exists_leaf_contains (h : offset < t.source.utf8ByteSize) :
    ∃ x tok, t.token? x = some tok ∧ tok.contains offset = true := by
  obtain ⟨tok, hmem, hcontains⟩ := doc.tiled.exists_contains (Nat.zero_le offset) h
  obtain ⟨x, hx⟩ := doc.mem_tokens.mp hmem
  exact ⟨x, tok, hx, hcontains⟩

/-! ## Look-up by offset -/

/-- A condition on ends that never comes back does not come back along the list
of leaves. -/
theorem leaves_any_of_le {q : Nat → Bool} (hq : ∀ m n, m ≤ n → q n = true → q m = true)
    {i j : Nat} (hij : i ≤ j) (hj : (t.leaves[j]?.any fun x => q (t.stop x)) = true) :
    (t.leaves[i]?.any fun x => q (t.stop x)) = true := by
  obtain ⟨y, hy, hqy⟩ := (Option.any_eq_true _ _).mp hj
  obtain ⟨hjs, rfl⟩ := Array.getElem?_eq_some_iff.mp hy
  have his : i < t.leaves.size := Nat.lt_of_le_of_lt hij hjs
  rw [Array.getElem?_eq_getElem his]
  have hleaf : ∀ k (hk : k < t.leaves.size), t.isLeaf t.leaves[k] = true := fun k hk =>
    doc.mem_leaves.mp (Array.mem_toList_iff.mpr (Array.getElem_mem hk))
  have hle : t.leaves[i] ≤ t.leaves[j] := by
    rcases Nat.eq_or_lt_of_le hij with rfl | hlt
    · exact Nat.le_refl _
    · exact Nat.le_of_lt (List.pairwise_iff_getElem.mp doc.leaves_increasing i j
        (by simpa using his) (by simpa using hjs) hlt)
  exact hq _ _ (doc.stop_le_stop (hleaf i his) (hleaf j hjs) hle) hqy

/-- The search by halving finds the first leaf whose end fails a condition that
never comes back. -/
theorem leafFrom?_eq_find? {q : Nat → Bool} (hq : ∀ m n, m ≤ n → q n = true → q m = true) :
    t.leafFrom? q = t.leaves.toList.find? fun x => !q (t.stop x) := by
  obtain ⟨hbelow, habove⟩ := boundary_spec
    (q := fun i => t.leaves[i]?.any fun x => q (t.stop x))
    (fun i j hij hj => doc.leaves_any_of_le hq hij hj) t.leaves.size
  rw [leafFrom?, ← Array.getElem?_toList]
  refine getElem?_eq_find? (fun i x hi hx => ?_) fun x hx => ?_
  · have hany := hbelow i hi
    rw [← Array.getElem?_toList, hx] at hany
    simpa using hany
  · have hsize := (List.getElem?_eq_some_iff.mp hx).1
    have hany := habove _ (Nat.le_refl _) (by simpa using hsize)
    rw [← Array.getElem?_toList, hx] at hany
    simpa using hany

/-- The first leaf whose end fails the condition is `x`, if the condition fails at
the end of `x` and holds at the start of `x`. -/
theorem leafFrom?_eq_some {q : Nat → Bool} (hq : ∀ m n, m ≤ n → q n = true → q m = true)
    (hx : t.token? x = some tok) (hstart : q tok.start = true) (hstop : q tok.stop = false) :
    t.leafFrom? q = some x := by
  rw [doc.leafFrom?_eq_find? hq, doc.leaves_eq, List.find?_filter, List.find?_range_eq_some]
  refine ⟨?_, List.mem_range.mpr (lt_size_of_token? hx), fun y hy => ?_⟩
  · simp [isLeaf_iff.mpr ⟨tok, hx⟩, stop_of_token? hx, hstop]
  · cases hleaf : t.token? y with
    | none => simp [isLeaf, hleaf]
    | some other =>
      have hle := doc.stop_le_start hleaf hx hy
      simp [isLeaf, hleaf, stop_of_token? hleaf, hq _ _ hle hstart]

/-- The leaf at an offset is the one that covers it. -/
theorem leafAt?_eq_some_iff :
    t.leafAt? offset = some x ↔ ∃ tok, t.token? x = some tok ∧ tok.contains offset = true := by
  rw [leafAt?, Option.filter_eq_some_iff, Option.any_eq_true]
  constructor
  · exact fun h => h.2
  · rintro ⟨tok, hx, hcontains⟩
    refine ⟨doc.leafFrom?_eq_some ?_ hx ?_ ?_, tok, hx, hcontains⟩
    · intro m n hmn hn
      simp only [decide_eq_true_eq] at hn ⊢
      omega
    · rw [Token.contains_iff] at hcontains
      simpa using hcontains.1
    · rw [Token.contains_iff] at hcontains
      simpa using hcontains.2

/-- The word at an offset is the one that the cursor is inside of or right
behind. -/
theorem wordAt?_eq_some_iff :
    t.wordAt? offset = some x ↔
      ∃ tok, t.token? x = some tok ∧ tok.kind.isWord = true ∧ tok.touches offset = true := by
  rw [wordAt?, Option.filter_eq_some_iff, Option.any_eq_true]
  simp only [Bool.and_eq_true]
  constructor
  · exact fun h => h.2
  · rintro ⟨tok, hx, hword, htouches⟩
    refine ⟨doc.leafFrom?_eq_some ?_ hx ?_ ?_, tok, hx, hword, htouches⟩
    · intro m n hmn hn
      simp only [decide_eq_true_eq] at hn ⊢
      omega
    · rw [Token.touches_iff] at htouches
      simpa using htouches.1
    · rw [Token.touches_iff] at htouches
      simpa using htouches.2

/-- The last leaf counts when it ends at the offset. -/
theorem lastLeafAt?_eq_some_iff :
    t.lastLeafAt? offset = some x ↔
      t.isLeaf x = true ∧ (∀ y : Nat, x < y → t.isLeaf y = false) ∧ t.stop x = offset := by
  rw [lastLeafAt?, Option.filter_eq_some_iff, ← Array.getLast?_toList, doc.leaves_eq,
    List.getLast?_filter, find?_reverse_range_eq_some_iff, beq_iff_eq]
  constructor
  · rintro ⟨⟨-, hleaf, hlast⟩, hstop⟩
    refine ⟨hleaf, fun y hy => ?_, hstop⟩
    rcases Nat.lt_or_ge y t.size with hlt | hge
    · exact hlast y hy hlt
    · rw [isLeaf, token?, Array.getElem?_eq_none hge]
      rfl
  · rintro ⟨hleaf, hlast, hstop⟩
    obtain ⟨tok, htok⟩ := isLeaf_iff.mp hleaf
    exact ⟨⟨lt_size_of_token? htok, hleaf, fun y hy _ => hlast y hy⟩, hstop⟩

/-- A request is always about a leaf. -/
theorem token?_of_elementAt? (h : t.elementAt? offset = some x) : ∃ tok, t.token? x = some tok := by
  rw [elementAt?, Option.or_eq_some_iff, Option.or_eq_some_iff] at h
  rcases h with hword | ⟨-, hleaf | ⟨-, hlast⟩⟩
  · obtain ⟨tok, htok, -⟩ := doc.wordAt?_eq_some_iff.mp hword
    exact ⟨tok, htok⟩
  · obtain ⟨tok, htok, -⟩ := doc.leafAt?_eq_some_iff.mp hleaf
    exact ⟨tok, htok⟩
  · exact isLeaf_iff.mp (doc.lastLeafAt?_eq_some_iff.mp hlast).1

end Document

end Tree

end SiddhiEditor
