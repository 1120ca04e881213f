import SiddhiEditor.Proofs.Answers
import SiddhiEditor.Proofs.Construction

/-!
# A document with one more piece of trivia

Two runs of steps differ by one step that adds a blank run or a comment.  Their
trees differ by one row, `m`.  All later rows have moved up by one, and all
later tokens start `width` bytes further on.  `renumber m` gives the new number
of an old row, and `Tree.Padded` says how the two trees correspond row by row.

Rows keep their order under `renumber m`, and the new row is neither visible nor
interior.  So every list of rows that a question about the tree collects, once
it is restricted to visible leaves or to the nodes of one rule, is renumbered
member by member (`filter_eq_map_renumber`).  The ways up are renumbered as they
are, because nothing hangs under a leaf.
-/

namespace SiddhiEditor

/-! ## Numbers -/

/-- The number of the row `x` after a row has been put in at `m`. -/
def renumber (m x : Nat) : Nat := if x < m then x else x + 1

section Renumber

variable {m x y n : Nat}

theorem renumber_of_lt (h : x < m) : renumber m x = x := if_pos h

theorem renumber_of_le (h : m ≤ x) : renumber m x = x + 1 := if_neg (Nat.not_lt.mpr h)

/-- Renumbering keeps the order of the rows. -/
theorem renumber_lt_renumber : renumber m x < renumber m y ↔ x < y := by
  simp only [renumber]
  split <;> split <;> omega

theorem renumber_le_renumber : renumber m x ≤ renumber m y ↔ x ≤ y := by
  rw [← Nat.not_lt, renumber_lt_renumber, Nat.not_lt]

theorem renumber_inj : renumber m x = renumber m y ↔ x = y := by
  simp only [renumber]
  split <;> split <;> omega

/-- The new row is none of the old ones. -/
theorem renumber_ne : renumber m x ≠ m := by
  simp only [renumber]
  split <;> omega

theorem renumber_lt_iff : renumber m x < m ↔ x < m := by
  simp only [renumber]
  split <;> omega

theorem lt_renumber_iff : m < renumber m x ↔ m ≤ x := by
  simp only [renumber]
  split <;> omega

/-- A row that may be missing is a given one exactly when it was before. -/
theorem map_renumber_beq (x? : Option Nat) :
    (x?.map (renumber m) == some (renumber m y)) = (x? == some y) := by
  cases x? with
  | none => rfl
  | some x =>
    rw [Option.map_some, Bool.eq_iff_iff, beq_iff_eq, beq_iff_eq, Option.some_inj, Option.some_inj,
      renumber_inj]

/-- Every row but the new one has an old number. -/
theorem exists_renumber (h : y ≠ m) : ∃ x, renumber m x = y := by
  rcases Nat.lt_or_ge y m with hlt | hge
  · exact ⟨y, renumber_of_lt hlt⟩
  · exact ⟨y - 1, by rw [renumber_of_le (by omega)]; omega⟩

/-- Two increasing lists that correspond row by row still correspond when both
are restricted, so that the new row is out. -/
theorem filter_eq_map_renumber {xs ys : List Nat} (hxs : xs.Pairwise (· < ·))
    (hys : ys.Pairwise (· < ·)) (hmem : ∀ x, renumber m x ∈ ys ↔ x ∈ xs) {q : Nat → Bool}
    (hm : q m = false) :
    ys.filter q = (xs.filter fun x => q (renumber m x)).map (renumber m) := by
  refine eq_of_increasing (hys.sublist List.filter_sublist) ?_ fun y => ?_
  · rw [List.pairwise_map]
    exact (hxs.sublist List.filter_sublist).imp renumber_lt_renumber.mpr
  · rw [List.mem_filter, List.mem_map]
    refine ⟨fun h => ?_, fun h => ?_⟩
    · obtain ⟨hy, hq⟩ := h
      obtain ⟨x, rfl⟩ : ∃ x, renumber m x = y := by
        refine exists_renumber fun heq => ?_
        rw [heq, hm] at hq
        cases hq
      exact ⟨x, List.mem_filter.mpr ⟨(hmem x).mp hy, hq⟩, rfl⟩
    · obtain ⟨x, hx, rfl⟩ := h
      obtain ⟨hx, hq⟩ := List.mem_filter.mp hx
      exact ⟨(hmem x).mpr hx, hq⟩

theorem mem_range_renumber : renumber m x ∈ List.range (renumber m n) ↔ x ∈ List.range n := by
  rw [List.mem_range, List.mem_range, renumber_lt_renumber]

end Renumber

namespace Tree

/-! ## Corresponding trees -/

/-- `t'` is `t` with a piece of trivia put in as the row `m`, at the offset
`place` and `width` bytes long. -/
structure Padded (m place width : Nat) (t t' : Tree) : Prop where
  /-- The tree without the new row is that of a document. -/
  doc : t.Document
  /-- The tree with the new row is that of a document. -/
  doc' : t'.Document
  /-- The new row is not the root. -/
  pos : 0 < m
  /-- There is one row more. -/
  size_eq : t'.size = renumber m t.size
  /-- Interior nodes keep their rules. -/
  rule?_eq : ∀ x, t'.rule? (renumber m x) = t.rule? x
  /-- Leaves keep their tokens, and those behind the new row start later. -/
  token?_eq : ∀ x, t'.token? (renumber m x) =
    (t.token? x).map (Token.shift (if x < m then 0 else width))
  /-- Parents are renumbered. -/
  parent?_eq : ∀ x, t'.parent? (renumber m x) = (t.parent? x).map (renumber m)
  /-- The new row is trivia. -/
  new : ∃ tok, t'.token? m = some tok ∧ tok.kind.isTrivia = true ∧ tok.start = place ∧
    tok.length = width

namespace Padded

variable {m place width x y : Nat} {t t' : Tree} (pad : Padded m place width t t')

include pad

theorem renumber_root : renumber m root = root := renumber_of_lt pad.pos

/-! ## Labels -/

theorem hasRule_eq (r : Rule) (x : Nat) : t'.hasRule r (renumber m x) = t.hasRule r x := by
  rw [hasRule, hasRule, pad.rule?_eq]

theorem isLeaf_eq (x : Nat) : t'.isLeaf (renumber m x) = t.isLeaf x := by
  rw [isLeaf, isLeaf, pad.token?_eq, Option.isSome_map]

theorem isVisible_eq (x : Nat) : t'.isVisible (renumber m x) = t.isVisible x := by
  rw [isVisible, isVisible, pad.token?_eq, Option.any_map]
  rfl

theorem kindAt_eq (x : Nat) : t'.kindAt (renumber m x) = t.kindAt x := by
  rw [kindAt, kindAt, pad.token?_eq, Option.map_map]
  rfl

theorem textAt_eq (x : Nat) : t'.textAt (renumber m x) = t.textAt x := by
  rw [textAt, textAt, pad.token?_eq, Option.map_map]
  rfl

theorem isVisible_new : t'.isVisible m = false := by
  obtain ⟨tok, htok, htrivia, -⟩ := pad.new
  simp [isVisible, htok, Token.isVisible, htrivia]

theorem hasRule_new (r : Rule) : t'.hasRule r m = false := by
  obtain ⟨tok, htok, -⟩ := pad.new
  cases hr : t'.rule? m with
  | none => rw [hasRule, hr]; rfl
  | some s =>
    rw [token?_eq_none_of_rule? hr] at htok
    cases htok

/-! ## Ways up -/

/-- The new row is a leaf, so it is above no row. -/
theorem ancestors_eq (x : Nat) :
    t'.ancestors (renumber m x) = (t.ancestors x).map (renumber m) := by
  induction x using pad.doc.parent_induction with
  | top x hx =>
    have hx' : t'.parent? (renumber m x) = none := by rw [pad.parent?_eq, hx]; rfl
    rw [WellFormed.ancestors_of_parent?_eq_none hx, WellFormed.ancestors_of_parent?_eq_none hx']
    rfl
  | below x p hp ih =>
    have hp' : t'.parent? (renumber m x) = some (renumber m p) := by rw [pad.parent?_eq, hp]; rfl
    rw [pad.doc.ancestors_of_parent? hp, pad.doc'.ancestors_of_parent? hp', ih]
    rfl

theorem ancestor?_eq (r : Rule) (x : Nat) :
    t'.ancestor? r (renumber m x) = (t.ancestor? r x).map (renumber m) := by
  rw [ancestor?, pad.ancestors_eq, List.find?_map, ancestor?]
  congr 2
  funext y
  exact pad.hasRule_eq r y

theorem isWithin_eq (r : Rule) (x : Nat) : t'.isWithin r (renumber m x) = t.isWithin r x := by
  rw [isWithin, pad.ancestor?_eq, Option.isSome_map, isWithin]

/-! ## Collected rows -/

/-- A row covers the rows it has covered. -/
theorem covers_iff : t'.Covers (renumber m x) (renumber m y) ↔ t.Covers x y := by
  rcases Nat.lt_trichotomy x y with hlt | rfl | hgt
  · have hmem : renumber m x ∈ t'.ancestors (renumber m y) ↔ x ∈ t.ancestors y := by
      rw [pad.ancestors_eq, List.mem_map]
      refine ⟨fun h => ?_, fun h => ⟨x, h, rfl⟩⟩
      obtain ⟨z, hz, heq⟩ := h
      rw [← renumber_inj.mp heq]
      exact hz
    rw [pad.doc'.mem_ancestors_iff, pad.doc.mem_ancestors_iff, renumber_lt_renumber] at hmem
    exact ⟨fun h => (hmem.mp ⟨hlt, h⟩).2, fun h => (hmem.mpr ⟨hlt, h⟩).2⟩
  · exact ⟨fun _ => Covers.refl _ _, fun _ => Covers.refl _ _⟩
  · refine ⟨fun h => ?_, fun h => ?_⟩
    · have hle := renumber_le_renumber.mp h.1
      omega
    · have hle := h.1
      omega

/-- Rows of a subtree, when the new row is not asked for. -/
theorem filter_subtree {q : Nat → Bool} (hm : q m = false) (x : Nat) :
    (t'.subtree (renumber m x)).filter q =
      ((t.subtree x).filter fun y => q (renumber m y)).map (renumber m) := by
  refine filter_eq_map_renumber subtree_increasing subtree_increasing (fun y => ?_) hm
  rw [mem_subtree, mem_subtree, pad.covers_iff]

/-- The children of a row, up to a condition that the new row does not meet. -/
theorem filter_children {q : Nat → Bool} (hm : q m = false) (x : Nat) :
    (t'.children (renumber m x)).filter q =
      ((t.children x).filter fun y => q (renumber m y)).map (renumber m) := by
  refine filter_eq_map_renumber pad.doc.children_increasing pad.doc'.children_increasing
    (fun y => ?_) hm
  rw [pad.doc'.mem_children, pad.doc.mem_children, pad.parent?_eq, Option.map_eq_some_iff]
  refine ⟨fun h => ?_, fun h => ⟨x, h, rfl⟩⟩
  obtain ⟨p, hp, heq⟩ := h
  rw [← renumber_inj.mp heq]
  exact hp

/-- No row below a row is added, because the new row has no rule. -/
theorem descendants_eq (r : Rule) (x : Nat) :
    t'.descendants r (renumber m x) = (t.descendants r x).map (renumber m) := by
  rw [descendants, pad.filter_subtree (pad.hasRule_new r), descendants]
  simp only [pad.hasRule_eq]

theorem firstVisible?_eq (x : Nat) :
    t'.firstVisible? (renumber m x) = (t.firstVisible? x).map (renumber m) := by
  rw [firstVisible?, ← List.head?_filter, pad.filter_subtree pad.isVisible_new, List.head?_map]
  simp only [pad.isVisible_eq]
  rw [List.head?_filter, firstVisible?]

theorem lastVisible?_eq (x : Nat) :
    t'.lastVisible? (renumber m x) = (t.lastVisible? x).map (renumber m) := by
  rw [lastVisible?, ← List.getLast?_filter, pad.filter_subtree pad.isVisible_new,
    List.getLast?_map]
  simp only [pad.isVisible_eq]
  rw [List.getLast?_filter, lastVisible?]

/-- The visible leaf before a row is moved with the row. -/
theorem prevVisible?_eq (x : Nat) :
    t'.prevVisible? (renumber m x) = (t.prevVisible? x).map (renumber m) := by
  rcases Nat.lt_or_ge x t.size with hlt | hge
  · have hlt' : renumber m x < t'.size := by
      rw [pad.size_eq]
      exact renumber_lt_renumber.mpr hlt
    rw [pad.doc.prevVisible?_eq_find? hlt, pad.doc'.prevVisible?_eq_find? hlt',
      ← List.getLast?_filter, ← List.getLast?_filter,
      filter_eq_map_renumber List.pairwise_lt_range List.pairwise_lt_range
        (fun _ => mem_range_renumber) pad.isVisible_new, List.getLast?_map]
    simp only [pad.isVisible_eq]
  · have hge' : t'.size ≤ renumber m x := by
      rw [pad.size_eq]
      exact renumber_le_renumber.mpr hge
    rw [prevVisible?_of_size_le hge, prevVisible?_of_size_le hge']
    rfl

/-- A closing leaf closes the same nodes. -/
theorem closedBy_eq (leaf : Nat) (kind : Kind) :
    t'.closedBy (renumber m leaf) kind = renumber m (t.closedBy leaf kind) := by
  unfold closedBy
  dsimp only
  split
  · rw [pad.ancestors_eq, List.takeWhile_map, List.getLast?_map]
    simp only [Function.comp_def, pad.lastVisible?_eq, map_renumber_beq, pad.hasRule_eq]
    rw [Option.getD_map]
  · rfl

end Padded

end Tree

/-! ## Corresponding runs -/

/-- What the row `x` carries after `width` bytes have been put in before the row
`m`. -/
def Label.pad (m width x : Nat) : Label → Label
  | .rule r => .rule r
  | .token tok => .token (tok.shift (if x < m then 0 else width))

theorem Label.rule?_pad (m width x : Nat) (label : Label) :
    (label.pad m width x).rule? = label.rule? := by
  cases label <;> rfl

theorem Label.token?_pad (m width x : Nat) (label : Label) :
    (label.pad m width x).token? =
      label.token?.map (Token.shift (if x < m then 0 else width)) := by
  cases label <;> rfl

namespace Draft

/-- The run of `d'` has made one step more, which put trivia in as the row `m`. -/
structure Padded (m place width : Nat) (d d' : Draft) : Prop where
  pos : 0 < m
  le : m ≤ d.nodes.size
  size_eq : d'.nodes.size = d.nodes.size + 1
  core : ∀ x, d'.tree.core? (renumber m x) =
    (d.tree.core? x).map fun e => (e.1.pad m width x, e.2.map (renumber m))
  new : ∃ tok, d'.tree.token? m = some tok ∧ tok.kind.isTrivia = true ∧ tok.start = place ∧
    tok.length = width
  open_eq : d'.openNodes = d.openNodes.map (renumber m)
  offset_eq : d'.offset = d.offset + width

namespace Padded

variable {m place width : Nat} {d d' : Draft} (pad : Padded m place width d d')

include pad

theorem openNodes_eq_nil_iff : d.openNodes = [] ↔ d'.openNodes = [] := by
  rw [pad.open_eq, List.map_eq_nil_iff]

/-- The next row hangs under the moved node. -/
theorem anchor_eq : d'.anchor = d.anchor.map (renumber m) := by
  have hpos := pad.pos
  have hle := pad.le
  have hsize := pad.size_eq
  have hne : d.nodes ≠ #[] := by
    intro heq
    rw [heq, Array.size_empty] at hle
    omega
  have hne' : d'.nodes ≠ #[] := by
    intro heq
    rw [heq, Array.size_empty] at hsize
    omega
  simp only [anchor]
  rw [pad.open_eq]
  cases d.openNodes with
  | nil => simp [hne, hne', renumber_of_lt (show Tree.root < m from hpos)]
  | cons x rest => rfl

/-- Corresponding rows behind corresponding rows. -/
theorem core_push {label label' : Label} (h : label.pad m width d.nodes.size = label') (x : Nat) :
    (d'.push label').tree.core? (renumber m x) =
      ((d.push label).tree.core? x).map fun e => (e.1.pad m width x, e.2.map (renumber m)) := by
  have hsize : d'.nodes.size = renumber m d.nodes.size := by
    rw [pad.size_eq, renumber_of_le pad.le]
  simp only [core?_push, hsize, renumber_inj]
  split
  next heq =>
    subst heq
    rw [← h, pad.anchor_eq]
    rfl
  next => exact pad.core x

/-- The new row keeps its token when rows are added. -/
theorem new_push (label : Label) :
    ∃ tok, (d'.push label).tree.token? m = some tok ∧ tok.kind.isTrivia = true ∧
      tok.start = place ∧ tok.length = width := by
  obtain ⟨tok, htok, hnew⟩ := pad.new
  have hlt : m < d'.nodes.size := by
    have hle := pad.le
    have hsize := pad.size_eq
    omega
  exact ⟨tok, (token?_push_of_lt hlt).trans htok, hnew⟩

theorem openNode (r : Rule) : Padded m place width (d.openNode r) (d'.openNode r) where
  pos := pad.pos
  le := Nat.le_trans pad.le (by simp [size_openNode])
  size_eq := by rw [size_openNode, size_openNode, pad.size_eq]
  core x := pad.core_push (show (Label.rule r).pad m width d.nodes.size = .rule r from rfl) x
  new := pad.new_push _
  open_eq := by
    simp only [Draft.openNode, List.map_cons, pad.open_eq, pad.size_eq, renumber_of_le pad.le]
  offset_eq := pad.offset_eq

theorem popNode : Padded m place width d.popNode d'.popNode where
  pos := pad.pos
  le := pad.le
  size_eq := pad.size_eq
  core := pad.core
  new := pad.new
  open_eq := by simp only [Draft.popNode, pad.open_eq, List.map_tail]
  offset_eq := pad.offset_eq

theorem extend (kind : Kind) (text : String) :
    Padded m place width (d.extend kind text) (d'.extend kind text) where
  pos := pad.pos
  le := Nat.le_trans pad.le (by simp [size_extend])
  size_eq := by rw [size_extend, size_extend, pad.size_eq]
  core x := by
    refine pad.core_push ?_ x
    simp only [Label.pad, Token.shift, if_neg (Nat.not_lt.mpr pad.le), pad.offset_eq]
  new := pad.new_push _
  open_eq := pad.open_eq
  offset_eq := by
    simp only [Draft.extend, pad.offset_eq]
    omega

/-- Whatever is built on both, one table has the new row and the other has not. -/
theorem run (steps : List Step) : Padded m place width (d.run steps) (d'.run steps) := by
  induction steps generalizing d d' with
  | nil => exact pad
  | cons s rest ih =>
    exact ih (step_related (fun _ _ h => h.openNodes_eq_nil_iff) (fun _ _ r h => h.openNode r)
      (fun _ _ _ h => h.popNode) (fun _ _ kind text _ h => h.extend kind text) pad s)

/-- The trees of such drafts differ by the new row. -/
theorem tree (doc : d.tree.Document) (doc' : d'.tree.Document) :
    Tree.Padded m place width d.tree d'.tree where
  doc := doc
  doc' := doc'
  pos := pad.pos
  size_eq := pad.size_eq.trans (renumber_of_le pad.le).symm
  rule?_eq x := by
    rw [Tree.rule?_eq_bind_core?, Tree.rule?_eq_bind_core?, pad.core]
    cases d.tree.core? x with
    | none => rfl
    | some e => exact Label.rule?_pad m width x e.1
  token?_eq x := by
    rw [Tree.token?_eq_bind_core?, Tree.token?_eq_bind_core?, pad.core]
    cases d.tree.core? x with
    | none => rfl
    | some e => exact Label.token?_pad m width x e.1
  parent?_eq x := by
    rw [Tree.parent?_eq_bind_core?, Tree.parent?_eq_bind_core?, pad.core]
    cases d.tree.core? x with
    | none => rfl
    | some e => rfl
  new := pad.new

end Padded

/-- The step that puts the trivia in makes the two runs correspond. -/
theorem padded_extend {d : Draft} (sound : d.Sound) (hopen : d.openNodes ≠ []) {kind : Kind}
    (hkind : kind.isTrivia = true) (text : String) :
    Padded d.nodes.size d.offset text.utf8ByteSize d (d.extend kind text) where
  pos := by
    obtain ⟨x, hx⟩ := List.exists_mem_of_ne_nil _ hopen
    exact Nat.lt_of_le_of_lt (Nat.zero_le x) (sound.lt_size_of_open hx)
  le := Nat.le_refl _
  size_eq := size_extend kind text
  core x := by
    show (d.push (.token ⟨kind, text, d.offset⟩)).tree.core? (renumber d.nodes.size x) = _
    rcases Nat.lt_or_ge x d.nodes.size with hlt | hge
    · have hparent := Tree.parent?_eq_bind_core? (t := d.tree) (x := x)
      rw [renumber_of_lt hlt, core?_push_of_lt hlt]
      cases hcore : d.tree.core? x with
      | none => rfl
      | some e =>
        obtain ⟨label, parent⟩ := e
        rw [hcore, Option.bind_some] at hparent
        have hlabel : label.pad d.nodes.size text.utf8ByteSize x = label := by
          cases label with
          | rule r => rfl
          | token tok => simp [Label.pad, hlt, Token.shift]
        cases parent with
        | none => simp [hlabel]
        | some p =>
          have wf := sound.rows (Nat.lt_of_le_of_lt (Nat.zero_le x) hlt)
          have hp := wf.parent_lt hparent
          simp [hlabel, renumber_of_lt (Nat.lt_trans hp hlt)]
    · have hge' : d.tree.size ≤ x + 1 := Nat.le_succ_of_le hge
      rw [renumber_of_le hge, core?_push, if_neg (Nat.ne_of_gt (Nat.lt_succ_of_le hge)),
        Tree.core?_eq_none hge', Tree.core?_eq_none hge]
      rfl
  new := ⟨⟨kind, text, d.offset⟩, token?_push_size, hkind, rfl, rfl⟩
  open_eq := by
    refine (List.map_id' _).symm.trans (List.map_congr_left fun x hx => ?_)
    exact (renumber_of_lt (sound.lt_size_of_open hx)).symm
  offset_eq := rfl

/-- The runs with and without the step correspond. -/
theorem padded_run {before : List Step} {kind : Kind} (hopen : (empty.run before).openNodes ≠ [])
    (hkind : kind.isTrivia = true) (text : String) (rest : List Step) :
    Padded (empty.run before).nodes.size (empty.run before).offset text.utf8ByteSize
      (empty.run (before ++ rest)) (empty.run (before ++ .token kind text :: rest)) := by
  rw [run_append, run_append, run_token hopen]
  exact (padded_extend (sound_run before) hopen hkind text).run rest

end Draft

namespace Tree

variable {before rest : List Step} {kind : Kind} {text : String} {t t' : Tree}

/-- A finished run stays one when a piece of trivia is put in, and the trees
correspond. -/
theorem exists_padded (hopen : (Draft.empty.run before).openNodes ≠ [])
    (hkind : kind.isTrivia = true) (h : ofSteps (before ++ rest) = .ok t) :
    ∃ t', ofSteps (before ++ .token kind text :: rest) = .ok t' ∧
      Padded (Draft.empty.run before).nodes.size (Draft.empty.run before).offset
        text.utf8ByteSize t t' := by
  have pad := Draft.padded_run hopen hkind text rest
  obtain ⟨hclosed, hsize, rfl⟩ := ofSteps_eq_ok_iff.mp h
  have h' : ofSteps (before ++ .token kind text :: rest) =
      .ok (Draft.empty.run (before ++ .token kind text :: rest)).tree := by
    rw [ofSteps_eq_ok_iff]
    refine ⟨pad.openNodes_eq_nil_iff.mp hclosed, ?_, rfl⟩
    rw [pad.size_eq]
    exact Nat.succ_pos _
  exact ⟨_, h', pad.tree (document_of_ofSteps h) (document_of_ofSteps h')⟩

/-- A finished run stays one when a piece of trivia is left out. -/
theorem exists_unpadded (hopen : (Draft.empty.run before).openNodes ≠ [])
    (hkind : kind.isTrivia = true) (h' : ofSteps (before ++ .token kind text :: rest) = .ok t') :
    ∃ t, ofSteps (before ++ rest) = .ok t ∧
      Padded (Draft.empty.run before).nodes.size (Draft.empty.run before).offset
        text.utf8ByteSize t t' := by
  have pad := Draft.padded_run hopen hkind text rest
  obtain ⟨hclosed, hsize, rfl⟩ := ofSteps_eq_ok_iff.mp h'
  have h : ofSteps (before ++ rest) = .ok (Draft.empty.run (before ++ rest)).tree := by
    rw [ofSteps_eq_ok_iff]
    exact ⟨pad.openNodes_eq_nil_iff.mpr hclosed, Nat.lt_of_lt_of_le pad.pos pad.le, rfl⟩
  exact ⟨_, h, pad.tree (document_of_ofSteps h) (document_of_ofSteps h')⟩

end Tree

end SiddhiEditor
