import SiddhiEditor.Proofs.Tiling
import SiddhiEditor.Tree.Draft

/-!
# What a run of steps builds

Every finished run leaves the tree of a document behind, whatever the steps
were and however many of them were refused.

A draft changes in three ways only: a node is opened, the innermost open node is
closed, or a token is added under it.  `Draft.step_related` reduces a statement
about two runs side by side to these three, and `Draft.run_induction` a statement
about one run.

The invariant `Draft.Sound` says that the rows are in pre-order, that the open
nodes are interior nodes with the innermost first, and that an open node covers
every row behind it.  The last is the point.  A new row hangs under an open node
or, when none is open, under the root, and either covers all rows up to the new
one.

A row keeps the list of its children and its own place among the children of its
parent.  A new row is put into the list of the row that it hangs under, and nothing
else changes (`Tree.core?` is what no step changes).  `Draft.Sound.children_push_eq`
and `Draft.Sound.getElem?_children_push` say that lists and places stay what the
parents say.
-/

namespace SiddhiEditor

namespace Draft

variable {d : Draft}

/-! ## The three changes -/

/-- The draft with a token more. -/
def extend (d : Draft) (kind : Kind) (text : String) : Draft :=
  { d.push (.token ⟨kind, text, d.offset⟩) with offset := d.offset + text.utf8ByteSize }

/-- The draft with the innermost open node closed. -/
def popNode (d : Draft) : Draft :=
  { d with
    openNodes := d.openNodes.tail
    rootClosed := d.rootClosed || d.openNodes.tail.isEmpty }

/-- A token is refused exactly if no node is open, and then the draft is left as it
was. -/
theorem addToken_eq (kind : Kind) (text : String) :
    d.addToken kind text =
      if d.openNodes = [] then (d, some (.tokenOutside text d.offset))
      else (d.extend kind text, none) := by
  rw [addToken]
  cases d.openNodes with
  | nil => rfl
  | cons x rest => rfl

/-- So is the end of a node. -/
theorem closeNode_eq :
    d.closeNode = if d.openNodes = [] then (d, some .nothingOpen) else (d.popNode, none) := by
  rw [closeNode, popNode]
  cases hopen : d.openNodes with
  | nil => rfl
  | cons x rest => rfl

/-- A relation between drafts that the three changes keep, made on both sides, is
kept by every step.  Both sides refuse the same steps when they agree on whether
a node is open. -/
theorem step_related {R : Draft → Draft → Prop} {d' : Draft}
    (hnone : ∀ d d', R d d' → (d.openNodes = [] ↔ d'.openNodes = []))
    (hopen : ∀ d d' r, R d d' → R (d.openNode r) (d'.openNode r))
    (hclose : ∀ d d', d.openNodes ≠ [] → R d d' → R d.popNode d'.popNode)
    (htoken : ∀ d d' kind text, d.openNodes ≠ [] → R d d' →
      R (d.extend kind text) (d'.extend kind text))
    (h : R d d') (s : Step) : R (d.step s).1 (d'.step s).1 := by
  have htokens : ∀ (toks : List Token) (d d' : Draft), R d d' →
      R (d.addTokens toks).1 (d'.addTokens toks).1 := by
    intro toks
    induction toks with
    | nil => exact fun d d' h => h
    | cons tok rest ih =>
      intro d d' h
      rw [addTokens, addTokens, addToken_eq, addToken_eq]
      by_cases hd : d.openNodes = []
      · rw [if_pos hd, if_pos ((hnone d d' h).mp hd)]
        exact h
      · rw [if_neg hd, if_neg (mt (hnone d d' h).mpr hd)]
        exact ih _ _ (htoken d d' _ _ hd h)
  cases s with
  | openNode r => exact hopen d d' r h
  | closeNode =>
    rw [step, step, closeNode_eq, closeNode_eq]
    by_cases hd : d.openNodes = []
    · rw [if_pos hd, if_pos ((hnone d d' h).mp hd)]
      exact h
    · rw [if_neg hd, if_neg (mt (hnone d d' h).mpr hd)]
      exact hclose d d' hd h
  | token kind text =>
    rw [step, step, addToken_eq, addToken_eq]
    by_cases hd : d.openNodes = []
    · rw [if_pos hd, if_pos ((hnone d d' h).mp hd)]
      exact h
    · rw [if_neg hd, if_neg (mt (hnone d d' h).mpr hd)]
      exact htoken d d' kind text hd h
  | text text => exact htokens (Token.scan text) d d' h

/-- All tokens go in when a node is open. -/
theorem addTokens_of_open (hopen : d.openNodes ≠ []) (toks : List Token) :
    ∃ d', d.addTokens toks = (d', none) ∧ d'.openNodes = d.openNodes := by
  induction toks generalizing d with
  | nil => exact ⟨d, rfl, rfl⟩
  | cons tok toks ih =>
    rw [addTokens, addToken_eq, if_neg hopen]
    exact @ih (d.extend tok.kind tok.text) hopen

/-- The first token is refused when no node is open. -/
theorem addTokens_of_closed (hopen : d.openNodes = []) (toks : List Token) :
    d.addTokens toks = (d, toks.head?.map fun tok => .tokenOutside tok.text d.offset) := by
  cases toks with
  | nil => rfl
  | cons tok toks => rw [addTokens, addToken_eq, if_pos hopen, List.head?_cons, Option.map_some]

theorem run_cons (s : Step) (rest : List Step) : d.run (s :: rest) = (d.step s).1.run rest := rfl

/-- A run goes on where the one before has ended. -/
theorem run_append (first rest : List Step) : d.run (first ++ rest) = (d.run first).run rest :=
  List.foldl_append

/-- The step that adds a token, when a node is open. -/
theorem run_token (hopen : d.openNodes ≠ []) (kind : Kind) (text : String) (rest : List Step) :
    d.run (.token kind text :: rest) = (d.extend kind text).run rest := by
  rw [run_cons, step, addToken_eq, if_neg hopen]

/-- What the three changes keep, a run keeps.  A property is a relation of a draft to
itself. -/
theorem run_induction {P : Draft → Prop} (hopen : ∀ d r, P d → P (d.openNode r))
    (hclose : ∀ d, d.openNodes ≠ [] → P d → P d.popNode)
    (htoken : ∀ d kind text, d.openNodes ≠ [] → P d → P (d.extend kind text))
    (steps : List Step) (hd : P d) : P (d.run steps) := by
  induction steps generalizing d with
  | nil => exact hd
  | cons s rest ih =>
    refine ih (step_related (R := fun d d' => d' = d ∧ P d) ?_ ?_ ?_ ?_ ⟨rfl, hd⟩ s).2
    · intro d d' h
      rw [h.1]
    · intro d d' r h
      exact ⟨by rw [h.1], hopen d r h.2⟩
    · intro d d' hnone h
      exact ⟨by rw [h.1], hclose d hnone h.2⟩
    · intro d d' kind text hnone h
      exact ⟨by rw [h.1], htoken d kind text hnone h.2⟩

/-! ## The rows as a tree -/

/-- The rows so far, as a tree. -/
def tree (d : Draft) : Tree := ⟨d.nodes, d.leaves⟩

/-- A draft is finished exactly if it has a root and no node is open. -/
theorem finish_eq_ok_iff {t : Tree} :
    d.finish = .ok t ↔ d.openNodes = [] ∧ 0 < d.nodes.size ∧ t = d.tree := by
  rw [finish]
  cases d.openNodes with
  | nil =>
    by_cases hempty : d.nodes.isEmpty = true
    · have hnil : d.nodes = #[] := by simpa using hempty
      simp [hnil]
    · have hsize : 0 < d.nodes.size := by simpa [Array.size_pos_iff] using hempty
      simp [hempty, hsize, tree, eq_comm]
  | cons x rest => simp

/-- The leaves of a draft are listed in the order of the table. -/
theorem leaves_tree (d : Draft) :
    d.tree.leaves.toList = (List.range d.tree.size).filter d.tree.isLeaf := by
  simp only [tree, leaves, Tree.size, Array.toList_filter, Array.toList_range]
  refine List.filter_congr fun x _ => ?_
  cases h : d.nodes[x]? <;> simp [Tree.isLeaf, Tree.token?, h]

/-- The tokens of a draft are read row by row. -/
theorem tokens_tree (d : Draft) :
    d.tree.tokens = (List.range d.tree.size).filterMap d.tree.token? := by
  rw [Tree.tokens, leaves_tree, List.filterMap_filter]
  refine List.filterMap_congr fun x _ => ?_
  cases h : d.tree.token? x <;> simp [Tree.isLeaf, h]

end Draft

namespace Tree

/-- What a row carries and what it hangs under.  This never changes, while the
children of a row grow with the rows behind it. -/
def core? (t : Tree) (x : NodeId) : Option (Label × Option NodeId) :=
  t.nodes[x]?.map fun n => (n.label, n.parent)

variable {t : Tree} {x : Nat}

theorem core?_eq_none (h : t.size ≤ x) : t.core? x = none := by
  rw [core?, Array.getElem?_eq_none h]
  rfl

/-- Rule, token and parent of a row are read from its core. -/
theorem rule?_eq_bind_core? : t.rule? x = (t.core? x).bind (·.1.rule?) := by
  rw [rule?, core?, Option.bind_map]
  rfl

theorem token?_eq_bind_core? : t.token? x = (t.core? x).bind (·.1.token?) := by
  rw [token?, core?, Option.bind_map]
  rfl

theorem parent?_eq_bind_core? : t.parent? x = (t.core? x).bind (·.2) := by
  rw [parent?, core?, Option.bind_map]
  rfl

end Tree

namespace Draft

variable {d : Draft}

section Push

variable {label : Label} {x y : Nat}

theorem size_adopted : d.adopted.size = d.nodes.size := by
  rw [adopted]
  cases d.anchor with
  | none => rfl
  | some p => exact Array.size_modify

/-- The parent of the next row gets a child, and the other rows stay. -/
theorem getElem?_adopted :
    d.adopted[x]? = d.nodes[x]?.map fun n =>
      if d.anchor = some x then { n with children := n.children.push d.nodes.size } else n := by
  rw [adopted]
  cases d.anchor with
  | none => simp
  | some p =>
    rw [Array.getElem?_modify]
    by_cases hp : p = x
    · simp [hp]
    · simp [hp]

theorem getElem?_push :
    (d.push label).nodes[x]? =
      if x = d.nodes.size then some ⟨label, d.anchor, d.nextIndex, #[]⟩ else d.adopted[x]? := by
  rw [push, Array.getElem?_push, size_adopted]

/-- A new row changes the core of no row before it. -/
theorem core?_push :
    (d.push label).tree.core? x =
      if x = d.nodes.size then some (label, d.anchor) else d.tree.core? x := by
  rw [Tree.core?, tree, getElem?_push]
  split
  · rfl
  · rw [getElem?_adopted, Option.map_map, Tree.core?, tree]
    congr 1
    funext n
    simp only [Function.comp_apply]
    split <;> rfl

theorem size_push : (d.push label).nodes.size = d.nodes.size + 1 := by
  rw [push, Array.size_push, size_adopted]

theorem size_tree_push : (d.push label).tree.size = d.tree.size + 1 := size_push

theorem size_openNode (r : Rule) : (d.openNode r).nodes.size = d.nodes.size + 1 := size_push

theorem size_extend (kind : Kind) (text : String) :
    (d.extend kind text).nodes.size = d.nodes.size + 1 := size_push

theorem core?_push_of_lt (h : x < d.nodes.size) :
    (d.push label).tree.core? x = d.tree.core? x := by
  rw [core?_push, if_neg (Nat.ne_of_lt h)]

theorem core?_push_size : (d.push label).tree.core? d.nodes.size = some (label, d.anchor) := by
  rw [core?_push, if_pos rfl]

theorem parent?_push_of_lt (h : x < d.nodes.size) :
    (d.push label).tree.parent? x = d.tree.parent? x := by
  rw [Tree.parent?_eq_bind_core?, core?_push_of_lt h, ← Tree.parent?_eq_bind_core?]

theorem rule?_push_of_lt (h : x < d.nodes.size) :
    (d.push label).tree.rule? x = d.tree.rule? x := by
  rw [Tree.rule?_eq_bind_core?, core?_push_of_lt h, ← Tree.rule?_eq_bind_core?]

theorem token?_push_of_lt (h : x < d.nodes.size) :
    (d.push label).tree.token? x = d.tree.token? x := by
  rw [Tree.token?_eq_bind_core?, core?_push_of_lt h, ← Tree.token?_eq_bind_core?]

theorem parent?_push_size : (d.push label).tree.parent? d.nodes.size = d.anchor := by
  rw [Tree.parent?_eq_bind_core?, core?_push_size]
  rfl

theorem rule?_push_size : (d.push label).tree.rule? d.nodes.size = label.rule? := by
  rw [Tree.rule?_eq_bind_core?, core?_push_size]
  rfl

theorem token?_push_size : (d.push label).tree.token? d.nodes.size = label.token? := by
  rw [Tree.token?_eq_bind_core?, core?_push_size]
  rfl

/-- The new row is the last child of its parent, and has no children itself. -/
theorem children_push (hanchor : ∀ a, d.anchor = some a → a < d.nodes.size) :
    (d.push label).tree.children x =
      d.tree.children x ++ if d.anchor = some x then [d.nodes.size] else [] := by
  rw [Tree.children, Tree.children, tree, tree, getElem?_push, getElem?_adopted]
  by_cases hx : x = d.nodes.size
  · subst hx
    have hne : d.anchor ≠ some d.nodes.size := fun ha => Nat.lt_irrefl _ (hanchor _ ha)
    simp [hne]
  · rw [if_neg hx]
    cases hrow : d.nodes[x]? with
    | none =>
      have hne : d.anchor ≠ some x := by
        intro ha
        exact absurd (hanchor x ha) (Nat.not_lt.mpr (Array.getElem?_eq_none_iff.mp hrow))
      simp [hne]
    | some n =>
      by_cases ha : d.anchor = some x
      · simp [ha]
      · simp [ha]

/-- Rows keep their place among the children of their parent. -/
theorem index_push_of_lt (h : x < d.nodes.size) :
    (d.push label).tree.index x = d.tree.index x := by
  rw [Tree.index, Tree.index, tree, tree, getElem?_push, if_neg (Nat.ne_of_lt h), getElem?_adopted,
    Option.map_map]
  congr 2
  funext n
  simp only [Function.comp_apply]
  split <;> rfl

/-- The place of the new row is behind the other children of its parent. -/
theorem index_push_size {a : Nat} (ha : d.anchor = some a) :
    (d.push label).tree.index d.nodes.size = (d.tree.children a).length := by
  rw [Tree.index, tree, getElem?_push, if_pos rfl, Tree.children, tree]
  simp only [Option.map_some, Option.getD_some, nextIndex, ha]
  cases d.nodes[a]? with
  | none => rfl
  | some n => rfl

/-- The rows that were there cover what they covered. -/
theorem covers_push (hy : y < d.nodes.size) (h : d.tree.Covers x y) :
    (d.push label).tree.Covers x y := by
  refine ⟨h.1, fun i hi hi' => ?_⟩
  rw [parent?_push_of_lt (Nat.lt_of_le_of_lt hi' hy)]
  exact h.2 i hi hi'

/-- A row covers the new one if it covers all others and the new one hangs at or
behind it. -/
theorem covers_push_size {a : Nat} (hx : x < d.nodes.size)
    (hcov : ∀ y, x ≤ y → y < d.nodes.size → d.tree.Covers x y)
    (ha : d.anchor = some a) (hxa : x ≤ a) :
    (d.push label).tree.Covers x d.nodes.size := by
  refine ⟨Nat.le_of_lt hx, fun i hi hi' => ?_⟩
  rcases Nat.eq_or_lt_of_le hi' with rfl | hlt
  · exact ⟨a, by rw [parent?_push_size, ha], hxa⟩
  · rw [parent?_push_of_lt hlt]
    exact (hcov i (Nat.le_of_lt hi) hlt).2 i hi (Nat.le_refl i)

/-- The token of a new leaf comes last. -/
theorem tokens_push : (d.push label).tree.tokens = d.tree.tokens ++ label.token?.toList := by
  rw [tokens_tree, tokens_tree, size_tree_push, List.range_succ, List.filterMap_append]
  congr 1
  · refine List.filterMap_congr fun x hx => ?_
    exact token?_push_of_lt (List.mem_range.mp hx)
  · have hnew := @token?_push_size d label
    cases h : label.token? <;> simp_all [Tree.size, tree]

end Push

/-- A run leaves the rows that were there as they are, but for their children. -/
theorem cores_run (d : Draft) (steps : List Step) :
    d.nodes.size ≤ (d.run steps).nodes.size ∧
      ∀ x < d.nodes.size, (d.run steps).tree.core? x = d.tree.core? x := by
  have hpush : ∀ (d' : Draft) (label : Label),
      (d.nodes.size ≤ d'.nodes.size ∧ ∀ x < d.nodes.size, d'.tree.core? x = d.tree.core? x) →
      d.nodes.size ≤ (d'.push label).nodes.size ∧
        ∀ x < d.nodes.size, (d'.push label).tree.core? x = d.tree.core? x := by
    intro d' label h
    obtain ⟨hle, hrows⟩ := h
    refine ⟨?_, fun x hx => ?_⟩
    · rw [size_push]
      exact Nat.le_succ_of_le hle
    · rw [core?_push_of_lt (Nat.lt_of_lt_of_le hx hle), hrows x hx]
  exact run_induction (fun d' r h => hpush d' (.rule r) h) (fun _ _ h => h)
    (fun d' kind text _ h => hpush d' (.token ⟨kind, text, d'.offset⟩) h) steps
    ⟨Nat.le_refl _, fun _ _ => rfl⟩

/-! ## The invariant -/

/-- The rows are in pre-order, new rows may hang under any open node, and the
tokens lie end to end up to the offset. -/
structure Sound (d : Draft) : Prop where
  /-- The rows, once there are any, are those of a well-formed tree. -/
  rows : 0 < d.nodes.size → d.tree.WellFormed
  /-- The open nodes are interior nodes. -/
  open_rule : ∀ x ∈ d.openNodes, (d.tree.rule? x).isSome = true
  /-- An open node covers every row behind it. -/
  open_covers : ∀ x ∈ d.openNodes, ∀ y : Nat, x ≤ y → y < d.nodes.size → d.tree.Covers x y
  /-- The innermost open node comes first. -/
  innermost : d.openNodes.Pairwise (· > ·)
  /-- The tokens lie end to end. -/
  tiled : Tiles 0 d.tree.tokens d.offset

/-- The empty draft is sound. -/
theorem sound_empty : Sound empty where
  rows h := absurd h (Nat.lt_irrefl 0)
  open_rule x hx := by cases hx
  open_covers x hx := by cases hx
  innermost := List.Pairwise.nil
  tiled := rfl

namespace Sound

variable (sound : d.Sound)

include sound

theorem lt_size_of_open {x : Nat} (hx : x ∈ d.openNodes) : x < d.nodes.size := by
  obtain ⟨r, hr⟩ := Option.isSome_iff_exists.mp (sound.open_rule x hx)
  exact Tree.lt_size_of_rule? hr

/-- The first row has nothing to hang under. -/
theorem anchor_eq_none (h : d.nodes.size = 0) : d.anchor = none := by
  rw [anchor]
  cases hopen : d.openNodes with
  | nil => simp [Array.eq_empty_of_size_eq_zero h]
  | cons x rest =>
    have hlt := sound.lt_size_of_open (x := x) (by simp [hopen])
    omega

/-- Every other row hangs under an interior node that covers all rows.  All open
nodes are at or before it. -/
theorem exists_anchor (h : 0 < d.nodes.size) :
    ∃ a : Nat, d.anchor = some a ∧ a < d.nodes.size ∧ (d.tree.rule? a).isSome = true ∧
      (∀ y : Nat, a ≤ y → y < d.nodes.size → d.tree.Covers a y) ∧
      ∀ x ∈ d.openNodes, x ≤ a := by
  cases hopen : d.openNodes with
  | nil =>
    refine ⟨Tree.root, ?_, h, (sound.rows h).rule?_root, fun y _ hy => ?_, fun x hx => ?_⟩
    · have hne : d.nodes ≠ #[] := by
        rintro heq
        simp [heq] at h
      simp [anchor, hopen, hne]
    · exact (sound.rows h).root_covers hy
    · cases hx
  | cons a rest =>
    have hmem : a ∈ d.openNodes := by simp [hopen]
    refine ⟨a, by simp [anchor, hopen], sound.lt_size_of_open hmem, sound.open_rule a hmem,
      sound.open_covers a hmem, fun x hx => ?_⟩
    have hfirst := sound.innermost
    rw [hopen, List.pairwise_cons] at hfirst
    rcases List.mem_cons.mp hx with rfl | hx
    · exact Nat.le_refl _
    · exact Nat.le_of_lt (hfirst.1 x hx)

/-- A new row hangs under a row that is there. -/
theorem anchor_lt (a : Nat) (ha : d.anchor = some a) : a < d.nodes.size := by
  rcases Nat.eq_zero_or_pos d.nodes.size with h0 | hpos
  · rw [sound.anchor_eq_none h0] at ha
    cases ha
  · obtain ⟨b, hb, hlt, -⟩ := sound.exists_anchor hpos
    rw [hb] at ha
    cases ha
    exact hlt

/-- The lists of children say what the parents say, also with a new row. -/
theorem children_push_eq {label : Label} (x : Nat) :
    (d.push label).tree.children x =
      (List.range (d.push label).tree.size).filter fun y =>
        (d.push label).tree.parent? y == some x := by
  have hold : d.tree.children x =
      (List.range d.tree.size).filter fun y => (d.push label).tree.parent? y == some x := by
    rcases Nat.eq_zero_or_pos d.nodes.size with h0 | hpos
    · simp [Tree.children, Tree.size, tree, Array.eq_empty_of_size_eq_zero h0]
    · rw [(sound.rows hpos).children_eq]
      refine List.filter_congr fun y hy => ?_
      rw [parent?_push_of_lt (List.mem_range.mp hy)]
  have hnew : [d.nodes.size].filter (fun y => (d.push label).tree.parent? y == some x) =
      if d.anchor = some x then [d.nodes.size] else [] := by
    rw [List.filter_singleton, parent?_push_size]
    simp
  rw [children_push sound.anchor_lt, size_tree_push, List.range_succ, List.filter_append, ← hold]
  exact congrArg _ hnew.symm

/-- Every row stands at its place, also with a new row. -/
theorem getElem?_children_push {label : Label} {x p : Nat}
    (h : (d.push label).tree.parent? x = some p) :
    ((d.push label).tree.children p)[(d.push label).tree.index x]? = some x := by
  have hx := Tree.lt_size_of_parent? h
  rw [size_tree_push] at hx
  rw [children_push sound.anchor_lt]
  rcases Nat.lt_or_ge x d.nodes.size with hlt | hge
  · have hpos : 0 < d.nodes.size := Nat.lt_of_le_of_lt (Nat.zero_le x) hlt
    rw [parent?_push_of_lt hlt] at h
    have hget := (sound.rows hpos).getElem?_children h
    obtain ⟨hindex, -⟩ := List.getElem?_eq_some_iff.mp hget
    rw [index_push_of_lt hlt, List.getElem?_append_left hindex, hget]
  · obtain rfl : x = d.nodes.size := Nat.le_antisymm (Nat.le_of_lt_succ hx) hge
    rw [parent?_push_size] at h
    rw [index_push_size h, if_pos h, List.getElem?_concat_length]

/-- A new row that may stand where it stands leaves the rows in pre-order. -/
theorem wellFormed_push {label : Label} (h : d.nodes.size = 0 → ∃ r, label = .rule r) :
    (d.push label).tree.WellFormed where
  rule?_root := by
    rcases Nat.eq_zero_or_pos d.nodes.size with h0 | hpos
    · obtain ⟨r, rfl⟩ := h h0
      rw [Tree.root, ← h0, rule?_push_size]
      rfl
    · rw [rule?_push_of_lt (show Tree.root < d.nodes.size from hpos)]
      exact (sound.rows hpos).rule?_root
  parent?_root := by
    rcases Nat.eq_zero_or_pos d.nodes.size with h0 | hpos
    · rw [Tree.root, ← h0, parent?_push_size, sound.anchor_eq_none h0]
    · rw [parent?_push_of_lt (show Tree.root < d.nodes.size from hpos)]
      exact (sound.rows hpos).parent?_root
  parent_row x hx0 hx := by
    rw [size_tree_push] at hx
    have hpos : 0 < d.nodes.size := Nat.lt_of_lt_of_le hx0 (Nat.le_of_lt_succ hx)
    rcases Nat.lt_or_ge x d.nodes.size with hlt | hge
    · obtain ⟨p, hp, hpx, hrule, hcov⟩ := (sound.rows hpos).parent_row x hx0 hlt
      refine ⟨p, by rw [parent?_push_of_lt hlt, hp], hpx, ?_, covers_push hlt hcov⟩
      rw [rule?_push_of_lt (Nat.lt_trans hpx hlt)]
      exact hrule
    · obtain rfl : x = d.nodes.size := Nat.le_antisymm (Nat.le_of_lt_succ hx) hge
      obtain ⟨a, ha, hlt, hrule, hcov, -⟩ := sound.exists_anchor hpos
      refine ⟨a, by rw [parent?_push_size, ha], hlt, ?_,
        covers_push_size hlt hcov ha (Nat.le_refl a)⟩
      rw [rule?_push_of_lt hlt]
      exact hrule
  children_eq := sound.children_push_eq
  getElem?_children := sound.getElem?_children_push
  leaves_eq := leaves_tree _

/-- The open nodes cover the new row, too. -/
theorem open_covers_push {label : Label} {x y : Nat} (hx : x ∈ d.openNodes) (hxy : x ≤ y)
    (hy : y < d.nodes.size + 1) : (d.push label).tree.Covers x y := by
  have hlt := sound.lt_size_of_open hx
  rcases Nat.lt_or_ge y d.nodes.size with hold | hge
  · exact covers_push hold (sound.open_covers x hx y hxy hold)
  · obtain rfl : y = d.nodes.size := Nat.le_antisymm (Nat.le_of_lt_succ hy) hge
    obtain ⟨a, ha, -, -, -, hle⟩ := sound.exists_anchor (Nat.lt_of_le_of_lt (Nat.zero_le x) hlt)
    exact covers_push_size hlt (sound.open_covers x hx) ha (hle x hx)

theorem openNode (r : Rule) : (d.openNode r).Sound where
  rows _ := sound.wellFormed_push fun _ => ⟨r, rfl⟩
  open_rule x hx := by
    change ((d.push (.rule r)).tree.rule? x).isSome = true
    rcases List.mem_cons.mp hx with rfl | hx
    · rw [rule?_push_size]
      rfl
    · rw [rule?_push_of_lt (sound.lt_size_of_open hx)]
      exact sound.open_rule x hx
  open_covers x hx y hxy hy := by
    change (d.push (.rule r)).tree.Covers x y
    have hy' : y < d.nodes.size + 1 := by
      rw [← size_openNode r]
      exact hy
    rcases List.mem_cons.mp hx with rfl | hx
    · obtain rfl : y = d.nodes.size := Nat.le_antisymm (Nat.le_of_lt_succ hy') hxy
      exact Tree.Covers.refl _ _
    · exact sound.open_covers_push hx hxy hy'
  innermost := List.Pairwise.cons (fun _ hx => sound.lt_size_of_open hx) sound.innermost
  tiled := by
    change Tiles 0 (d.push (.rule r)).tree.tokens d.offset
    rw [tokens_push]
    simpa [Label.token?] using sound.tiled

theorem popNode : d.popNode.Sound where
  rows := sound.rows
  open_rule x hx := sound.open_rule x (List.mem_of_mem_tail hx)
  open_covers x hx := sound.open_covers x (List.mem_of_mem_tail hx)
  innermost := sound.innermost.sublist (List.tail_sublist _)
  tiled := sound.tiled

theorem extend (kind : Kind) (text : String) (hopen : d.openNodes ≠ []) :
    (d.extend kind text).Sound where
  rows _ := by
    refine sound.wellFormed_push fun h0 => ?_
    obtain ⟨x, hx⟩ := List.exists_mem_of_ne_nil _ hopen
    have hlt := sound.lt_size_of_open hx
    omega
  open_rule x hx := by
    change ((d.push (.token ⟨kind, text, d.offset⟩)).tree.rule? x).isSome = true
    rw [rule?_push_of_lt (sound.lt_size_of_open hx)]
    exact sound.open_rule x hx
  open_covers x hx y hxy hy := by
    refine sound.open_covers_push hx hxy ?_
    rw [← size_extend kind text]
    exact hy
  innermost := sound.innermost
  tiled := by
    change Tiles 0 (d.push (.token ⟨kind, text, d.offset⟩)).tree.tokens
      (d.offset + text.utf8ByteSize)
    rw [tokens_push]
    exact Tiles.concat sound.tiled

end Sound

/-- Every run is sound, refused steps included. -/
theorem sound_run (steps : List Step) : (empty.run steps).Sound :=
  run_induction (fun _ r hd => hd.openNode r) (fun _ _ hd => hd.popNode)
    (fun _ kind text hopen hd => hd.extend kind text hopen) steps sound_empty

end Draft

/-! ## Finished trees -/

namespace Tree

variable {steps : List Step} {t : Tree}

/-- Steps give a tree exactly if all nodes are closed and there is one. -/
theorem ofSteps_eq_ok_iff :
    ofSteps steps = .ok t ↔
      (Draft.empty.run steps).openNodes = [] ∧ 0 < (Draft.empty.run steps).nodes.size ∧
        t = (Draft.empty.run steps).tree :=
  Draft.finish_eq_ok_iff

/-- The text of a finished tree ends at the offset of the run. -/
theorem length_of_ofSteps (h : ofSteps steps = .ok t) :
    t.source.utf8ByteSize = (Draft.empty.run steps).offset := by
  obtain ⟨-, hsize, rfl⟩ := ofSteps_eq_ok_iff.mp h
  have sound := Draft.sound_run steps
  have hstop := sound.tiled.stop_eq
  rw [Nat.zero_add, ← (sound.rows hsize).source_eq] at hstop
  exact hstop.symm

/-- A finished tree is the tree of a document. -/
theorem document_of_ofSteps (h : ofSteps steps = .ok t) : t.Document := by
  have hlength := length_of_ofSteps h
  obtain ⟨-, hsize, rfl⟩ := ofSteps_eq_ok_iff.mp h
  have sound := Draft.sound_run steps
  refine ⟨sound.rows hsize, ?_⟩
  rw [hlength]
  exact sound.tiled

section Added

variable {before rest : List Step} {kind : Kind} {text : String}
  (hopen : (Draft.empty.run before).openNodes ≠ [])
  (h : ofSteps (before ++ .token kind text :: rest) = .ok t)

include hopen h

/-- The row of a token that a step has added. -/
theorem core?_of_added :
    t.core? (Draft.empty.run before).nodes.size =
      some (.token ⟨kind, text, (Draft.empty.run before).offset⟩,
        (Draft.empty.run before).anchor) := by
  obtain ⟨-, -, rfl⟩ := ofSteps_eq_ok_iff.mp h
  rw [Draft.run_append, Draft.run_token hopen]
  have hlt : (Draft.empty.run before).nodes.size <
      ((Draft.empty.run before).extend kind text).nodes.size := by
    rw [Draft.size_extend]
    exact Nat.lt_succ_self _
  exact ((Draft.cores_run _ rest).2 _ hlt).trans Draft.core?_push_size

/-- A token that was added is found in its row. -/
theorem token?_of_added :
    t.token? (Draft.empty.run before).nodes.size =
      some ⟨kind, text, (Draft.empty.run before).offset⟩ := by
  rw [token?_eq_bind_core?, core?_of_added hopen h]
  rfl

/-- An added token hangs under the innermost open node. -/
theorem parent?_of_added :
    t.parent? (Draft.empty.run before).nodes.size = (Draft.empty.run before).openNodes.head? := by
  rw [parent?_eq_bind_core?, core?_of_added hopen h]
  cases hnodes : (Draft.empty.run before).openNodes with
  | nil => exact absurd hnodes hopen
  | cons x rest => simp [Draft.anchor, hnodes]

end Added

/-- What the navigation of a tree relies on. -/
structure Shape (t : Tree) : Prop where
  /-- The root is an interior node. -/
  root_rule : ∃ r, t.rule? root = some r
  /-- The root has no parent. -/
  root_parent : t.parent? root = none
  /-- Every other node has an interior node before it as its parent, and stands
  at its place among the children. -/
  parent : ∀ x : Nat, 0 < x → x < t.size →
    ∃ p : Nat, t.parent? x = some p ∧ p < x ∧ (∃ r, t.rule? p = some r) ∧
      (t.children p)[t.index x]? = some x
  /-- Children come in order. -/
  children_increasing : ∀ x, (t.children x).Pairwise (· < ·)
  /-- The children of a node are the nodes with this parent. -/
  children_iff : ∀ x y, y ∈ t.children x ↔ t.parent? y = some x
  /-- Every node but the root is the child of exactly one node. -/
  only_parent : ∀ x : Nat, 0 < x → x < t.size → ∃! p, x ∈ t.children p
  /-- The two directions among siblings agree. -/
  siblings : ∀ x y, t.nextSibling? x = some y ↔ t.prevSibling? y = some x
  /-- The numbers fall on the way up. -/
  ancestors_decreasing : ∀ x, (x :: t.ancestors x).Pairwise (· > ·)
  /-- Every way up ends at the root. -/
  ancestors_last : ∀ x : Nat, 0 < x → x < t.size → (t.ancestors x).getLast? = some root
  /-- Leaves have no children. -/
  leaf_children : ∀ x, t.isLeaf x = true → t.children x = []
  /-- The depth-first walk visits the rows in order. -/
  walk : t.walkAll = List.range t.size
  /-- The leaves are the rows with a token, in order. -/
  leaves : t.leaves.toList = (List.range t.size).filter t.isLeaf

/-- A well-formed table has the shape of a tree. -/
theorem WellFormed.shape (wf : t.WellFormed) : t.Shape where
  root_rule := Option.isSome_iff_exists.mp wf.rule?_root
  root_parent := wf.parent?_root
  parent x h0 hx := by
    obtain ⟨p, hp, hlt, hrule, -⟩ := wf.parent_row x h0 hx
    exact ⟨p, hp, hlt, Option.isSome_iff_exists.mp hrule, wf.getElem?_children hp⟩
  children_increasing _ := wf.children_increasing
  children_iff _ _ := wf.mem_children
  only_parent x h0 hx := by
    obtain ⟨p, hp⟩ := wf.exists_parent h0 hx
    refine ⟨p, wf.mem_children.mpr hp, fun q hq => ?_⟩
    have hq := wf.mem_children.mp hq
    rw [hp] at hq
    exact (Option.some.inj hq).symm
  siblings _ _ := wf.nextSibling?_eq_some_iff.trans wf.prevSibling?_eq_some_iff.symm
  ancestors_decreasing _ := wf.ancestors_decreasing
  ancestors_last _ := wf.getLast?_ancestors
  leaf_children _ := wf.children_of_isLeaf
  walk := wf.walkAll_eq
  leaves := wf.leaves_eq

/-- Whatever steps were made, a finished tree has its rows in pre-order, and its
leaves tile the text from offset 0 to the offset of the run. -/
theorem ofSteps_preorder (h : ofSteps steps = .ok t) :
    t.Shape ∧ Tiles 0 t.tokens (Draft.empty.run steps).offset ∧
      t.source = String.join (t.tokens.map (·.text)) := by
  have wf := (document_of_ofSteps h).toWellFormed
  obtain ⟨-, -, rfl⟩ := ofSteps_eq_ok_iff.mp h
  exact ⟨wf.shape, (Draft.sound_run steps).tiled, wf.source_eq⟩

/-- Refused steps before and behind the root, and a node that is opened when the
root is closed. -/
def lateNode : List Step :=
  [.closeNode, .text "x", .openNode .siddhiApp, .text "a b", .closeNode, .token .comma ",",
    .openNode .query, .token .identifier "c", .closeNode]

theorem ofSteps_preorder_lateNode :
    ∃ t, ofSteps lateNode = .ok t ∧ t.parent? 4 = some root ∧ t.index 4 = 3 ∧
      t.children root = [1, 2, 3, 4] ∧ t.Shape ∧
      Tiles 0 t.tokens (Draft.empty.run lateNode).offset ∧
      t.source = String.join (t.tokens.map (·.text)) :=
  ⟨_, rfl, rfl, rfl, rfl, ofSteps_preorder rfl⟩

end Tree

end SiddhiEditor
