import SiddhiEditor.Proofs.DocumentEnd
import SiddhiEditor.Proofs.Matching

/-!
# Typing a word narrows the suggestions

A document ends with a blank, and a word is typed behind it.  The suggestions at
the end of the word are those at the end of the blank that match the word, in the
same order.

The word is compared with the blank in two steps.  First a piece of trivia with
the text of the word is put in, which is a change that leaves all suggestions as
they are.  Then this piece is made a word.  `Recast m` relates the two trees, which
differ in the kind of the leaf `m` and in nothing else.  The leaf becomes visible,
and a visible leaf matters to three searches.

* The leaf before a node: no node behind the word is asked about.
* The first visible leaf of a stream name or an attribute name: the word is in
  neither.
* The first visible leaf of the output around the leaf before: it is at or before
  that leaf, and so before the word.

What has been typed is then the whole word.  Whether a suggestion matches it
depends on the label only, so narrowing the list and keeping the first suggestion
of each label may change places (`firstsBy_filter`).
-/

namespace SiddhiEditor

/-! ## Narrowing a list -/

/-- A condition on the keys may be put before or behind keeping the first of each key.
What has the key of a member that is left out is left out too. -/
theorem firstsBy_filter {α β : Type} [DecidableEq β] {key : α → β} {p : α → Bool}
    (hp : ∀ x y, key x = key y → p x = p y) (xs : List α) :
    firstsBy key (xs.filter p) = (firstsBy key xs).filter p := by
  induction xs with
  | nil => rfl
  | cons x xs ih =>
    cases hx : p x with
    | true =>
      rw [List.filter_cons_of_pos hx, firstsBy, firstsBy, List.filter_cons_of_pos hx, ih,
        List.filter_filter, List.filter_filter]
      simp only [Bool.and_comm]
    | false =>
      rw [List.filter_cons_of_neg (by simp [hx]), firstsBy, List.filter_cons_of_neg (by simp [hx]),
        ih, List.filter_filter]
      refine List.filter_congr fun y _ => ?_
      cases hy : p y with
      | false => rfl
      | true =>
        have hne : key y ≠ key x := by
          intro heq
          rw [hp y x heq, hx] at hy
          cases hy
        simp [hne]

/-! ## A leaf of another kind -/

/-- The trees differ in the kind of the leaf `m` and in nothing else. -/
structure Tree.Recast (m : Nat) (t t' : Tree) : Prop where
  /-- The rows of one tree are in pre-order. -/
  wf : t.WellFormed
  /-- The rows of the other tree are in pre-order. -/
  wf' : t'.WellFormed
  /-- The row `m` is a leaf. -/
  leaf : t.isLeaf m = true
  /-- There are as many rows. -/
  size_eq : t'.size = t.size
  /-- Every row has its parent. -/
  parent?_eq : ∀ x, t'.parent? x = t.parent? x
  /-- Every interior node has its rule. -/
  rule?_eq : ∀ x, t'.rule? x = t.rule? x
  /-- Every other leaf has its token. -/
  token?_eq : ∀ x, x ≠ m → t'.token? x = t.token? x
  /-- Every leaf has its text. -/
  text?_eq : ∀ x, (t'.token? x).map (·.text) = (t.token? x).map (·.text)

namespace Tree.Recast

variable {m x y : Nat} {t t' : Tree} (re : Recast m t t')

include re

/-! ### Rows and their texts -/

theorem hasRule_eq (r : Rule) : t'.hasRule r = t.hasRule r := by
  funext x
  rw [hasRule, hasRule, re.rule?_eq]

theorem isLeaf_eq (x : Nat) : t'.isLeaf x = t.isLeaf x := by
  rw [isLeaf, isLeaf, ← Option.isSome_map (f := (·.text)), re.text?_eq, Option.isSome_map]

theorem isLastLeaf (h : t.IsLastLeaf x) : t'.IsLastLeaf x :=
  ⟨(re.isLeaf_eq x).trans h.1, fun y hy => (re.isLeaf_eq y).trans (h.2 y hy)⟩

/-- All other rows keep their kind. -/
theorem kindAt_eq (hx : x ≠ m) : t'.kindAt x = t.kindAt x := by
  rw [kindAt, kindAt, re.token?_eq x hx]

theorem textAt_eq : t'.textAt = t.textAt := by
  funext x
  rw [textAt, textAt, re.text?_eq]

theorem idsAfter_eq (x : Nat) : t'.idsAfter x = t.idsAfter x := by
  rw [idsAfter, idsAfter, re.size_eq]

theorem subtree_eq (x : Nat) : t'.subtree x = t.subtree x := by
  simp only [subtree, re.idsAfter_eq, re.parent?_eq]

theorem children_eq (x : Nat) : t'.children x = t.children x := by
  simp only [re.wf.children_eq, re.wf'.children_eq, re.size_eq, re.parent?_eq]

theorem siblingsAfter_eq (x : Nat) : t'.siblingsAfter x = t.siblingsAfter x := by
  have hp' := re.parent?_eq x
  cases hp : t.parent? x with
  | none => simp [siblingsAfter, hp, hp']
  | some p =>
    rw [hp] at hp'
    simp only [re.wf.siblingsAfter_of_parent? hp, re.wf'.siblingsAfter_of_parent? hp',
      re.idsAfter_eq, re.parent?_eq]

theorem ancestors_eq (x : Nat) : t'.ancestors x = t.ancestors x := by
  have hclimb : ∀ bound x, t'.climb bound x = t.climb bound x := by
    intro bound
    induction bound with
    | zero => exact fun _ => rfl
    | succ bound ih =>
      intro x
      simp only [climb, re.parent?_eq, ih]
  exact hclimb x x

theorem ancestor?_eq (r : Rule) (x : Nat) : t'.ancestor? r x = t.ancestor? r x := by
  rw [ancestor?, ancestor?, re.ancestors_eq, re.hasRule_eq]

theorem descendants_eq (r : Rule) : t'.descendants r = t.descendants r := by
  funext x
  rw [descendants, descendants, re.subtree_eq, re.hasRule_eq]

theorem text_eq (x : Nat) : t'.text x = t.text x := by
  simp only [text, re.subtree_eq, re.text?_eq]

/-- The document is the same text. -/
theorem source_eq : t'.source = t.source := re.text_eq root

theorem typeAfter?_eq (x : Nat) : t'.typeAfter? x = t.typeAfter? x := by
  simp only [typeAfter?, re.siblingsAfter_eq, re.hasRule_eq, re.text_eq]

/-! ### First visible leaves -/

theorem isVisible_eq (hx : x ≠ m) : t'.isVisible x = t.isVisible x := by
  rw [isVisible, isVisible, re.token?_eq x hx]

/-- A node of a rule that does not stand around the leaf keeps its first visible
leaf. -/
theorem firstVisible?_eq_of_hasRule {r : Rule} (hr : t.isWithin r m = false)
    (hx : t.hasRule r x = true) : t'.firstVisible? x = t.firstVisible? x := by
  rw [firstVisible?, firstVisible?, re.subtree_eq]
  refine find?_congr fun y hy => re.isVisible_eq ?_
  rintro rfl
  have hcov := mem_subtree.mp hy
  rcases Nat.eq_or_lt_of_le hcov.1 with rfl | hlt
  · obtain ⟨tok, htok⟩ := isLeaf_iff.mp re.leaf
    rw [hasRule, beq_iff_eq] at hx
    rw [token?_eq_none_of_rule? hx] at htok
    cases htok
  · have hfound : t.isWithin r y = true := by
      rw [isWithin, ancestor?, List.find?_isSome]
      exact ⟨x, re.wf.mem_ancestors_iff.mpr ⟨hlt, hcov⟩, hx⟩
    rw [hr] at hfound
    cases hfound

/-- A node with a visible leaf before `m` keeps its first visible leaf, which is
before `m`. -/
theorem exists_firstVisible? (hy : y ∈ t.subtree x) (hvisible : t.isVisible y = true)
    (hym : y < m) :
    ∃ z : Nat, z < m ∧ t.firstVisible? x = some z ∧ t'.firstVisible? x = some z := by
  obtain ⟨before, behind, hsplit⟩ := List.append_of_mem hy
  have hincreasing : (t.subtree x).Pairwise (· < ·) := subtree_increasing
  rw [hsplit, List.pairwise_append] at hincreasing
  have hlt : ∀ z ∈ before ++ [y], z < m := by
    intro z hz
    rcases List.mem_append.mp hz with hz | hz
    · exact Nat.lt_trans (hincreasing.2.2 z hz y List.mem_cons_self) hym
    · rw [List.mem_singleton.mp hz]
      exact hym
  have hsame : (before ++ [y]).find? t'.isVisible = (before ++ [y]).find? t.isVisible :=
    find?_congr fun z hz => re.isVisible_eq (Nat.ne_of_lt (hlt z hz))
  have hfound : ((before ++ [y]).find? t.isVisible).isSome = true := by
    rw [List.find?_isSome]
    exact ⟨y, by simp, hvisible⟩
  obtain ⟨z, hz⟩ := Option.isSome_iff_exists.mp hfound
  refine ⟨z, hlt z (List.mem_of_find?_eq_some hz), ?_, ?_⟩
  · rw [firstVisible?, hsplit, List.append_cons, List.find?_append, hz, Option.some_or]
  · rw [firstVisible?, re.subtree_eq, hsplit, List.append_cons, List.find?_append, hsame, hz,
      Option.some_or]

/-! ### Names -/

section Names

variable (hstream : t.isWithin .streamId m = false)
  (hattribute : t.isWithin .attributeName m = false)

include hstream

/-- The last leaf names no definition, in either form. -/
theorem nameLeaf?_eq (x : Nat) : t'.nameLeaf? x = t.nameLeaf? x := by
  rw [nameLeaf?, nameLeaf?, re.children_eq, re.hasRule_eq]
  cases hfound : (t.children x).find? (t.hasRule .streamId) with
  | none => rfl
  | some y => exact re.firstVisible?_eq_of_hasRule hstream (List.find?_some hfound)

theorem readStreams_eq (x : Nat) : t'.readStreams x = t.readStreams x := by
  have hleaves : ∀ query, t'.inputStreamLeaves query = t.inputStreamLeaves query := by
    intro query
    simp only [inputStreamLeaves, re.children_eq, re.hasRule_eq, re.descendants_eq]
    refine List.filterMap_congr fun y hy => ?_
    obtain ⟨input, -, hinput⟩ := List.mem_flatMap.mp hy
    exact re.firstVisible?_eq_of_hasRule hstream (List.mem_filter.mp hinput).2
  simp only [readStreams, re.ancestor?_eq, hleaves, re.textAt_eq]

include hattribute

/-- The same nodes are definitions, with the same names and attributes. -/
theorem definitionAt?_eq : t'.definitionAt? = t.definitionAt? := by
  funext x
  have hnames : t'.attributeNames x = t.attributeNames x := by
    rw [attributeNames, attributeNames, re.descendants_eq]
    refine List.filterMap_congr fun y hy => ?_
    rw [re.firstVisible?_eq_of_hasRule hattribute (List.mem_filter.mp hy).2]
  have hattributes : t'.attributeAt = t.attributeAt := by
    funext named
    rw [attributeAt, attributeAt, re.textAt_eq, re.typeAfter?_eq]
  rw [definitionAt?, definitionAt?, re.rule?_eq, re.nameLeaf?_eq hstream, re.textAt_eq, hnames,
    hattributes]

/-- The catalog is the same. -/
theorem catalog_eq : t'.catalog = t.catalog := by
  have hnodes : Catalog.definitionNodes t' = Catalog.definitionNodes t := by
    simp only [Catalog.definitionNodes, re.descendants_eq]
  rw [catalog, catalog, hnodes, re.definitionAt?_eq hstream hattribute]

end Names

/-- The verb of an output comes before the word and is the same. -/
theorem outputVerb?_eq {c : Context} (hprev : c.prev.node < m)
    (hvisible : t.isVisible c.prev.node = true) :
    Clause.outputVerb? t' c = Clause.outputVerb? t c := by
  rw [Clause.outputVerb?_eq, Clause.outputVerb?_eq, re.ancestor?_eq]
  cases houtput : t.ancestor? .queryOutput c.prev.node with
  | none => rfl
  | some output =>
    have hmem : c.prev.node ∈ t.subtree output := by
      rw [mem_subtree]
      exact (re.wf.mem_ancestors_iff.mp (List.mem_of_find?_eq_some houtput)).2
    obtain ⟨z, hz, hfirst, hfirst'⟩ := re.exists_firstVisible? hmem hvisible hprev
    rw [Option.bind_some, Option.bind_some, hfirst, hfirst', Option.map_some, Option.map_some,
      re.kindAt_eq (Nat.ne_of_lt hz)]

/-- A context of rows before the leaf is exchangeable with itself. -/
theorem exchangeable {c : Context} (agree : Agree m t t') (hc : c.Within m)
    (hvisible : t.isVisible c.prev.node = true) (hstream : t.isWithin .streamId m = false)
    (hattribute : t.isWithin .attributeName m = false) : Context.Exchangeable t c t' c where
  toAlike := agree.alike hc
  definitionNames := by
    rw [Clause.definitionNames_eq, Clause.definitionNames_eq, re.catalog_eq hstream hattribute]
  tableNames := by
    rw [Clause.tableNames_eq, Clause.tableNames_eq, re.catalog_eq hstream hattribute]
  inputAttributes := by
    rw [Clause.inputAttributes_eq, Clause.inputAttributes_eq, re.catalog_eq hstream hattribute,
      re.readStreams_eq hstream]
  outputVerb? := re.outputVerb?_eq hc.prev hvisible

end Tree.Recast

/-! ## Runs that differ in a kind -/

/-- The runs have made the same steps, but for the kind of the token in the row
`m`. -/
structure Draft.Recast (m : Nat) (d d' : Draft) : Prop where
  lt : m < d.nodes.size
  size_eq : d'.nodes.size = d.nodes.size
  other : ∀ x, x ≠ m → d'.tree.core? x = d.tree.core? x
  core : ∃ tok kind parent, d.tree.core? m = some (.token tok, parent) ∧
    d'.tree.core? m = some (.token { tok with kind }, parent)
  open_eq : d'.openNodes = d.openNodes
  offset_eq : d'.offset = d.offset

namespace Draft

namespace Recast

variable {m : Nat} {d d' : Draft} (re : Recast m d d')

include re

theorem anchor_eq : d'.anchor = d.anchor := by
  rw [anchor, anchor, re.open_eq, Array.isEmpty, Array.isEmpty, re.size_eq]

theorem push (label : Label) : Recast m (d.push label) (d'.push label) where
  lt := by
    rw [size_push]
    exact Nat.lt_succ_of_lt re.lt
  size_eq := by rw [size_push, size_push, re.size_eq]
  other x hx := by rw [core?_push, core?_push, re.size_eq, re.anchor_eq, re.other x hx]
  core := by
    obtain ⟨tok, kind, parent, hcore, hcore'⟩ := re.core
    refine ⟨tok, kind, parent, ?_, ?_⟩
    · rw [core?_push_of_lt re.lt, hcore]
    · rw [core?_push_of_lt (re.size_eq ▸ re.lt), hcore']
  open_eq := re.open_eq
  offset_eq := re.offset_eq

theorem openNode (r : Rule) : Recast m (d.openNode r) (d'.openNode r) :=
  { re.push (.rule r) with
    open_eq := by simp only [Draft.openNode, re.open_eq, re.size_eq] }

theorem popNode : Recast m d.popNode d'.popNode :=
  { re with open_eq := by simp only [Draft.popNode, re.open_eq] }

theorem extend (kind : Kind) (text : String) :
    Recast m (d.extend kind text) (d'.extend kind text) := by
  have hpush := re.push (.token ⟨kind, text, d.offset⟩)
  rw [Draft.extend, Draft.extend, re.offset_eq]
  exact { hpush with offset_eq := rfl }

/-- Whatever is built on both, the tables differ in the kind of one leaf only. -/
theorem run (steps : List Step) : Recast m (d.run steps) (d'.run steps) := by
  induction steps generalizing d d' with
  | nil => exact re
  | cons s rest ih =>
    refine ih (step_related ?_ ?_ ?_ ?_ re s)
    · intro d d' h
      rw [h.open_eq]
    · intro d d' r h
      exact h.openNode r
    · intro d d' _ h
      exact h.popNode
    · intro d d' kind text _ h
      exact h.extend kind text

/-- The trees of such drafts differ in the kind of one leaf only. -/
theorem tree (wf : d.tree.WellFormed) (wf' : d'.tree.WellFormed) :
    Tree.Recast m d.tree d'.tree := by
  obtain ⟨tok, kind, parent, hcore, hcore'⟩ := re.core
  refine ⟨wf, wf', ?_, re.size_eq, fun x => ?_, fun x => ?_, fun x hx => ?_, fun x => ?_⟩
  · simp [Tree.isLeaf, Tree.token?_eq_bind_core?, hcore, Label.token?]
  · by_cases hx : x = m
    · simp [Tree.parent?_eq_bind_core?, hx, hcore, hcore']
    · simp [Tree.parent?_eq_bind_core?, re.other x hx]
  · by_cases hx : x = m
    · simp [Tree.rule?_eq_bind_core?, hx, hcore, hcore', Label.rule?]
    · simp [Tree.rule?_eq_bind_core?, re.other x hx]
  · simp [Tree.token?_eq_bind_core?, re.other x hx]
  · by_cases hx : x = m
    · simp [Tree.token?_eq_bind_core?, hx, hcore, hcore', Label.token?]
    · simp [Tree.token?_eq_bind_core?, re.other x hx]

end Recast

/-- The step in which the runs differ. -/
theorem recast_extend (d : Draft) (kind kind' : Kind) (text : String) :
    Recast d.nodes.size (d.extend kind text) (d.extend kind' text) where
  lt := by
    rw [size_extend]
    exact Nat.lt_succ_self _
  size_eq := by rw [size_extend, size_extend]
  other x hx := core?_push.trans (by rw [if_neg hx]; exact (core?_push.trans (if_neg hx)).symm)
  core := ⟨⟨kind, text, d.offset⟩, kind', d.anchor, core?_push_size, core?_push_size⟩
  open_eq := rfl
  offset_eq := rfl

end Draft

namespace Tree

variable {t t' : Tree}

/-- A finished run stays one when a token is given another kind. -/
theorem exists_recast {before rest : List Step} {kind kind' : Kind} {text : String}
    (hopen : (Draft.empty.run before).openNodes ≠ [])
    (h : ofSteps (before ++ .token kind text :: rest) = .ok t) :
    ∃ t', ofSteps (before ++ .token kind' text :: rest) = .ok t' ∧
      Recast (Draft.empty.run before).nodes.size t t' := by
  have hrun : ∀ k, Draft.empty.run (before ++ .token k text :: rest) =
      ((Draft.empty.run before).extend k text).run rest := by
    intro k
    rw [Draft.run_append, Draft.run_token hopen]
  have re := (Draft.recast_extend (Draft.empty.run before) kind kind' text).run rest
  rw [← hrun, ← hrun] at re
  have wf := (document_of_ofSteps h).toWellFormed
  obtain ⟨hclosed, hsize, rfl⟩ := ofSteps_eq_ok_iff.mp h
  have h' : ofSteps (before ++ .token kind' text :: rest) = .ok _ :=
    ofSteps_eq_ok_iff.mpr ⟨re.open_eq.trans hclosed, re.size_eq ▸ hsize, rfl⟩
  exact ⟨_, h', re.tree wf (document_of_ofSteps h').toWellFormed⟩

/-! ## A word behind a blank -/

/-- Trivia at the end is skipped by the search for the leaf before a new row. -/
theorem Agree.prevVisible?_new {m x : Nat} (agree : Agree m t t') (hm : m < t'.size) (hxm : x < m)
    (hlast : t.IsLastLeaf x) (hblank : t.isVisible x = false) :
    t'.prevVisible? m = t.prevVisible? x := by
  have hnone : ∀ z : Nat, x ≤ z → z < m → t'.isVisible z = false := by
    intro z hxz hzm
    rw [agree.isVisible_eq hzm]
    rcases Nat.eq_or_lt_of_le hxz with rfl | hlt
    · exact hblank
    · exact isVisible_eq_false_of_isLeaf (hlast.2 z hlt)
  rw [← agree.prevVisible?_eq hxm]
  refine Option.ext fun y => ?_
  rw [agree.wf'.prevVisible?_eq_some_iff hm,
    agree.wf'.prevVisible?_eq_some_iff (Nat.lt_of_lt_of_le hxm agree.le')]
  constructor
  · rintro ⟨hym, hvisible, hbetween⟩
    refine ⟨?_, hvisible, fun z hyz hzx => hbetween z hyz (Nat.lt_trans hzx hxm)⟩
    rcases Nat.lt_or_ge y x with hyx | hxy
    · exact hyx
    · rw [hnone y hxy hym] at hvisible
      cases hvisible
  · rintro ⟨hyx, hvisible, hbetween⟩
    refine ⟨Nat.lt_trans hyx hxm, hvisible, fun z hyz hzm => ?_⟩
    rcases Nat.lt_or_ge z x with hzx | hxz
    · exact hbetween z hyz hzx
    · exact hnone z hxz hzm

/-- A new row behind the blank at the end has the context of the blank, but is the
element itself. -/
theorem Agree.ofElement_new_of_blank {m x : Nat} (agree : Agree m t t') (hm : m < t'.size)
    (hxm : x < m) (hlast : t.IsLastLeaf x) (hblank : t.isVisible x = false) {c? : Option Context}
    (hc : Context.ofElement t x = .ok c?) :
    Context.ofElement t' m = .ok (c?.map fun c => { c with element := m }) := by
  rw [Context.ofElement_eq] at hc
  cases hc
  rw [Context.ofElement_eq, agree.prevVisible?_new hm hxm hlast hblank, Option.map_map]
  cases hprev : t.prevVisible? x with
  | none => rfl
  | some leaf =>
    have hleaf : leaf < m := agree.lt_of_prevVisible? hxm hprev
    simp only [Option.map_some, Function.comp_apply, agree.seenAt_eq hleaf,
      agree.seenBefore_eq hleaf]

/-- A word right behind a leaf that is in no stream name and in no attribute name
has the surroundings of the leaf.  The tree `between` has trivia in the place of
the word. -/
theorem exchangeable_of_typed_word {before rest : List Step} {kind : Kind} {word : String}
    {place width x : Nat} {between : Tree} {c : Context} (h : ofSteps (before ++ rest) = .ok t)
    (hbetween : ofSteps (before ++ .token .whitespace word :: rest) = .ok between)
    (h' : ofSteps (before ++ .token kind word :: rest) = .ok t')
    (pad : Padded (Draft.empty.run before).nodes.size place width t between)
    (re : Recast (Draft.empty.run before).nodes.size between t')
    (hbehind : (Draft.empty.run before).RightBehind t x) (hstream : t.isWithin .streamId x = false)
    (hattribute : t.isWithin .attributeName x = false) (hc : Context.ofElement t x = .ok (some c)) :
    Context.Exchangeable t c t' { c with element := (Draft.empty.run before).nodes.size } := by
  have hopen := hbehind.openNodes_ne_nil
  have hxm := hbehind.lt_size (Draft.sound_run before)
  have agree := agree_of_shared_steps h hbetween
  have hwithin := agree.within_of_ofElement hxm hc
  rw [Context.ofElement_eq] at hc
  obtain ⟨leaf, hprev, rfl⟩ := Option.map_eq_some_iff.mp (Except.ok.inj hc)
  have hleaf : leaf < (Draft.empty.run before).nodes.size := hwithin.prev
  have hvisible : between.isVisible leaf = true := by
    rw [agree.isVisible_eq hleaf]
    exact ((agree.wf.prevVisible?_eq_some_iff (Nat.lt_of_lt_of_le hxm agree.le)).mp hprev).2.1
  have hpad := pad.exchangeable_of_within hwithin
  have hblank := hpad.trans
    (hbehind.exchangeable hxm agree (parent?_of_added hopen hbetween) rfl)
  have hrecast := re.exchangeable (agree_of_shared_steps hbetween h') hwithin hvisible
    ((hblank.within .streamId (by simp)).trans hstream)
    ((hblank.within .attributeName (by simp)).trans hattribute)
  exact (hpad.trans hrecast).trans
    (hbehind.exchangeable hxm (agree_of_shared_steps h h') (parent?_of_added hopen h') rfl)

/-- Typing a word only narrows the suggestions.  The last leaf of a document is a
blank outside of stream names and attribute names.  A word is added right behind
it by one step more.  Then the suggestions behind the word are those behind the
blank that match the word. -/
theorem suggest_of_typed_word {steps : List Step} {x : Nat} {tok : Token}
    (h : ofSteps steps = .ok t) (hback : t.leaves.back? = some x) (htok : t.token? x = some tok)
    (hkind : tok.kind = .whitespace) (hne : tok.text ≠ "")
    (hstream : t.isWithin .streamId x = false) (hattribute : t.isWithin .attributeName x = false) :
    ∃ answer, t.suggest t.source.utf8ByteSize = .ok answer ∧
      ∀ (before rest : List Step) (kind : Kind) (word : String), steps = before ++ rest →
        kind.isWord = true → word ≠ "" → (Draft.empty.run before).RightBehind t x →
        ∃ t', ofSteps (before ++ .token kind word :: rest) = .ok t' ∧
          t'.suggest (t.source.utf8ByteSize + word.utf8ByteSize) =
            .ok (answer.filter (·.isMatch word)) := by
  have doc := document_of_ofSteps h
  have hlast := doc.isLastLeaf_of_back? hback
  have hblank : t.isVisible x = false := by
    simp [isVisible, htok, Token.isVisible, hkind, Kind.isTrivia]
  obtain ⟨c?, hc⟩ : ∃ c?, Context.ofElement t x = .ok c? := ⟨_, Context.ofElement_eq⟩
  obtain ⟨offered, hoffered⟩ := Engine.standard_suggestions_ok t c?
  have hanswer := doc.suggest_end hlast htok hne (by simp [hkind, Kind.isTrivia]) hc hoffered
  have hall : offered.filter (·.isMatch "") = offered :=
    List.filter_eq_self.mpr fun s _ => s.isMatch_empty
  rw [typedPart_of_not_word (by simp [hkind, Kind.isWord]), hall] at hanswer
  refine ⟨_, hanswer, ?_⟩
  rintro before rest kind word rfl hword hword_ne hbehind
  have hopen := hbehind.openNodes_ne_nil
  have hxm := hbehind.lt_size (Draft.sound_run before)
  obtain ⟨between, hbetween, pad⟩ := @exists_padded before rest .whitespace word t hopen rfl h
  obtain ⟨t', h', re⟩ := @exists_recast between before rest .whitespace kind word hopen hbetween
  have doc' := document_of_ofSteps h'
  have hnew := token?_of_added hopen h'
  have hlast' := re.isLastLeaf (pad.isLastLeaf_new hlast hxm)
  have hlength : t'.source.utf8ByteSize = t.source.utf8ByteSize + word.utf8ByteSize := by
    rw [re.source_eq, length_of_padded hopen rfl h hbetween]
  have hc' := (agree_of_shared_steps h h').ofElement_new_of_blank (lt_size_of_token? hnew) hxm
    hlast hblank hc
  have hoffered' : Engine.standard.suggestions t'
      (c?.map fun c => { c with element := (Draft.empty.run before).nodes.size }) =
        .ok offered := by
    cases c? with
    | none => exact hoffered
    | some c =>
      rw [Option.map_some,
        (exchangeable_of_typed_word h hbetween h' pad re hbehind hstream hattribute hc).suggestions,
        hoffered]
  have hanswer' := doc'.suggest_end hlast' hnew hword_ne (by rw [hword, Bool.or_true]) hc' hoffered'
  have htyped : Engine.typedPart ⟨kind, word, (Draft.empty.run before).offset⟩
      t'.source.utf8ByteSize = word := by
    rw [← doc'.stop_of_isLastLeaf hlast', stop_of_token? hnew,
      Engine.typedPart_stop hword hword_ne]
  refine ⟨t', h', ?_⟩
  rw [← hlength, hanswer', htyped, Engine.distinct, Engine.distinct,
    firstsBy_filter fun s s' hlabel => Suggestion.isMatch_congr hlabel word]

/-- A definition, and a query up to the blank behind `select`. -/
def uptoSelect : List Step :=
  [.openNode .siddhiApp, .openNode .definitionStream, .text "define stream ", .openNode .streamId,
    .text "S", .closeNode, .text " (", .openNode .attributeName, .text "price", .closeNode,
    .text " int);", .closeNode, .openNode .query, .openNode .queryInput, .text "from ",
    .openNode .streamId, .text "S", .closeNode, .closeNode, .text " ", .openNode .querySection,
    .text "select "]

/-- The tree that ends with `uptoSelect`. -/
def selectTree : Tree :=
  (Draft.empty.run (uptoSelect ++ [.closeNode, .closeNode, .closeNode])).tree

theorem suggest_of_typed_word_select :
    ofSteps (uptoSelect ++ [.closeNode, .closeNode, .closeNode]) = .ok selectTree ∧
      selectTree.leaves.back? = some 25 ∧ selectTree.token? 25 = some ⟨.whitespace, " ", 41⟩ ∧
      selectTree.isWithin .streamId 25 = false ∧ selectTree.isWithin .attributeName 25 = false ∧
      (Draft.empty.run uptoSelect).RightBehind selectTree 25 ∧
      ∃ answer, selectTree.suggest selectTree.source.utf8ByteSize = .ok answer ∧
        ∃ t', ofSteps (uptoSelect ++ [.token .identifier "PR", .closeNode, .closeNode,
            .closeNode]) = .ok t' ∧
          t'.suggest (selectTree.source.utf8ByteSize + 2) =
            .ok (answer.filter (·.isMatch "PR")) := by
  have h : ofSteps (uptoSelect ++ [.closeNode, .closeNode, .closeNode]) = .ok selectTree := rfl
  have hback : selectTree.leaves.back? = some 25 := by decide
  have htok : selectTree.token? 25 = some ⟨.whitespace, " ", 41⟩ := by decide
  have hstream : selectTree.isWithin .streamId 25 = false := by decide
  have hattribute : selectTree.isWithin .attributeName 25 = false := by decide
  have hbehind : (Draft.empty.run uptoSelect).RightBehind selectTree 25 :=
    .beside (p := 23) (by decide) (by decide) (by decide)
  obtain ⟨answer, hanswer, hall⟩ :=
    suggest_of_typed_word h hback htok rfl (by simp) hstream hattribute
  exact ⟨h, hback, htok, hstream, hattribute, hbehind, answer, hanswer,
    hall uptoSelect _ .identifier "PR" rfl rfl (by simp) hbehind⟩

end Tree

end SiddhiEditor
