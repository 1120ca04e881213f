import SiddhiEditor.Proofs.PaddedCompletion
import SiddhiEditor.Proofs.SharedStart

/-!
# Completing at the end of a document

The cursor stands at the end of a document whose last leaf is not empty.  The
request is then about the last leaf (`Document.elementAt?_end`).

When the last leaf is punctuation, the element of the context is the outermost
node that it closes.  When a blank follows the punctuation, the element is the
blank.  The two requests have the same answer if the blank stands right behind
the node that is closed (`suggest_of_trailing_blank`).  Both elements then hang
under one parent, so they have the same surroundings.  Only the root has no
parent.  The blank goes under it as its last row, and it looks like the root,
because nothing asks for the application.
-/

namespace SiddhiEditor

namespace Tree

variable {t t' : Tree} {x y : Nat} {tok : Token}

/-! ## The last leaf -/

/-- The leaf `x` is the last one. -/
def IsLastLeaf (t : Tree) (x : Nat) : Prop :=
  t.isLeaf x = true ∧ ∀ y : Nat, x < y → t.isLeaf y = false

namespace Document

variable (doc : t.Document)

include doc

theorem isLastLeaf_of_back? (h : t.leaves.back? = some x) : t.IsLastLeaf x := by
  have hlast : t.lastLeafAt? (t.stop x) = some x := by simp [lastLeafAt?, h]
  obtain ⟨hleaf, hnone, -⟩ := doc.lastLeafAt?_eq_some_iff.mp hlast
  exact ⟨hleaf, hnone⟩

/-- The last leaf ends with the text.  A byte behind it would belong to a later leaf.
-/
theorem stop_of_isLastLeaf (h : t.IsLastLeaf x) : t.stop x = t.source.utf8ByteSize := by
  obtain ⟨tok, htok⟩ := isLeaf_iff.mp h.1
  have hle := doc.stop_le_length htok
  rw [← stop_of_token? htok] at hle
  rcases Nat.eq_or_lt_of_le hle with heq | hlt
  · exact heq
  · obtain ⟨y, other, hother, hcontains⟩ := doc.exists_leaf_contains hlt
    have hyleaf := isLeaf_iff.mpr ⟨other, hother⟩
    rw [Token.contains_iff] at hcontains
    rcases Nat.lt_or_ge x y with hxy | hyx
    · rw [h.2 y hxy] at hyleaf
      cases hyleaf
    · have hstops := doc.stop_le_stop hyleaf h.1 hyx
      rw [stop_of_token? hother] at hstops
      omega

/-- A request at the end is about the last leaf, because an earlier leaf ends before
the last one starts. -/
theorem elementAt?_end (h : t.IsLastLeaf x) (htok : t.token? x = some tok)
    (hne : tok.text ≠ "") : t.elementAt? t.source.utf8ByteSize = some x := by
  have hstop := doc.stop_of_isLastLeaf h
  have hpos := Text.utf8ByteSize_pos hne
  have hword : ∀ y, t.wordAt? t.source.utf8ByteSize = some y → y = x := by
    intro y hy
    obtain ⟨other, hother, -, htouches⟩ := doc.wordAt?_eq_some_iff.mp hy
    rw [Token.touches_iff] at htouches
    rcases Nat.lt_trichotomy y x with hyx | heq | hxy
    · have hle := doc.stop_le_start hother htok hyx
      rw [stop_of_token? htok, Token.stop, Token.length] at hstop
      omega
    · exact heq
    · have hnot := h.2 y hxy
      rw [isLeaf_iff.mpr ⟨other, hother⟩] at hnot
      cases hnot
  have hleaf : t.leafAt? t.source.utf8ByteSize = none := by
    rw [Option.eq_none_iff_forall_ne_some]
    intro y hy
    obtain ⟨other, hother, hcontains⟩ := doc.leafAt?_eq_some_iff.mp hy
    rw [Token.contains_iff] at hcontains
    have hle := doc.stop_le_length hother
    omega
  have hlast : t.lastLeafAt? t.source.utf8ByteSize = some x :=
    doc.lastLeafAt?_eq_some_iff.mpr ⟨h.1, h.2, hstop⟩
  rw [elementAt?, hleaf, hlast]
  cases hw : t.wordAt? t.source.utf8ByteSize with
  | none => rfl
  | some y => rw [hword y hw]; rfl

/-- The context at the end of a text that does not end with punctuation. -/
theorem ofOffset_end (h : t.IsLastLeaf x) (htok : t.token? x = some tok) (hne : tok.text ≠ "")
    (hkind : (tok.kind.isTrivia || tok.kind.isWord) = true) :
    Context.ofOffset t t.source.utf8ByteSize = Context.ofElement t x := by
  rw [Context.ofOffset_of_elementAt? (doc.elementAt?_end h htok hne) htok, hkind]
  rfl

/-- The context at the end of a text that ends with punctuation. -/
theorem ofOffset_end_punctuation (h : t.IsLastLeaf x) (htok : t.token? x = some tok)
    (hne : tok.text ≠ "") (hvisible : tok.isVisible = true) (hword : tok.kind.isWord = false) :
    Context.ofOffset t t.source.utf8ByteSize = Context.behind t x tok.kind := by
  have htrivia : tok.kind.isTrivia = false := by simpa [Token.isVisible] using hvisible
  have hstop : tok.stop = t.source.utf8ByteSize := by
    rw [← stop_of_token? htok, doc.stop_of_isLastLeaf h]
  rw [Context.ofOffset_of_elementAt? (doc.elementAt?_end h htok hne) htok]
  simp [htrivia, hword, hstop]

/-- What has been typed at the end of a text. -/
theorem typed_end (h : t.IsLastLeaf x) (htok : t.token? x = some tok) (hne : tok.text ≠ "") :
    Engine.typed t t.source.utf8ByteSize =
      .ok (Engine.typedPart tok t.source.utf8ByteSize) :=
  Engine.typed_of_elementAt? (doc.elementAt?_end h htok hne) htok

/-- The answer at the end of a text that does not end with punctuation. -/
theorem suggest_end (h : t.IsLastLeaf x) (htok : t.token? x = some tok) (hne : tok.text ≠ "")
    (hkind : (tok.kind.isTrivia || tok.kind.isWord) = true) {c? : Option Context}
    (hc : Context.ofElement t x = .ok c?) {offered : List Suggestion}
    (hoffered : Engine.standard.suggestions t c? = .ok offered) :
    t.suggest t.source.utf8ByteSize = .ok (Engine.distinct
      (offered.filter (·.isMatch (Engine.typedPart tok t.source.utf8ByteSize)))) :=
  suggest_eq_ok ((doc.ofOffset_end h htok hne hkind).trans hc) hoffered
    (doc.typed_end h htok hne)

end Document

theorem typedPart_of_not_word {offset : Nat} (h : tok.kind.isWord = false) :
    Engine.typedPart tok offset = "" := by
  simp [Engine.typedPart, h]

/-! ## Rows right behind a node -/

/-- The rows of a subtree are consecutive. -/
theorem lt_of_mem_subtree (h : y ∈ t.subtree x) : y < x + (t.subtree x).length := by
  obtain ⟨i, hi, hy⟩ := List.mem_iff_getElem.mp h
  have hstarts : t.subtree x <+: x :: t.idsAfter x :=
    (List.prefix_cons_inj x).mpr (List.takeWhile_prefix _)
  have hrange : x :: t.idsAfter x = List.range' x (t.size - (x + 1) + 1) := by
    rw [idsAfter, List.range'_succ]
  have hrow : y = x + i := by
    rw [← hy, hstarts.getElem hi]
    simp only [hrange, List.getElem_range', Nat.one_mul]
  omega

end Tree

/-- In the tree `t` of a run, the steps up to the draft `d` end with the subtree of
a node, so that the next token comes right behind the node. -/
inductive Draft.RightBehind (d : Draft) (t : Tree) : NodeId → Prop where
  /-- The last rows are those of the subtree, and the parent is the innermost open
  node. -/
  | beside {n p : NodeId} (hparent : t.parent? n = some p) (hopen : d.openNodes.head? = some p)
      (hrows : d.nodes.size = n + (t.subtree n).length) : RightBehind d t n
  /-- The node is the root and an application.  It is the innermost open node, and
  no later row hangs under it. -/
  | last (happ : t.rule? Tree.root = some .siddhiApp)
      (hopen : d.openNodes.head? = some Tree.root)
      (hrows : ∀ y : Nat, d.nodes.size ≤ y → t.parent? y ≠ some Tree.root) :
      RightBehind d t Tree.root

namespace Draft.RightBehind

variable {d : Draft} {t t' : Tree} {n : Nat}

theorem openNodes_ne_nil (h : d.RightBehind t n) : d.openNodes ≠ [] := by
  intro hnil
  cases h with
  | beside _ hopen _ => simp [hnil] at hopen
  | last _ hopen _ => simp [hnil] at hopen

theorem lt_size (h : d.RightBehind t n) (sound : d.Sound) : n < d.nodes.size := by
  cases h with
  | beside hparent hopen hrows =>
    have hmem : n ∈ t.subtree n := List.mem_cons_self
    have hlt := Tree.lt_of_mem_subtree hmem
    omega
  | last happ hopen hrows => exact sound.lt_size_of_open (List.mem_of_head? hopen)

/-- A row that hangs under the innermost open node has the surroundings of the
node it is right behind. -/
theorem exchangeable (h : d.RightBehind t n) (hn : n < d.nodes.size)
    (agree : Tree.Agree d.nodes.size t t') {m : Nat} (hm : t'.parent? m = d.openNodes.head?)
    {c : Context} (hc : c.element = n) :
    Context.Exchangeable t' c t' { c with element := m } := by
  cases h with
  | beside hparent hopen hrows =>
    refine Context.exchangeable_of_sibling agree.wf' (hm.trans hopen) ?_
    rw [hc, agree.parent?_eq hn, hparent]
  | last happ hopen hrows =>
    refine Context.exchangeable_of_application agree.wf' (hm.trans hopen) hc ?_
    rw [agree.rule?_eq hn, happ]

end Draft.RightBehind

/-- Rows before a new one keep their numbers, and so does a context of them. -/
theorem Context.Within.moved_eq {m : Nat} {c : Context} (hc : c.Within m) : c.moved m = c := by
  obtain ⟨element, prev, prevPrev⟩ := c
  have helement : renumber m element = element := renumber_of_lt hc.element
  have hprev : prev.moved m = prev := by
    rw [Seen.moved, renumber_of_lt hc.prev]
  have hprevPrev : prevPrev.map (Seen.moved m) = prevPrev := by
    cases prevPrev with
    | none => rfl
    | some leaf => rw [Option.map_some, Seen.moved, renumber_of_lt (hc.prevPrev leaf rfl)]
  rw [Context.moved, helement, hprev, hprevPrev]

namespace Tree

variable {t t' : Tree}

/-! ## A blank behind punctuation -/

theorem WellFormed.closedBy_covers (wf : t.WellFormed) (leaf : Nat) (kind : Kind) :
    t.Covers (t.closedBy leaf kind) leaf := by
  unfold closedBy
  dsimp only
  split
  · cases hlast : ((t.ancestors leaf).takeWhile fun x => t.lastVisible? x == some leaf &&
        !(t.hasRule .query x && kind != .semicolon)).getLast? with
    | none => exact Covers.refl t leaf
    | some x =>
      have hmem := (List.takeWhile_sublist _).subset (List.mem_of_getLast? hlast)
      exact (wf.mem_ancestors_iff.mp hmem).2
  · exact Covers.refl t leaf

namespace Padded

variable {m place width x : Nat} (pad : Padded m place width t t')

include pad

/-- No row follows new trivia that is the last row under the root.  The parent of such
a row would cover the new one, and so be at or before the root. -/
theorem size_le_of_last (hm : t'.parent? m = some root)
    (hlast : ∀ y : Nat, m ≤ y → t.parent? y ≠ some root) : t.size ≤ m := by
  rcases Nat.lt_or_ge m t.size with hlt | hge
  · obtain ⟨q, hq⟩ := pad.doc.exists_parent pad.pos hlt
    have hq' := pad.parent?_eq m
    rw [hq, renumber_of_le (Nat.le_refl m), Option.map_some] at hq'
    obtain ⟨hqm, hrule, hcov⟩ := pad.doc'.parent_spec hq'
    have hne : renumber m q ≠ m := by
      intro heq
      obtain ⟨tok, htok, -⟩ := pad.new
      obtain ⟨r, hr⟩ := Option.isSome_iff_exists.mp hrule
      rw [heq] at hr
      rw [token?_eq_none_of_rule? hr] at htok
      cases htok
    obtain ⟨p, hp, hle⟩ := hcov.2 m (by omega) (Nat.le_succ m)
    rw [hm] at hp
    cases hp
    have hzero : renumber m q = renumber m root := by
      rw [pad.renumber_root]
      exact Nat.le_zero.mp hle
    rw [renumber_inj.mp hzero] at hq
    exact absurd hq (hlast m (Nat.le_refl m))
  · exact hge

/-- New trivia behind the last leaf is the last leaf. -/
theorem isLastLeaf_new (hx : t.IsLastLeaf x) (hxm : x < m) : t'.IsLastLeaf m := by
  obtain ⟨tok, htok, -⟩ := pad.new
  refine ⟨isLeaf_iff.mpr ⟨tok, htok⟩, fun y hy => ?_⟩
  obtain ⟨z, rfl⟩ := exists_renumber (Nat.ne_of_gt hy)
  rw [pad.isLeaf_eq]
  refine hx.2 z ?_
  rcases Nat.lt_or_ge z m with hzm | hzm
  · rw [renumber_of_lt hzm] at hy
    omega
  · omega

/-- A context of rows before the new one is exchangeable with itself. -/
theorem exchangeable_of_within {c : Context} (hc : c.Within m) :
    Context.Exchangeable t c t' c := by
  have hsame := pad.exchangeable c
  rwa [hc.moved_eq] at hsame

/-- A leaf of a node that the new row is right behind comes before the new row. -/
theorem lt_of_rightBehind {d : Draft} {n : Nat} (hd : d.nodes.size = m)
    (hm : t'.parent? m = d.openNodes.head?) (h : d.RightBehind t n) (hcov : t.Covers n x)
    (hx : x < t.size) : x < m := by
  cases h with
  | beside hparent hopen hrows =>
    have hlt := lt_of_mem_subtree (mem_subtree.mpr hcov)
    omega
  | last happ hopen hrows =>
    rw [hd] at hrows
    exact Nat.lt_of_lt_of_le hx (pad.size_le_of_last (hm.trans hopen) hrows)

end Padded

/-- The last leaf is the leaf before a new row behind it. -/
theorem Agree.ofElement_new {m x : Nat} (agree : Agree m t t') (hm : m < t'.size) (hxm : x < m)
    (hlast : t.IsLastLeaf x) (hvisible : t.isVisible x = true) :
    Context.ofElement t' m =
      .ok (some ⟨m, t.seenAt x, (t.prevVisible? x).map t.seenAt⟩) := by
  have hprev : t'.prevVisible? m = some x := by
    refine (agree.wf'.prevVisible?_eq_some_iff hm).mpr ⟨hxm, ?_, fun z hxz hzm => ?_⟩
    · rw [agree.isVisible_eq hxm, hvisible]
    · rw [agree.isVisible_eq hzm]
      exact isVisible_eq_false_of_isLeaf (hlast.2 z hxz)
  rw [Context.ofElement_eq, hprev, Option.map_some, agree.seenAt_eq hxm, agree.seenBefore_eq hxm]

/-- A text is longer by the trivia put in. -/
theorem length_of_padded {before rest : List Step} {kind : Kind} {text : String}
    (hopen : (Draft.empty.run before).openNodes ≠ []) (hkind : kind.isTrivia = true)
    (h : ofSteps (before ++ rest) = .ok t)
    (h' : ofSteps (before ++ .token kind text :: rest) = .ok t') :
    t'.source.utf8ByteSize = t.source.utf8ByteSize + text.utf8ByteSize := by
  rw [length_of_ofSteps h, length_of_ofSteps h',
    (Draft.padded_run hopen hkind text rest).offset_eq]

/-- Completing right behind the punctuation at the end of a document agrees with
completing behind a blank that follows it.  The blank is added by one step more,
right behind the node that the punctuation closes and that the request is about.
The two requests have the same leaves before the cursor, the same region and the
same answer. -/
theorem suggest_of_trailing_blank {steps : List Step} {x : Nat} {tok : Token}
    (h : ofSteps steps = .ok t) (hback : t.leaves.back? = some x) (htok : t.token? x = some tok)
    (hne : tok.text ≠ "") (hvisible : tok.isVisible = true) (hword : tok.kind.isWord = false) :
    ∃ c, Context.ofOffset t t.source.utf8ByteSize = .ok (some c) ∧
      ∀ (before rest : List Step) (blank : String), steps = before ++ rest → blank ≠ "" →
        (Draft.empty.run before).RightBehind t c.element →
        ∃ t' c', ofSteps (before ++ .token .whitespace blank :: rest) = .ok t' ∧
          Context.ofOffset t' (t.source.utf8ByteSize + blank.utf8ByteSize) = .ok (some c') ∧
          c'.prev = c.prev ∧ c'.prevPrev = c.prevPrev ∧
          (∃ region?, Region.classify t c = .ok region? ∧ Region.classify t' c' = .ok region?) ∧
          ∃ answer, t.suggest t.source.utf8ByteSize = .ok answer ∧
            t'.suggest (t.source.utf8ByteSize + blank.utf8ByteSize) = .ok answer := by
  have doc := document_of_ofSteps h
  have hlast := doc.isLastLeaf_of_back? hback
  have hx : t.isVisible x = true := isVisible_iff.mpr ⟨tok, htok, hvisible⟩
  obtain ⟨c, hc⟩ : ∃ c : Context,
      c = ⟨t.closedBy x tok.kind, t.seenAt x, (t.prevVisible? x).map t.seenAt⟩ := ⟨_, rfl⟩
  have hcontext : Context.ofOffset t t.source.utf8ByteSize = .ok (some c) := by
    rw [doc.ofOffset_end_punctuation hlast htok hne hvisible hword, Context.behind_eq, hc, seenAt,
      kindAt_of_token? htok]
  refine ⟨c, hcontext, ?_⟩
  rintro before rest blank rfl hblank hbehind
  have hopen := hbehind.openNodes_ne_nil
  obtain ⟨t', h', pad⟩ := @exists_padded before rest .whitespace blank t hopen rfl h
  have agree := agree_of_shared_steps h h'
  have hm := parent?_of_added hopen h'
  have hnew := token?_of_added hopen h'
  have hn := hbehind.lt_size (Draft.sound_run before)
  have hxm : x < (Draft.empty.run before).nodes.size := by
    refine pad.lt_of_rightBehind rfl hm hbehind ?_ (lt_size_of_token? htok)
    rw [hc]
    exact doc.closedBy_covers x tok.kind
  have hwithin := agree.within_of_follows hn hxm (by rw [hc]; exact ⟨rfl, rfl⟩)
  have hsame := (pad.exchangeable_of_within hwithin).trans
    (hbehind.exchangeable hn agree hm rfl)
  have hlast' := pad.isLastLeaf_new hlast hxm
  have hlength := length_of_padded hopen rfl h h'
  have hcontext' : Context.ofOffset t' (t.source.utf8ByteSize + blank.utf8ByteSize) =
      .ok (some { c with element := (Draft.empty.run before).nodes.size }) := by
    rw [← hlength, pad.doc'.ofOffset_end hlast' hnew hblank rfl, hc]
    exact agree.ofElement_new (lt_size_of_token? hnew) hxm hlast hx
  have htyped : Engine.typed t t.source.utf8ByteSize = .ok "" := by
    rw [doc.typed_end hlast htok hne, typedPart_of_not_word hword]
  have htyped' : Engine.typed t' (t.source.utf8ByteSize + blank.utf8ByteSize) = .ok "" := by
    rw [← hlength, pad.doc'.typed_end hlast' hnew hblank, typedPart_of_not_word rfl]
  obtain ⟨offered, hoffered⟩ := Engine.standard_suggestions_ok t (some c)
  refine ⟨t', _, h', hcontext', rfl, rfl, ⟨Region.of t c, Region.classify_eq, ?_⟩, _,
    suggest_eq_ok hcontext hoffered htyped,
    suggest_eq_ok hcontext' (hsame.suggestions.trans hoffered) htyped'⟩
  rw [Region.classify_eq, hsame.region_eq]

/-- A query up to the end of its input, which is an anonymous stream in
parentheses. -/
def closedStream : List Step :=
  [.openNode .siddhiApp, .openNode .query, .openNode .queryInput, .text "from ",
    .openNode .anonymousStream, .text "(", .openNode .queryInput, .text "from S", .closeNode,
    .text " return ", .openNode .outputEventType, .text "current events", .closeNode, .text ")",
    .closeNode, .closeNode]

/-- The tree that ends with `closedStream`. -/
def closedStreamTree : Tree := (Draft.empty.run (closedStream ++ [.closeNode, .closeNode])).tree

theorem suggest_of_trailing_blank_closedStream :
    ∃ c, ofSteps (closedStream ++ [.closeNode, .closeNode]) = .ok closedStreamTree ∧
      closedStreamTree.leaves.back? = some 18 ∧
      closedStreamTree.token? 18 = some ⟨.closePar, ")", 34⟩ ∧
      Context.ofOffset closedStreamTree closedStreamTree.source.utf8ByteSize = .ok (some c) ∧
      c.element = 2 ∧ (Draft.empty.run closedStream).RightBehind closedStreamTree c.element ∧
      ∃ t' c', ofSteps (closedStream ++ [.token .whitespace " ", .closeNode, .closeNode]) = .ok t' ∧
        Context.ofOffset t' (closedStreamTree.source.utf8ByteSize + 1) = .ok (some c') ∧
        c'.prev = c.prev ∧ c'.prevPrev = c.prevPrev ∧
        (∃ region?, Region.classify closedStreamTree c = .ok region? ∧
          Region.classify t' c' = .ok region?) ∧
        ∃ answer, closedStreamTree.suggest closedStreamTree.source.utf8ByteSize = .ok answer ∧
          t'.suggest (closedStreamTree.source.utf8ByteSize + 1) = .ok answer := by
  have h : ofSteps (closedStream ++ [.closeNode, .closeNode]) = .ok closedStreamTree := rfl
  have hback : closedStreamTree.leaves.back? = some 18 := by decide
  have htok : closedStreamTree.token? 18 = some ⟨.closePar, ")", 34⟩ := by decide
  obtain ⟨c, hc, hall⟩ := suggest_of_trailing_blank h hback htok (by decide) rfl rfl
  have helement : c.element = 2 := by
    have hvalue : Context.ofOffset closedStreamTree closedStreamTree.source.utf8ByteSize =
        .ok (some ⟨2, ⟨18, .closePar⟩, some ⟨17, .keyword .events⟩⟩) := by decide
    rw [hvalue] at hc
    cases hc
    rfl
  have hbehind : (Draft.empty.run closedStream).RightBehind closedStreamTree c.element := by
    rw [helement]
    exact .beside (p := 1) (by decide) (by decide) (by decide)
  exact ⟨c, h, hback, htok, hc, helement, hbehind,
    hall closedStream [.closeNode, .closeNode] " " rfl (by decide) hbehind⟩

end Tree

end SiddhiEditor
