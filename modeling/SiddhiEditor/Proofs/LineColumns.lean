import Mathlib.Data.Set.Card
import SiddhiEditor.Proofs.LinePieces
import SiddhiEditor.Proofs.Resolution

/-!
# The columns of lines

A line that starts with a leaf is put at a column that the tree decides.  The rule
is said here of the tree alone, with no order in which its parts are looked at
(`IsColumn`).

* A comment stays at the first column if the style asks for it.
* Every partition above the leaf indents it, unless the leaf is the first visible one
  of the partition or its closing `end` (`IndentedBy`).
* A leaf behind the first visible one of the query around it is indented further
  (`ContinuesQuery`).

Columns are natural numbers.  A program that adds them up in machine words, one
partition after the other, has the same columns as long as they fit into a word, and
overflows exactly where they do not (`wordColumn?_eq`).

The blanks that fill the column are tabs and then spaces (`Fills`).  A line that
starts inside a leaf, such as a string over several lines, is kept.  `LinePlaced`
states both of a line at an offset.  It holds of every piece that re-indenting
makes (`linePlaced_of_setsPiece`), and so the document is placed line by line.
-/

namespace SiddhiEditor

open Text (isBlank byteCount)

/-! ## Blanks -/

/-- The blanks cover a number of columns: a run of tabs and then of spaces.  There are
tabs only if the style uses them, and then the spaces do not fill another. -/
structure CodeStyle.Fills (style : CodeStyle) (columns : Nat) (tabs spaces : Nat) : Prop where
  /-- The columns are all covered. -/
  width : tabs * style.tabSize + spaces = columns
  /-- Without tabs in the style there are none. -/
  no_tabs : ¬ (style.useTabs = true ∧ 0 < style.tabSize) → tabs = 0
  /-- With tabs in the style, no tab is spelled out in spaces. -/
  few_spaces : style.useTabs = true ∧ 0 < style.tabSize → spaces < style.tabSize

/-- The blanks of a margin are tabs and then spaces, and they fill its columns. -/
theorem CodeStyle.exists_fills (style : CodeStyle) (columns : Nat) :
    ∃ tabs spaces, style.Fills columns tabs spaces ∧
      style.blanks columns = List.replicate tabs '\t' ++ List.replicate spaces ' ' := by
  by_cases htabs : style.useTabs = true ∧ 0 < style.tabSize
  · refine ⟨columns / style.tabSize, columns % style.tabSize, ⟨?_, ?_, ?_⟩, ?_⟩
    · exact Nat.div_add_mod' columns style.tabSize
    · exact fun hno => absurd htabs hno
    · exact fun _ => Nat.mod_lt _ htabs.2
    · simp [blanks, htabs]
  · refine ⟨0, columns, ⟨?_, fun _ => rfl, ?_⟩, ?_⟩
    · rw [Nat.zero_mul, Nat.zero_add]
    · exact fun h => absurd h htabs
    · simp only [Bool.and_eq_true, decide_eq_true_eq, blanks, if_neg htabs]
      simp

namespace Tree

/-! ## Columns in the tree -/

/-- The style keeps the comment at `leaf` at the first column. -/
def KeptFirst (t : Tree) (style : CodeStyle) (leaf : NodeId) : Prop :=
  t.IsOfKind .lineComment leaf ∧ style.lineCommentsFirst = true ∨
    t.IsOfKind .blockComment leaf ∧ style.blockCommentsFirst = true

/-- The partition `p` above `leaf` indents it: the leaf is neither the first visible
one of the partition nor its closing `end`. -/
def IndentedBy (t : Tree) (leaf p : NodeId) : Prop :=
  t.Above p leaf ∧ t.rule? p = some .partition ∧ ¬ t.StartsWith p leaf ∧
    ¬ (t.parent? leaf = some p ∧ t.IsOfKind (.keyword .end) leaf)

/-- The query around `leaf` has a visible leaf before it. -/
def ContinuesQuery (t : Tree) (leaf : NodeId) : Prop :=
  ∃ q l, t.IsQueryAround q leaf ∧ t.Above q l ∧ t.isVisible l = true ∧ l < leaf

/-- The column of a line that starts with `leaf`. -/
inductive IsColumn (t : Tree) (style : CodeStyle) (leaf : NodeId) : Nat → Prop
  | first : t.KeptFirst style leaf → IsColumn t style leaf 0
  | statement : ¬ t.KeptFirst style leaf → ¬ t.ContinuesQuery leaf →
      IsColumn t style leaf (style.indentSize * {p | t.IndentedBy leaf p}.ncard)
  | continuation : ¬ t.KeptFirst style leaf → t.ContinuesQuery leaf →
      IsColumn t style leaf
        (style.indentSize * {p | t.IndentedBy leaf p}.ncard + style.continuationSize)

section Column

variable {t : Tree} {style : CodeStyle} {leaf p : NodeId} {tok : Token}

theorem staysFirst_iff (htok : t.token? leaf = some tok) :
    staysFirst style tok.kind = true ↔ t.KeptFirst style leaf := by
  rw [KeptFirst, isOfKind_iff_of_token? htok, isOfKind_iff_of_token? htok]
  cases hkind : tok.kind <;> simp [staysFirst]

variable (wf : t.WellFormed)

include wf

/-- A partition is bounded by its first visible leaf and by its `end`. -/
theorem WellFormed.bounds_iff (htok : t.token? leaf = some tok)
    (hp : t.rule? p = some .partition) :
    t.bounds p leaf tok.kind = true ↔
      t.StartsWith p leaf ∨ t.parent? leaf = some p ∧ t.IsOfKind (.keyword .end) leaf := by
  rw [bounds, Bool.or_eq_true, Bool.and_eq_true, beq_iff_eq, beq_iff_eq, beq_iff_eq,
    wf.firstVisible?_eq_some_iff hp, isOfKind_iff_of_token? htok]

/-- The partitions that indent a leaf are those around it that it does not bound. -/
theorem WellFormed.indentedBy_iff (htok : t.token? leaf = some tok) :
    t.IndentedBy leaf p ↔
      p ∈ (t.ancestors leaf).filter
        fun x => t.hasRule .partition x && !t.bounds x leaf tok.kind := by
  rw [IndentedBy, List.mem_filter, Bool.and_eq_true, Bool.not_eq_true', ← wf.above_iff, hasRule,
    beq_iff_eq]
  refine and_congr_right fun _ => and_congr_right fun hp => ?_
  rw [← Bool.not_eq_true, wf.bounds_iff htok hp, not_or]

/-- The depth of a leaf is the number of partitions that indent it. -/
theorem WellFormed.depth_eq_ncard (htok : t.token? leaf = some tok) :
    t.depth leaf tok.kind = {p | t.IndentedBy leaf p}.ncard := by
  have hnodup : (t.ancestors leaf).Nodup :=
    (List.pairwise_cons.mp (wf.ancestors_decreasing (x := leaf))).2.imp fun h => Nat.ne_of_gt h
  have hset : {p | t.IndentedBy leaf p} =
      (((t.ancestors leaf).filter fun x =>
        t.hasRule .partition x && !t.bounds x leaf tok.kind).toFinset : Set NodeId) := by
    ext p
    simp only [Set.mem_ofPred_eq, wf.indentedBy_iff htok, List.coe_toFinset]
  rw [hset, Set.ncard_coe_finset, List.toFinset_card_of_nodup (hnodup.filter _), depth,
    List.countP_eq_length_filter]

/-- The first visible leaf of a query is at or before every other one, so it is the
only one to compare with. -/
theorem WellFormed.continuesQuery_iff : t.continuesQuery leaf = true ↔ t.ContinuesQuery leaf := by
  rw [continuesQuery, Option.any_eq_true]
  constructor
  · rintro ⟨l, hl, hlt⟩
    obtain ⟨q, hq, hl⟩ := Option.bind_eq_some_iff.mp hl
    rw [wf.ancestor?_query_iff] at hq
    rw [wf.firstVisible?_eq_some_iff hq.1.2] at hl
    exact ⟨q, l, hq, hl.1.1, hl.1.2, of_decide_eq_true hlt⟩
  · rintro ⟨q, l, hq, habove, hl, hlt⟩
    obtain ⟨first, hfirst⟩ : ∃ first, t.StartsWith q first := by
      classical
      have hex : ∃ m, t.Above q m ∧ t.isVisible m = true := ⟨l, habove, hl⟩
      exact ⟨Nat.find hex, Nat.find_spec hex, fun _ => Nat.find_min' hex⟩
    refine ⟨first, Option.bind_eq_some_iff.mpr ⟨q, ?_, ?_⟩, ?_⟩
    · exact wf.ancestor?_query_iff.mpr hq
    · exact (wf.firstVisible?_eq_some_iff hq.1.2).mpr hfirst
    · exact decide_eq_true (Nat.lt_of_le_of_lt (hfirst.2 ⟨habove, hl⟩) hlt)

/-- The column that is computed for a leaf is its column. -/
theorem WellFormed.isColumn_column (style : CodeStyle) (htok : t.token? leaf = some tok) :
    t.IsColumn style leaf (t.column style leaf tok.kind) := by
  rw [column, wf.depth_eq_ncard htok, Nat.mul_comm]
  by_cases hfirst : t.KeptFirst style leaf
  · rw [if_pos ((staysFirst_iff htok).mpr hfirst)]
    exact .first hfirst
  · rw [if_neg (mt (staysFirst_iff htok).mp hfirst)]
    by_cases hquery : t.ContinuesQuery leaf
    · rw [if_pos (wf.continuesQuery_iff.mpr hquery)]
      exact .continuation hfirst hquery
    · rw [if_neg (mt wf.continuesQuery_iff.mp hquery)]
      exact .statement hfirst hquery

end Column

/-! ## Columns in machine words -/

/-- The number of values of a machine word. -/
def wordSize : Nat := Nat.pow 2 64

/-- The sum of two words, unless it is too large for a word. -/
def addWords? (a b : Nat) : Option Nat := if a + b < wordSize then some (a + b) else none

/-- The column of a leaf, added up in machine words.  Each partition that indents the
leaf adds its part, and then the query around the leaf. -/
def wordColumn? (t : Tree) (style : CodeStyle) (leaf : NodeId) (kind : Kind) : Option Nat :=
  if staysFirst style kind then some 0
  else do
    let indenting := (t.ancestors leaf).filter fun x =>
      t.hasRule .partition x && !t.bounds x leaf kind
    let columns ← indenting.foldlM (fun columns _ => addWords? columns style.indentSize) 0
    if t.continuesQuery leaf then addWords? columns style.continuationSize else some columns

/-- Equal parts are added up without a check in between if their sum is checked. -/
theorem foldlM_addWords? {α : Type} {start part : Nat} (hstart : start < wordSize)
    (xs : List α) :
    xs.foldlM (fun sum _ => addWords? sum part) start =
      if start + xs.length * part < wordSize then some (start + xs.length * part) else none := by
  induction xs generalizing start with
  | nil => simp [hstart]
  | cons x xs ih =>
    have hsum : start + (x :: xs).length * part = start + part + xs.length * part := by
      rw [List.length_cons, Nat.succ_mul]
      omega
    rw [List.foldlM_cons, addWords?, hsum]
    by_cases hfits : start + part < wordSize
    · rw [if_pos hfits]
      exact ih hfits
    · rw [if_neg hfits, if_neg (by omega)]
      rfl

/-- Columns do not overflow as long as they fit into a machine word.  No sum on the
way to the column is larger than the column. -/
theorem wordColumn?_eq (t : Tree) (style : CodeStyle) (leaf : NodeId) (kind : Kind) :
    t.wordColumn? style leaf kind =
      if t.column style leaf kind < wordSize then some (t.column style leaf kind) else none := by
  have hzero : 0 < wordSize := by decide
  rw [wordColumn?, column, depth, List.countP_eq_length_filter]
  by_cases hfirst : staysFirst style kind = true
  · rw [if_pos hfirst, if_pos hfirst, if_pos hzero]
  · rw [if_neg hfirst, if_neg hfirst]
    dsimp only
    rw [foldlM_addWords? hzero, Nat.zero_add]
    split
    next hfits =>
      by_cases hquery : t.continuesQuery leaf = true
      · simp [hquery, addWords?]
      · simp [hquery, hfits]
    next hlarge =>
      rw [if_neg (by omega)]
      rfl

theorem length_climb_le (t : Tree) (bound x : Nat) : (t.climb bound x).length ≤ bound := by
  induction bound generalizing x with
  | zero => exact Nat.le_refl 0
  | succ bound ih =>
    rw [climb]
    cases t.parent? x with
    | none => exact Nat.zero_le _
    | some p => exact Nat.succ_le_succ (ih p)

/-- A leaf has no more ancestors than rows before it, which bounds its column. -/
theorem column_le (t : Tree) (style : CodeStyle) (leaf : NodeId) (kind : Kind) :
    t.column style leaf kind ≤ leaf * style.indentSize + style.continuationSize := by
  have hdepth : t.depth leaf kind ≤ leaf :=
    Nat.le_trans List.countP_le_length (t.length_climb_le leaf leaf)
  have hindent := Nat.mul_le_mul_right style.indentSize hdepth
  rw [column]
  split
  · exact Nat.zero_le _
  · split <;> omega

/-- Where the widths of the style are small for the number of rows, columns are added
up in machine words. -/
theorem wordColumn?_of_small {t : Tree} {style : CodeStyle} {leaf : NodeId} {kind : Kind}
    (h : leaf * style.indentSize + style.continuationSize < wordSize) :
    t.wordColumn? style leaf kind = some (t.column style leaf kind) := by
  rw [wordColumn?_eq, if_pos (Nat.lt_of_le_of_lt (t.column_le style leaf kind) h)]

/-! ## Lines -/

/-- A piece of the text that starts at the offset `start` is placed as `line'`, unless
it is blank. -/
structure LinePlaced (t : Tree) (style : CodeStyle) (start : Nat) (line line' : List Char) :
    Prop where
  /-- A line that starts with a leaf is put at the column of the leaf. -/
  starting : line.all isBlank = false → ∀ leaf tok, t.token? leaf = some tok → tok.text ≠ "" →
    tok.start = start + byteCount (line.takeWhile isIndent) →
    ∃ columns tabs spaces, t.IsColumn style leaf columns ∧ style.Fills columns tabs spaces ∧
      line' = List.replicate tabs '\t' ++ List.replicate spaces ' ' ++ line.dropWhile isIndent
  /-- A line that starts inside a leaf is kept. -/
  inside : line.all isBlank = false → ∀ leaf tok, t.token? leaf = some tok →
    tok.start < start + byteCount (line.takeWhile isIndent) →
    start + byteCount (line.takeWhile isIndent) < tok.stop → line' = line

namespace Document

variable {t : Tree} {style : CodeStyle} {start : Nat} {line : List Char} {leaf : NodeId}
  {tok : Token} (doc : t.Document)

include doc

/-- A line that starts with a token is put into the column of this token. -/
theorem reindentLine_of_starting (hblank : line.all isBlank = false)
    (htok : t.token? leaf = some tok) (hne : tok.text ≠ "")
    (hstart : tok.start = start + byteCount (line.takeWhile isIndent)) :
    t.reindentLine style start line =
      .ok (style.blanks (t.column style leaf tok.kind) ++ line.dropWhile isIndent) := by
  have hleaf : t.leafAt? tok.start = some leaf := by
    refine doc.leafAt?_eq_some_iff.mpr ⟨tok, htok, Token.contains_iff.mpr ⟨Nat.le_refl _, ?_⟩⟩
    have hpos : tok.text.utf8ByteSize ≠ 0 := mt String.utf8ByteSize_eq_zero_iff.mp hne
    rw [Token.stop, Token.length]
    omega
  rw [reindentLine, all_isBlank_dropWhile, if_neg (by simp [hblank]), ← hstart, hleaf]
  simp only [token_of_token? htok, bind, Except.bind, if_neg (Nat.lt_irrefl _)]
  rfl

/-- A line that starts inside of a token is kept. -/
theorem reindentLine_of_strictly_inside (hblank : line.all isBlank = false)
    (htok : t.token? leaf = some tok)
    (hstart : tok.start < start + byteCount (line.takeWhile isIndent))
    (hstop : start + byteCount (line.takeWhile isIndent) < tok.stop) :
    t.reindentLine style start line = .ok line := by
  have hleaf : t.leafAt? (start + byteCount (line.takeWhile isIndent)) = some leaf :=
    doc.leafAt?_eq_some_iff.mpr
      ⟨tok, htok, Token.contains_iff.mpr ⟨Nat.le_of_lt hstart, hstop⟩⟩
  rw [reindentLine, all_isBlank_dropWhile, if_neg (by simp [hblank]), hleaf]
  simp only [token_of_token? htok, bind, Except.bind, if_pos hstart]
  rfl

/-- What re-indentation makes of a piece is the piece placed. -/
theorem linePlaced_of_setsPiece {line' : List Char} (h : t.SetsPiece style start line line') :
    t.LinePlaced style start line line' := by
  obtain ⟨newline, hnewline, hline⟩ := h
  constructor
  · intro hblank leaf tok htok hne hstart
    rw [← takeWhile_line hnewline] at hstart
    rw [← all_isBlank_line hnewline] at hblank
    rw [doc.reindentLine_of_starting hblank htok hne hstart, dropWhile_line hnewline,
      ← List.append_assoc, Except.ok.injEq, List.append_cancel_right_eq] at hline
    obtain ⟨tabs, spaces, hfills, hblanks⟩ := style.exists_fills (t.column style leaf tok.kind)
    refine ⟨_, tabs, spaces, doc.isColumn_column style htok, hfills, ?_⟩
    rw [← hline, hblanks]
  · intro hblank leaf tok htok hstart hstop
    rw [← takeWhile_line hnewline] at hstart hstop
    rw [← all_isBlank_line hnewline] at hblank
    rw [doc.reindentLine_of_strictly_inside hblank htok hstart hstop,
      Except.ok.injEq, List.append_cancel_right_eq] at hline
    exact hline.symm

end Document

/-! ## The document -/

/-- Re-indenting a document succeeds in every style, and puts every line that is not
blank at the column of the leaf that it starts with, or keeps it when it starts
inside a leaf. -/
theorem reindent_placed {steps : List Step} {t : Tree} (h : ofSteps steps = .ok t)
    (style : CodeStyle) :
    ∃ out, t.reindent style = .ok out ∧
      List.Forall₂ (fun p line' => t.LinePlaced style p.1 p.2 line')
        (startedPieces 0 (t.source.toList.splitOn '\n')) (out.toList.splitOn '\n') := by
  have doc := document_of_ofSteps h
  obtain ⟨out, hout, hpieces⟩ := reindentLines_started doc style 0 t.source.toList
  refine ⟨String.ofList out, ?_, ?_⟩
  · rw [reindent, hout]
    rfl
  · rw [String.toList_ofList]
    exact hpieces.imp fun _ _ hpiece => doc.linePlaced_of_setsPiece hpiece.2

/-- A partition in a partition with a query over several lines, a comment before the
first visible leaf, and a string that goes on in the next line. -/
def nestedPartitions : List Step :=
  [.openNode .siddhiApp, .openNode .partition, .text "  -- c\npartition\n",
    .openNode .partition, .text "with\n begin\n", .openNode .query,
    .text "from S\nselect 'a\n b'\n", .closeNode, .text "end\n", .closeNode,
    .text "end", .closeNode, .closeNode]

/-- A style with tabs that do not divide the columns. -/
def tabbedStyle : CodeStyle :=
  { indentSize := 4, continuationSize := 2, tabSize := 3, useTabs := true,
    lineCommentsFirst := true }

/-- The nested partitions in that style. -/
def nestedPartitionsTabbed : String :=
  "-- c\npartition\n\t with\n\t\t  begin\n\t\t  from S\n\t\t\t select 'a\n b'\n\t end\nend"

theorem reindent_placed_nestedPartitions :
    ∃ t, ofSteps nestedPartitions = .ok t ∧
      t.reindent tabbedStyle = .ok nestedPartitionsTabbed ∧
      List.Forall₂ (fun p line' => t.LinePlaced tabbedStyle p.1 p.2 line')
        (startedPieces 0 (t.source.toList.splitOn '\n'))
        (nestedPartitionsTabbed.toList.splitOn '\n') := by
  have h : ofSteps nestedPartitions = .ok (Draft.empty.run nestedPartitions).tree := rfl
  have hout : (Draft.empty.run nestedPartitions).tree.reindent tabbedStyle =
      .ok nestedPartitionsTabbed := by decide +kernel
  obtain ⟨out, hout', hplaced⟩ := reindent_placed h tabbedStyle
  cases hout'.symm.trans hout
  exact ⟨_, h, hout, hplaced⟩

end Tree

end SiddhiEditor
