import SiddhiEditor.Proofs.LexicalGrammar
import SiddhiEditor.Proofs.Padding
import SiddhiEditor.Proofs.Reindentation

/-!
# Re-indenting twice

A document that has been re-indented, and whose blank runs have been read anew,
is not changed by re-indenting it again.  The two documents have different trees,
with different rows, offsets and blank runs.  What they have in common is their
*ink*, the characters that are not blank, in the same order.

A line that is not blank is laid out by what stands at its first ink.  Either a
token starts there, and the line is put at the column of the token, or the line
is kept.  `Tree.margins` lists this for every ink of the document.  The text and
the margins decide how the document is indented (`reindent_eq_layout`), and
laying out a second time by the same margins changes nothing (`layout_layout`).

A blank run has no ink, and it moves no token to another node.  So a tree keeps
its margins when a blank run is put in (`margins_eq`), and two runs of steps that
differ by blank runs have the margins of what they share (`exists_bare`).
-/

namespace SiddhiEditor

open Text (isBlank byteCount)

/-! ## Ink -/

/-- The characters of a text that are not blank. -/
def ink (cs : List Char) : List Char := cs.filter fun c => !isBlank c

@[simp] theorem ink_nil : ink [] = [] := rfl

@[simp] theorem ink_append (a b : List Char) : ink (a ++ b) = ink a ++ ink b :=
  List.filter_append a b

theorem ink_cons_of_blank {c : Char} (hc : isBlank c = true) (cs : List Char) :
    ink (c :: cs) = ink cs := by
  simp [ink, hc]

theorem ink_cons_of_not_blank {c : Char} (hc : isBlank c = false) (cs : List Char) :
    ink (c :: cs) = c :: ink cs := by
  simp [ink, hc]

theorem ink_eq_nil {cs : List Char} (h : ∀ c ∈ cs, isBlank c = true) : ink cs = [] := by
  rw [ink, List.filter_eq_nil_iff]
  intro c hc
  simp [h c hc]

/-! ## Flush lines -/

/-- The line is blank, or its first character behind the indentation is not. -/
def isFlush (line : List Char) : Bool :=
  line.all isBlank || !(line.dropWhile isIndent).head?.any isBlank

section Body

variable {indent y : List Char} {d : Char}

theorem not_isIndent (hd : isBlank d = false) : isIndent d = false := by
  cases h : isIndent d with
  | false => rfl
  | true =>
    rw [isBlank_of_isIndent h] at hd
    cases hd

theorem takeWhile_indent (hindent : ∀ c ∈ indent, isIndent c = true) (hd : isBlank d = false) :
    (indent ++ d :: y).takeWhile isIndent = indent := by
  rw [List.takeWhile_append_of_pos hindent, List.takeWhile_cons_of_neg (by simp [not_isIndent hd]),
    List.append_nil]

theorem dropWhile_indent (hindent : ∀ c ∈ indent, isIndent c = true) (hd : isBlank d = false) :
    (indent ++ d :: y).dropWhile isIndent = d :: y := by
  rw [List.dropWhile_append_of_pos hindent, List.dropWhile_cons_of_neg (by simp [not_isIndent hd])]

theorem ink_indent (hindent : ∀ c ∈ indent, isIndent c = true) : ink indent = [] :=
  ink_eq_nil fun c hc => isBlank_of_isIndent (hindent c hc)

theorem isFlush_body (hindent : ∀ c ∈ indent, isIndent c = true) (hd : isBlank d = false) :
    isFlush (indent ++ d :: y) = true := by
  simp [isFlush, dropWhile_indent hindent hd, hd]

end Body

/-- A flush line that is not blank has ink behind its indentation. -/
theorem flush_cases {line : List Char} (h : isFlush line = true) :
    line.all isBlank = true ∨
      ∃ indent d y, (∀ c ∈ indent, isIndent c = true) ∧ isBlank d = false ∧
        line = indent ++ d :: y := by
  have hline := List.takeWhile_append_dropWhile (p := isIndent) (l := line)
  rw [isFlush, ← all_isBlank_dropWhile] at h
  rw [← all_isBlank_dropWhile]
  cases hbody : line.dropWhile isIndent with
  | nil => exact .inl rfl
  | cons d y =>
    rw [hbody] at h hline
    cases hd : isBlank d with
    | true =>
      left
      simpa [hd] using h
    | false => exact .inr ⟨_, d, y, fun c hc => isIndent_of_mem_takeWhile hc, hd, hline.symm⟩

/-! ## Laying out by margins -/

theorem lineEnd_lineEnd (line : List Char) : lineEnd (lineEnd line) = lineEnd line := by
  have hends : ∀ c ∈ line.reverse.takeWhile isLineEnd, isLineEnd c = true :=
    List.all_eq_true.mp List.all_takeWhile
  rw [lineEnd, lineEnd, List.reverse_reverse, ← List.append_nil (List.takeWhile _ line.reverse),
    List.takeWhile_append_of_pos hends, List.takeWhile_nil]

theorem lineEnd_newline (l : List Char) : lineEnd (l ++ ['\n']) = lineEnd l ++ ['\n'] := by
  simp [lineEnd, isLineEnd]

theorem all_isBlank_lineEnd {line : List Char} (h : line.all isBlank = true) :
    (lineEnd line).all isBlank = true := by
  rw [List.all_eq_true] at h ⊢
  intro c hc
  exact h c (lineEnd_subset hc)

theorem dropWhile_newline (l : List Char) :
    (l ++ ['\n']).dropWhile isIndent = l.dropWhile isIndent ++ ['\n'] := by
  rw [List.dropWhile_append]
  split
  next hnil =>
    rw [List.isEmpty_iff.mp hnil]
    rfl
  next => rfl

/-- A line put at a column, or kept when there is none.  A blank line keeps its
line end only. -/
def CodeStyle.setLine (style : CodeStyle) (margin : Option Nat) (line : List Char) : List Char :=
  if line.all isBlank then lineEnd line
  else margin.elim (line.takeWhile isIndent) style.blanks ++ line.dropWhile isIndent

section SetLine

variable (style : CodeStyle) (margin : Option Nat) {line l indent y : List Char} {d : Char}

/-- A margin is made of indentation. -/
theorem isIndent_of_mem_margin (hindent : ∀ c ∈ indent, isIndent c = true) :
    ∀ c ∈ margin.elim indent style.blanks, isIndent c = true := by
  cases margin with
  | none => exact hindent
  | some columns =>
    intro c hc
    exact Tree.isIndent_of_mem_blanks hc

theorem setLine_of_blank (h : line.all isBlank = true) :
    style.setLine margin line = lineEnd line := if_pos h

/-- The margin takes the place of the indentation. -/
theorem setLine_body (hindent : ∀ c ∈ indent, isIndent c = true) (hd : isBlank d = false) :
    style.setLine margin (indent ++ d :: y) = margin.elim indent style.blanks ++ d :: y := by
  rw [CodeStyle.setLine, if_neg (by simp [hd]), takeWhile_indent hindent hd,
    dropWhile_indent hindent hd]

/-- Setting a line again changes nothing. -/
theorem setLine_setLine (h : isFlush line = true) :
    style.setLine margin (style.setLine margin line) = style.setLine margin line := by
  rcases flush_cases h with hblank | ⟨indent, d, y, hindent, hd, rfl⟩
  · rw [setLine_of_blank _ _ hblank, setLine_of_blank _ _ (all_isBlank_lineEnd hblank),
      lineEnd_lineEnd]
  · rw [setLine_body _ _ hindent hd, setLine_body _ _ (isIndent_of_mem_margin _ _ hindent) hd]
    cases margin <;> rfl

/-- A line that is set keeps its ink. -/
theorem ink_setLine (h : isFlush line = true) : ink (style.setLine margin line) = ink line := by
  rcases flush_cases h with hblank | ⟨indent, d, y, hindent, hd, rfl⟩
  · rw [setLine_of_blank _ _ hblank, ink_eq_nil (List.all_eq_true.mp hblank),
      ink_eq_nil (List.all_eq_true.mp (all_isBlank_lineEnd hblank))]
  · rw [setLine_body _ _ hindent hd, ink_append, ink_append, ink_indent hindent,
      ink_indent (isIndent_of_mem_margin _ _ hindent)]

/-- A line that is set stays flush. -/
theorem isFlush_setLine (h : isFlush line = true) : isFlush (style.setLine margin line) = true := by
  rcases flush_cases h with hblank | ⟨indent, d, y, hindent, hd, rfl⟩
  · rw [setLine_of_blank _ _ hblank, isFlush, all_isBlank_lineEnd hblank, Bool.true_or]
  · rw [setLine_body _ _ hindent hd]
    exact isFlush_body (isIndent_of_mem_margin _ _ hindent) hd

theorem newline_not_mem_body (hindent : ∀ c ∈ indent, isIndent c = true) (hl : '\n' ∉ l) :
    '\n' ∉ margin.elim indent style.blanks ++ l.dropWhile isIndent := by
  intro hmem
  rcases List.mem_append.mp hmem with hmem | hmem
  · cases isIndent_of_mem_margin style margin hindent _ hmem
  · exact hl ((List.dropWhile_suffix _).subset hmem)

/-- The last line gets no newline. -/
theorem newline_not_mem_setLine (hl : '\n' ∉ l) : '\n' ∉ style.setLine margin l := by
  rw [CodeStyle.setLine]
  split
  · intro hmem
    exact hl (lineEnd_subset hmem)
  · exact newline_not_mem_body style margin (fun _ => isIndent_of_mem_takeWhile) hl

/-- Every other line keeps its newline. -/
theorem setLine_newline (hl : '\n' ∉ l) :
    ∃ l', '\n' ∉ l' ∧ style.setLine margin (l ++ ['\n']) = l' ++ ['\n'] := by
  rw [CodeStyle.setLine]
  split
  · exact ⟨lineEnd l, fun hmem => hl (lineEnd_subset hmem), lineEnd_newline l⟩
  · rw [dropWhile_newline, ← List.append_assoc]
    exact ⟨_, newline_not_mem_body style margin (fun _ => isIndent_of_mem_takeWhile) hl, rfl⟩

end SetLine

/-- Lines laid out by the margins of their ink. -/
def CodeStyle.layout (style : CodeStyle) : List (Option Nat) → List (List Char) → List Char
  | _, [] => []
  | margins, line :: rest =>
    style.setLine margins.head?.join line ++ style.layout (margins.drop (ink line).length) rest

/-- A text that has been laid out is not changed by the same margins, and its lines
are flush. -/
theorem layout_layout (style : CodeStyle) (margins : List (Option Nat)) (cs : List Char)
    (hflush : ∀ line ∈ lines cs, isFlush line = true) :
    style.layout margins (lines (style.layout margins (lines cs))) =
        style.layout margins (lines cs) ∧
      ∀ line ∈ lines (style.layout margins (lines cs)), isFlush line = true := by
  induction cs using line_induction generalizing margins with
  | nil => exact ⟨rfl, hflush⟩
  | last l hl hne =>
    rw [lines_last hl hne] at hflush ⊢
    have hline := hflush l List.mem_cons_self
    have hagain := setLine_setLine style margins.head?.join hline
    have hflush' := isFlush_setLine style margins.head?.join hline
    have hnew := newline_not_mem_setLine style margins.head?.join hl
    simp only [CodeStyle.layout, List.append_nil]
    by_cases hnil : style.setLine margins.head?.join l = []
    · rw [hnil]
      exact ⟨rfl, nofun⟩
    · rw [lines_last hnew hnil]
      simp only [CodeStyle.layout, List.append_nil, List.forall_mem_singleton]
      exact ⟨hagain, hflush'⟩
  | line l cs hl ih =>
    rw [lines_newline hl, List.forall_mem_cons] at hflush
    obtain ⟨hline, hrest⟩ := hflush
    obtain ⟨hsame, hflush'⟩ := ih (margins.drop (ink (l ++ ['\n'])).length) hrest
    obtain ⟨l', hl', hset⟩ := setLine_newline style margins.head?.join hl
    have hink := ink_setLine style margins.head?.join hline
    have hagain := setLine_setLine style margins.head?.join hline
    have hflushed := isFlush_setLine style margins.head?.join hline
    rw [hset] at hink hagain hflushed
    have hlines : lines (style.layout margins (lines (l ++ '\n' :: cs))) =
        (l' ++ ['\n']) :: lines (style.layout (margins.drop (ink (l ++ ['\n'])).length)
          (lines cs)) := by
      rw [lines_newline hl, CodeStyle.layout, hset, List.append_assoc, List.singleton_append,
        lines_newline hl']
    rw [hlines, CodeStyle.layout, hagain, hink, hsame, lines_newline hl, CodeStyle.layout, hset,
      List.forall_mem_cons]
    exact ⟨rfl, hflushed, hflush'⟩

/-! ## The margins of a document -/

/-- The margins of the ink of a token.  A line may start with the token, and any
other ink is inside of it. -/
def inkMargins (column : Nat) : List Char → List (Option Nat)
  | [] => []
  | c :: cs => (if isBlank c then [] else [some column]) ++ (ink cs).map fun _ => none

/-- There is a margin for each character of ink. -/
theorem length_inkMargins (column : Nat) (cs : List Char) :
    (inkMargins column cs).length = (ink cs).length := by
  cases cs with
  | nil => rfl
  | cons c cs => cases hc : isBlank c <;> simp [inkMargins, ink, hc]

/-- Only the first ink of a token has a column. -/
theorem drop_inkMargins {column : Nat} {c : Char} (hc : isBlank c = false) (u v : List Char) :
    (inkMargins column (u ++ c :: v)).drop (ink u).length =
      (if u = [] then some column else none) :: (ink v).map fun _ => none := by
  cases u with
  | nil => simp [inkMargins, hc]
  | cons b u =>
    cases hb : isBlank b <;> simp [inkMargins, hb, ink_cons_of_blank, ink_cons_of_not_blank, hc]

namespace Tree

variable {t : Tree} {x : Nat} {tok : Token}

/-- The text of a leaf. -/
def charsAt (t : Tree) (x : NodeId) : List Char := (t.token? x).elim [] (·.text.toList)

/-- The text before a row. -/
def before (t : Tree) (x : NodeId) : List Char := (List.range x).flatMap t.charsAt

/-- The margins of the ink of a leaf. -/
def marginsAt (t : Tree) (style : CodeStyle) (x : NodeId) : List (Option Nat) :=
  (t.token? x).elim [] fun tok => inkMargins (t.column style x tok.kind) tok.text.toList

/-- The margins of the ink of the document. -/
def margins (t : Tree) (style : CodeStyle) : List (Option Nat) :=
  (List.range t.size).flatMap (t.marginsAt style)

theorem length_marginsAt (t : Tree) (style : CodeStyle) (x : NodeId) :
    (t.marginsAt style x).length = (ink (t.charsAt x)).length := by
  rw [marginsAt, charsAt]
  cases t.token? x with
  | none => rfl
  | some tok => exact length_inkMargins _ _

theorem before_succ (t : Tree) (x : NodeId) : t.before (x + 1) = t.before x ++ t.charsAt x := by
  simp [before, List.range_succ]

theorem length_flatMap_marginsAt (t : Tree) (style : CodeStyle) (x : NodeId) :
    ((List.range x).flatMap (t.marginsAt style)).length = (ink (t.before x)).length := by
  induction x with
  | zero => rfl
  | succ x ih =>
    rw [List.range_succ, List.flatMap_append, List.length_append, ih, before_succ, ink_append,
      List.length_append, List.flatMap_singleton, length_marginsAt]

theorem toList_join_text (t : Tree) (xs : List NodeId) :
    (String.join ((xs.filterMap t.token?).map (·.text))).toList = xs.flatMap t.charsAt := by
  induction xs with
  | nil => rfl
  | cons x xs ih =>
    rw [List.flatMap_cons, ← ih, charsAt]
    cases h : t.token? x <;> simp [h, String.join_cons]

/-- A character of a text that is put together row by row stands in one row. -/
theorem exists_row_of_flatMap {f : Nat → List Char} {n : Nat} {a b : List Char} {c : Char}
    (h : (List.range n).flatMap f = a ++ c :: b) :
    ∃ x u v, x < n ∧ a = (List.range x).flatMap f ++ u ∧ f x = u ++ c :: v := by
  induction n generalizing b with
  | zero =>
    have hlength := congrArg List.length h
    simp at hlength
  | succ n ih =>
    rw [List.range_succ, List.flatMap_append, List.flatMap_singleton] at h
    rcases List.append_eq_append_iff.mp h with ⟨u, ha, hn⟩ | ⟨w, hn, hb⟩
    · exact ⟨n, u, b, Nat.lt_succ_self n, ha, hn⟩
    · cases w with
      | nil =>
        refine ⟨n, [], b, Nat.lt_succ_self n, ?_, hb.symm⟩
        rw [hn, List.append_nil, List.append_nil]
      | cons d w =>
        obtain ⟨rfl, -⟩ := List.cons.inj hb
        obtain ⟨x, u, v, hx, ha, hc⟩ := ih hn
        exact ⟨x, u, v, Nat.lt_succ_of_lt hx, ha, hc⟩

/-- The margin of an ink is decided by its place in its leaf. -/
theorem margin_eq (style : CodeStyle) (h : t.token? x = some tok) {u v : List Char} {c : Char}
    (hc : isBlank c = false) (htext : tok.text.toList = u ++ c :: v) :
    ((t.margins style).drop (ink (t.before x ++ u)).length).head?.join =
      if u = [] then some (t.column style x tok.kind) else none := by
  have hrest := range_eq_append (lt_size_of_token? h)
  have hmargins : t.marginsAt style x = inkMargins (t.column style x tok.kind) (u ++ c :: v) := by
    simp [marginsAt, h, htext]
  rw [margins, hrest, List.flatMap_append, List.flatMap_cons, ink_append, List.length_append,
    ← length_flatMap_marginsAt t style, List.drop_length_add_append, hmargins,
    List.drop_append_of_le_length, drop_inkMargins hc]
  · rfl
  · rw [length_inkMargins, ink_append, List.length_append]
    exact Nat.le_add_right _ _

namespace Document

variable (doc : t.Document)

include doc

/-- The text of a document is that of its rows. -/
theorem toList_source : t.source.toList = t.before t.size := by
  rw [doc.source_eq, doc.tokens_eq, toList_join_text, before]

/-- A leaf starts behind the text before it. -/
theorem start_eq (h : t.token? x = some tok) : tok.start = byteCount (t.before x) := by
  have hrest := range_eq_append (lt_size_of_token? h)
  have htiled := doc.tiled
  rw [doc.tokens_eq, hrest, List.filterMap_append, List.filterMap_cons_some h,
    Tiles.append_iff] at htiled
  obtain ⟨m, hbefore, hstart, -⟩ := htiled
  rw [hstart, hbefore.stop_eq, Nat.zero_add, ← String.ofList_toList (s := String.join _),
    Text.utf8ByteSize_ofList, toList_join_text, before]

/-- Every character of the document stands in a leaf. -/
theorem exists_leaf {a b : List Char} {c : Char} (h : t.source.toList = a ++ c :: b) :
    ∃ x tok u v, t.token? x = some tok ∧ a = t.before x ++ u ∧ tok.text.toList = u ++ c :: v := by
  rw [doc.toList_source] at h
  obtain ⟨x, u, v, -, ha, hx⟩ := exists_row_of_flatMap h
  cases htok : t.token? x with
  | none => simp [charsAt, htok] at hx
  | some tok => exact ⟨x, tok, u, v, htok, ha, by simpa [charsAt, htok] using hx⟩

/-- A flush line is set by the margin of its first ink, where a token starts. -/
theorem reindentLine_eq_setLine (style : CodeStyle) {pre line post : List Char}
    (hsource : t.source.toList = pre ++ (line ++ post)) (hflush : isFlush line = true) :
    t.reindentLine style (byteCount pre) line =
      .ok (style.setLine ((t.margins style).drop (ink pre).length).head?.join line) := by
  rcases flush_cases hflush with hblank | ⟨indent, d, y, hindent, hd, rfl⟩
  · rw [reindentLine_of_blank hblank, setLine_of_blank _ _ hblank]
  · have hsplit : t.source.toList = (pre ++ indent) ++ d :: (y ++ post) := by
      rw [hsource]
      simp
    obtain ⟨x, tok, u, v, htok, heq, htext⟩ := doc.exists_leaf hsplit
    have hmargin := margin_eq style htok hd htext
    rw [← heq, ink_append, ink_indent hindent, List.append_nil] at hmargin
    have hfirst : byteCount pre + byteCount indent = tok.start + byteCount u := by
      rw [doc.start_eq htok, ← Text.byteCount_append, ← Text.byteCount_append, heq]
    have hleaf : t.leafAt? (byteCount pre + byteCount indent) = some x := by
      refine doc.leafAt?_eq_some_iff.mpr ⟨tok, htok, Token.contains_iff.mpr ?_⟩
      have hpos := Char.utf8Size_pos d
      rw [hfirst, Token.stop, Token.length, ← String.ofList_toList (s := tok.text),
        Text.utf8ByteSize_ofList, htext, Text.byteCount_append, Text.byteCount_cons]
      omega
    rw [hmargin, setLine_body _ _ hindent hd, reindentLine, takeWhile_indent hindent hd,
      dropWhile_indent hindent hd, if_neg (by simp [hd]), hleaf]
    simp only [token_of_token? htok, bind, Except.bind, hfirst]
    cases u with
    | nil =>
      rw [if_neg (by simp), if_pos rfl]
      rfl
    | cons b u =>
      have hpos := Char.utf8Size_pos b
      rw [if_pos (by rw [Text.byteCount_cons]; omega), if_neg (List.cons_ne_nil b u)]
      rfl

/-- The lines are set one by one, each by the margin of its first ink. -/
theorem reindentLines_eq_layout (style : CodeStyle) (pre : List Char) {ls : List (List Char)}
    (hsource : t.source.toList = pre ++ ls.flatten) (hflush : ∀ line ∈ ls, isFlush line = true) :
    t.reindentLines style (byteCount pre) ls =
      .ok (style.layout ((t.margins style).drop (ink pre).length) ls) := by
  induction ls generalizing pre with
  | nil => rfl
  | cons line ls ih =>
    rw [List.forall_mem_cons] at hflush
    rw [List.flatten_cons] at hsource
    have hrest := ih (pre ++ line) (by rw [hsource, List.append_assoc]) hflush.2
    rw [Text.byteCount_append, ink_append, List.length_append] at hrest
    rw [reindentLines, doc.reindentLine_eq_setLine style hsource hflush.1, hrest, CodeStyle.layout,
      List.drop_drop]
    rfl

/-- The text and the margins decide how a document is indented. -/
theorem reindent_eq_layout (style : CodeStyle)
    (hflush : ∀ line ∈ lines t.source.toList, isFlush line = true) :
    t.reindent style =
      .ok (String.ofList (style.layout (t.margins style) (lines t.source.toList))) := by
  have hlines := doc.reindentLines_eq_layout style [] (flatten_lines t.source.toList).symm hflush
  rw [Text.byteCount_nil, ink_nil, List.length_nil, List.drop_zero] at hlines
  rw [reindent, hlines]
  rfl

end Document

/-! ## A blank run more -/

/-- Rows are collected alike when a row is put in that adds nothing. -/
theorem flatMap_range_renumber {α : Type} {m : Nat} (hpos : 0 < m) {f g : Nat → List α}
    (h : ∀ x, g (renumber m x) = f x) (hm : g m = []) (n : Nat) :
    (List.range (renumber m n)).flatMap g = (List.range n).flatMap f := by
  induction n with
  | zero =>
    rw [renumber_of_lt hpos]
    rfl
  | succ n ih =>
    have hsucc : (List.range (renumber m (n + 1))).flatMap g =
        (List.range (renumber m n)).flatMap g ++ g (renumber m n) := by
      rcases Nat.lt_trichotomy (n + 1) m with hlt | rfl | hgt
      · rw [renumber_of_lt hlt, renumber_of_lt (Nat.lt_of_succ_lt hlt), List.range_succ,
          List.flatMap_append, List.flatMap_singleton]
      · rw [renumber_of_le (Nat.le_refl _), renumber_of_lt (Nat.lt_succ_self n), List.range_succ,
          List.range_succ, List.flatMap_append, List.flatMap_append, List.flatMap_singleton,
          List.flatMap_singleton, hm, List.append_nil]
      · have hle := Nat.le_of_lt_succ hgt
        rw [renumber_of_le (Nat.le_of_lt hgt), renumber_of_le hle, List.range_succ,
          List.flatMap_append, List.flatMap_singleton]
    rw [hsucc, ih, h, List.range_succ, List.flatMap_append, List.flatMap_singleton]

namespace Padded

variable {m place width : Nat} {t' : Tree} (pad : Padded m place width t t')

include pad

theorem bounds_eq (partition leaf : Nat) (kind : Kind) :
    t'.bounds (renumber m partition) (renumber m leaf) kind = t.bounds partition leaf kind := by
  rw [bounds, bounds, pad.firstVisible?_eq, map_renumber_beq, pad.parent?_eq, map_renumber_beq]

theorem depth_eq (leaf : Nat) (kind : Kind) :
    t'.depth (renumber m leaf) kind = t.depth leaf kind := by
  simp only [depth, pad.ancestors_eq, List.countP_map, Function.comp_def, pad.hasRule_eq,
    pad.bounds_eq]

theorem continuesQuery_eq (leaf : Nat) :
    t'.continuesQuery (renumber m leaf) = t.continuesQuery leaf := by
  rw [continuesQuery, continuesQuery, pad.ancestor?_eq]
  cases t.ancestor? .query leaf with
  | none => rfl
  | some query => simp [pad.firstVisible?_eq, Option.any_map, renumber_lt_renumber]

/-- The column of a leaf does not change. -/
theorem column_eq (style : CodeStyle) (leaf : Nat) (kind : Kind) :
    t'.column style (renumber m leaf) kind = t.column style leaf kind := by
  rw [column, column, pad.depth_eq, pad.continuesQuery_eq]

/-- The margins of a row do not change. -/
theorem marginsAt_eq (style : CodeStyle) (x : Nat) :
    t'.marginsAt style (renumber m x) = t.marginsAt style x := by
  rw [marginsAt, marginsAt, pad.token?_eq]
  cases t.token? x with
  | none => rfl
  | some tok => exact congrArg (inkMargins · tok.text.toList) (pad.column_eq style x tok.kind)

/-- A row without ink changes no margin. -/
theorem margins_eq (style : CodeStyle) (hink : ink (t'.charsAt m) = []) :
    t'.margins style = t.margins style := by
  have hnew : t'.marginsAt style m = [] := by
    rw [← List.length_eq_zero_iff, length_marginsAt, hink]
    rfl
  rw [margins, pad.size_eq]
  exact flatMap_range_renumber pad.pos (pad.marginsAt_eq style) hnew t.size

end Padded

end Tree

/-! ## Runs without blank runs -/

/-- The step adds a blank run. -/
def Step.addsBlanks : Step → Bool
  | .token .whitespace _ => true
  | _ => false

/-- A step taken apart.  A text is added token by token. -/
def Step.parts : Step → List Step
  | .text cs => (Token.scan cs).map fun tok => .token tok.kind tok.text
  | s => [s]

/-- The steps of a run, taken apart and without those that add a blank run. -/
def bare (steps : List Step) : List Step :=
  (steps.flatMap Step.parts).filter fun s => !s.addsBlanks

namespace Draft

theorem run_tokens (d : Draft) (toks : List Token) :
    d.run (toks.map fun tok => .token tok.kind tok.text) = (d.addTokens toks).1 := by
  induction toks generalizing d with
  | nil => rfl
  | cons tok toks ih =>
    rw [List.map_cons, run_cons, ih, step, addTokens, addToken_eq]
    by_cases hopen : d.openNodes = []
    · rw [if_pos hopen]
      show (d.addTokens toks).1 = d
      rw [addTokens_of_closed hopen]
    · rw [if_neg hopen]

/-- The same is built when tokens are added one by one. -/
theorem run_flatMap_parts (d : Draft) (steps : List Step) :
    d.run (steps.flatMap Step.parts) = d.run steps := by
  have hparts : ∀ (d : Draft) (s : Step), d.run s.parts = (d.step s).1 := by
    intro d s
    cases s with
    | text cs => exact run_tokens d (Token.scan cs)
    | _ => rfl
  induction steps generalizing d with
  | nil => rfl
  | cons s steps ih => rw [List.flatMap_cons, run_append, hparts, ih, run_cons]

end Draft

namespace Tree

variable {t t' : Tree} {steps steps' kept rest : List Step}

/-- The blank runs of a document are blank. -/
def BlanksAreBlank (t : Tree) : Prop :=
  ∀ x tok, t.token? x = some tok → tok.kind = .whitespace → ink tok.text.toList = []

/-- A token outside of every node is refused and leaves the draft as it was. -/
theorem ofSteps_refused (hopen : (Draft.empty.run kept).openNodes = []) (kind : Kind)
    (text : String) : ofSteps (kept ++ .token kind text :: rest) = ofSteps (kept ++ rest) := by
  rw [ofSteps, ofSteps, Draft.run_append, Draft.run_append, Draft.run_cons, Draft.step,
    Draft.addToken_eq, if_pos hopen]

/-- A tree has the margins of the tree without blank runs.  They are left out one by
one, from the first to the last, so that `kept` has none. -/
theorem exists_bare (style : CodeStyle) (h : ofSteps (kept ++ rest) = .ok t)
    (hblank : t.BlanksAreBlank) :
    ∃ t₀, ofSteps (kept ++ rest.filter fun s => !s.addsBlanks) = .ok t₀ ∧
      t.margins style = t₀.margins style := by
  induction rest generalizing kept t with
  | nil => exact ⟨t, h, rfl⟩
  | cons s rest ih =>
    cases hs : s.addsBlanks with
    | false =>
      rw [List.filter_cons_of_pos (by simp [hs]), List.append_cons]
      rw [List.append_cons] at h
      exact ih h hblank
    | true =>
      rw [List.filter_cons_of_neg (by simp [hs])]
      obtain ⟨text, rfl⟩ : ∃ text, s = .token .whitespace text := by
        unfold Step.addsBlanks at hs
        split at hs
        · exact ⟨_, rfl⟩
        · cases hs
      by_cases hopen : (Draft.empty.run kept).openNodes = []
      · rw [ofSteps_refused hopen] at h
        exact ih h hblank
      · obtain ⟨t₁, h₁, pad⟩ := exists_unpadded hopen rfl h
        have hnew := token?_of_added hopen h
        have hink : ink (t.charsAt (Draft.empty.run kept).nodes.size) = [] := by
          rw [charsAt, hnew]
          exact hblank _ _ hnew rfl
        have hblank₁ : t₁.BlanksAreBlank := by
          intro x tok htok hkind
          have htok' := pad.token?_eq x
          rw [htok, Option.map_some] at htok'
          have hink := hblank _ _ htok' hkind
          exact hink
        obtain ⟨t₀, h₀, hmargins⟩ := ih h₁ hblank₁
        exact ⟨t₀, h₀, by rw [pad.margins_eq style hink, hmargins]⟩

/-- Two runs that differ by blank runs have the same margins. -/
theorem margins_eq_of_bare_eq (style : CodeStyle) (h : ofSteps steps = .ok t)
    (h' : ofSteps steps' = .ok t') (hbare : bare steps = bare steps') (hblank : t.BlanksAreBlank)
    (hblank' : t'.BlanksAreBlank) : t.margins style = t'.margins style := by
  have hparts : ∀ steps : List Step, ofSteps steps = ofSteps ([] ++ steps.flatMap Step.parts) := by
    intro steps
    rw [ofSteps, ofSteps, List.nil_append, Draft.run_flatMap_parts]
  rw [hparts] at h h'
  obtain ⟨t₀, h₀, hmargins⟩ := exists_bare style h hblank
  obtain ⟨t₁, h₁, hmargins'⟩ := exists_bare style h' hblank'
  rw [List.nil_append, ← bare] at h₀ h₁
  rw [hbare, h₁] at h₀
  cases h₀
  rw [hmargins, hmargins']

end Tree

/-! ## Documents of scanned tokens -/

/-- The scanner reads the text of the token as this one token. -/
def Token.IsScanned (tok : Token) : Prop :=
  Token.scan tok.text = [⟨tok.kind, tok.text, 0⟩]

instance (tok : Token) : Decidable tok.IsScanned := inferInstanceAs (Decidable (_ = _))

/-- A lexeme of the kind `whitespace` is a blank run, because a word is a keyword or
an identifier. -/
theorem Grammar.IsLexeme.ink_eq_nil {cs w : List Char} (h : IsLexeme cs w .whitespace) :
    ink w = [] := by
  obtain ⟨k, -, hlongest, htags⟩ := h
  cases k with
  | blanks =>
    obtain ⟨c, v, hc, hv, rfl⟩ := mem_letter_mul.mp hlongest.mem
    rw [ink_cons_of_blank hc, SiddhiEditor.ink_eq_nil (mem_kstar_letter.mp hv)]
  | word =>
    obtain ⟨hkeyword, hidentifier⟩ := htags
    have hnone : ∀ k : Keyword, (String.ofList w).toLower ≠ k.spelling := by
      intro k hk
      cases (hkeyword k).mpr hk
    cases hidentifier.mpr hnone
  | number => rcases htags with ⟨hkind, -⟩ | ⟨hkind, -⟩ | ⟨hkind, -⟩ <;> cases hkind
  | mark =>
    obtain ⟨c, -, hmark | ⟨hkind, -⟩⟩ := htags
    · simp [punctuation] at hmark
    · cases hkind
  | lineComment => cases htags
  | blockComment => cases htags
  | string => cases htags

/-- A blank run of the scan has no ink. -/
theorem Token.IsScanned.ink_eq_nil {tok : Token} (h : tok.IsScanned)
    (hkind : tok.kind = .whitespace) : ink tok.text.toList = [] := by
  have hmem : (⟨tok.kind, tok.text, 0⟩ : Token) ∈ scanFrom 0 0 tok.text.toList := by
    rw [← scan, h]
    exact List.mem_cons_self
  obtain ⟨-, c, rest, -, -, hnext, htext⟩ := exists_next_of_mem_scanFrom hmem
  have hlexeme := Grammar.next_isLexeme c rest
  have hnext : tok.kind = _ := hnext
  have htext : tok.text = _ := htext
  rw [← hnext, hkind] at hlexeme
  rw [htext, String.toList_ofList]
  exact hlexeme.ink_eq_nil

/-- A document that has been re-indented, with its blank runs read anew, stays as it
is when it is re-indented again. -/
theorem Tree.reindent_idempotent {steps steps' : List Step} {t t' : Tree}
    (h : ofSteps steps = .ok t) (h' : ofSteps steps' = .ok t') (hbare : bare steps = bare steps')
    (hscan : ∀ tok ∈ t.tokens, tok.IsScanned) (hscan' : ∀ tok ∈ t'.tokens, tok.IsScanned)
    (hflush : ∀ line ∈ lines t.source.toList, isFlush line = true) (style : CodeStyle)
    (hsource : t.reindent style = .ok t'.source) : t'.reindent style = .ok t'.source := by
  have doc := document_of_ofSteps h
  have doc' := document_of_ofSteps h'
  have hmargins : t.margins style = t'.margins style := by
    refine margins_eq_of_bare_eq style h h' hbare ?_ ?_
    · intro x tok htok hkind
      exact (hscan tok (doc.mem_tokens.mpr ⟨x, htok⟩)).ink_eq_nil hkind
    · intro x tok htok hkind
      exact (hscan' tok (doc'.mem_tokens.mpr ⟨x, htok⟩)).ink_eq_nil hkind
  obtain ⟨hsame, hflush'⟩ := layout_layout style (t.margins style) t.source.toList hflush
  rw [doc.reindent_eq_layout style hflush, Except.ok.injEq, ← String.toList_inj,
    String.toList_ofList] at hsource
  rw [hsource] at hsame hflush'
  rw [doc'.reindent_eq_layout style hflush', ← hmargins, hsame, String.ofList_toList]

/-- A partition with a string over two lines and a blank line. -/
def Tree.raggedPartition : List Step :=
  [.openNode .siddhiApp, .openNode .partition, .text "partition\n\tbegin ", .openNode .query,
    .text "from S\r\nselect 'a\n b'", .closeNode, .token .whitespace "\n \t\r\n  ",
    .token (.keyword .end) "end", .closeNode, .closeNode]

/-- The same partition when it has been re-indented. -/
def Tree.alignedPartition : List Step :=
  [.openNode .siddhiApp, .openNode .partition, .text "partition\n\t begin ", .openNode .query,
    .text "from S\r\n\t\t  select 'a\n b'", .closeNode, .token .whitespace "\n\r\n",
    .text "end", .closeNode, .closeNode]

theorem Tree.reindent_idempotent_partition :
    ∃ t t', ofSteps raggedPartition = .ok t ∧ ofSteps alignedPartition = .ok t' ∧
      t.reindent { tabSize := 3, useTabs := true } = .ok t'.source ∧ t.source ≠ t'.source ∧
      t'.reindent { tabSize := 3, useTabs := true } = .ok t'.source :=
  ⟨_, _, rfl, rfl, by decide +kernel, by decide +kernel,
    @reindent_idempotent raggedPartition alignedPartition _ _ rfl rfl (by decide +kernel)
      (by decide +kernel) (by decide +kernel) (by decide +kernel) _ (by decide +kernel)⟩

end SiddhiEditor
