import Mathlib.Data.List.DropRight
import SiddhiEditor.Proofs.Idempotence

/-!
# What re-indentation keeps

The newlines of a document cut it into *pieces*.  Re-indenting goes piece by piece
and changes each in one of two ways (`PieceKept`).

* A blank piece is left with the carriage returns at its end, which belong to the
  line end.
* Any other piece changes the spaces and tabs that it starts with.

A line is a piece with its newline, if it has one, and the newline takes no part in
either change (`reindentLine_piece`).  So no newline is gained or lost, and the new
text has the pieces of the old one, in order (`reindentLines_started`).

Both changes leave the ink of a piece and the carriage returns at its end as they
are, and what they leave of every piece they leave of the document.
-/

namespace SiddhiEditor

open Text (isBlank byteCount)

/-! ## Pieces -/

/-- The carriage returns at the end of a piece. -/
def trailingReturns (piece : List Char) : List Char := piece.rtakeWhile (· == '\r')

/-- What re-indentation makes of a piece. -/
structure PieceKept (piece piece' : List Char) : Prop where
  /-- A blank piece is left with the carriage returns at its end. -/
  blank : piece.all isBlank = true → piece' = trailingReturns piece
  /-- Any other piece has its body behind other spaces and tabs. -/
  body : piece.all isBlank = false → piece'.dropWhile isIndent = piece.dropWhile isIndent

theorem trailingReturns_subset {piece : List Char} {c : Char} (h : c ∈ trailingReturns piece) :
    c ∈ piece :=
  (List.rtakeWhile_suffix _ piece).subset h

/-- Without a newline, only carriage returns end a line. -/
theorem lineEnd_eq_trailingReturns {l : List Char} (hl : '\n' ∉ l) :
    lineEnd l = trailingReturns l := by
  have hreverse : ∀ r : List Char, '\n' ∉ r →
      r.takeWhile isLineEnd = r.takeWhile (· == '\r') := by
    intro r hr
    induction r with
    | nil => rfl
    | cons c r ih =>
      rw [List.mem_cons, not_or] at hr
      have hc : isLineEnd c = (c == '\r') := by
        simp [isLineEnd, Ne.symm hr.1]
      rw [List.takeWhile_cons, List.takeWhile_cons, hc, ih hr.2]
  exact congrArg List.reverse (hreverse l.reverse fun hmem => hl (List.mem_reverse.mp hmem))

/-- Carriage returns at the end do not reach into what stands before a character of
another kind. -/
theorem trailingReturns_append {x y : List Char} (h : ∃ c ∈ y, c ≠ '\r') :
    trailingReturns (x ++ y) = trailingReturns y := by
  obtain ⟨c, hc, hne⟩ := h
  have hstops : (y.reverse.takeWhile (· == '\r')).length ≠ y.reverse.length := by
    intro hlength
    have hall := (List.takeWhile_prefix (l := y.reverse) (· == '\r')).eq_of_length hlength
    rw [List.takeWhile_eq_self_iff] at hall
    exact hne (beq_iff_eq.mp (hall c (List.mem_reverse.mpr hc)))
  change ((x ++ y).reverse.takeWhile (· == '\r')).reverse =
    (y.reverse.takeWhile (· == '\r')).reverse
  rw [List.reverse_append, List.takeWhile_append, if_neg hstops]

theorem ink_dropWhile (line : List Char) : ink (line.dropWhile isIndent) = ink line := by
  conv => rhs; rw [← List.takeWhile_append_dropWhile (p := isIndent) (l := line)]
  rw [ink_append, ink_indent fun _ => isIndent_of_mem_takeWhile, List.nil_append]

theorem trailingReturns_dropWhile {line : List Char} (h : line.all isBlank = false) :
    trailingReturns (line.dropWhile isIndent) = trailingReturns line := by
  have hbody : ∃ c ∈ line.dropWhile isIndent, c ≠ '\r' := by
    rw [← all_isBlank_dropWhile, List.all_eq_false] at h
    obtain ⟨c, hc, hblank⟩ := h
    refine ⟨c, hc, ?_⟩
    rintro rfl
    exact hblank rfl
  conv => rhs; rw [← List.takeWhile_append_dropWhile (p := isIndent) (l := line)]
  rw [trailingReturns_append hbody]

namespace PieceKept

variable {piece piece' : List Char} (kept : PieceKept piece piece')

include kept

/-- A piece keeps its ink. -/
theorem ink_eq : ink piece' = ink piece := by
  cases h : piece.all isBlank with
  | true =>
    rw [List.all_eq_true] at h
    rw [kept.blank (List.all_eq_true.mpr h), ink_eq_nil h]
    exact ink_eq_nil fun c hc => h c (trailingReturns_subset hc)
  | false => rw [← ink_dropWhile piece', kept.body h, ink_dropWhile]

/-- A piece keeps its carriage returns at the end, because it keeps its body. -/
theorem trailingReturns_eq : trailingReturns piece' = trailingReturns piece := by
  cases h : piece.all isBlank with
  | true =>
    rw [kept.blank h]
    exact List.rtakeWhile_idempotent _ _
  | false =>
    have h' : piece'.all isBlank = false := by
      rw [← all_isBlank_dropWhile, kept.body h, all_isBlank_dropWhile, h]
    rw [← trailingReturns_dropWhile h', kept.body h, trailingReturns_dropWhile h]

end PieceKept

/-! ## Lines and pieces -/

section Newline

variable {l newline : List Char} (h : newline = [] ∨ newline = ['\n'])

include h

theorem all_isBlank_line : (l ++ newline).all isBlank = l.all isBlank := by
  rcases h with rfl | rfl
  · rw [List.append_nil]
  · rw [List.all_append]
    exact Bool.and_true _

theorem takeWhile_line : (l ++ newline).takeWhile isIndent = l.takeWhile isIndent := by
  rcases h with rfl | rfl
  · rw [List.append_nil]
  · rw [List.takeWhile_append]
    split
    next hall =>
      rw [(List.takeWhile_prefix isIndent).eq_of_length hall]
      exact List.append_nil l
    next => rfl

theorem dropWhile_line : (l ++ newline).dropWhile isIndent = l.dropWhile isIndent ++ newline := by
  rcases h with rfl | rfl
  · rw [List.append_nil, List.append_nil]
  · exact dropWhile_newline l

end Newline

/-- A piece of a document, as a line with or without its newline, is re-indented to
a piece with the same line end. -/
theorem Tree.reindentLine_piece {t : Tree} (doc : t.Document) (style : CodeStyle) (start : Nat)
    {l newline : List Char} (hl : '\n' ∉ l) (hnewline : newline = [] ∨ newline = ['\n']) :
    ∃ l', '\n' ∉ l' ∧ PieceKept l l' ∧
      t.reindentLine style start (l ++ newline) = .ok (l' ++ newline) := by
  have hall : (l ++ newline).all isBlank = l.all isBlank := all_isBlank_line hnewline
  cases h : l.all isBlank with
  | true =>
    refine ⟨trailingReturns l, ?_, ⟨fun _ => rfl, ?_⟩, ?_⟩
    · exact fun hmem => hl (trailingReturns_subset hmem)
    · intro hfalse
      rw [h] at hfalse
      cases hfalse
    · rw [reindentLine_of_blank (hall.trans h), ← lineEnd_eq_trailingReturns hl]
      rcases hnewline with rfl | rfl
      · rw [List.append_nil, List.append_nil]
      · rw [lineEnd_newline]
  | false =>
    obtain ⟨indent, hindent, hline⟩ :=
      @reindentLine_of_not_blank t style start _ doc (hall.trans h)
    refine ⟨indent ++ l.dropWhile isIndent, ?_, ⟨?_, fun _ => ?_⟩, ?_⟩
    · intro hmem
      rcases List.mem_append.mp hmem with hmem | hmem
      · cases hindent _ hmem
      · exact hl ((List.dropWhile_suffix _).subset hmem)
    · intro htrue
      rw [h] at htrue
      cases htrue
    · rw [List.dropWhile_append_of_pos hindent, List.dropWhile_idempotent]
    · rw [hline, dropWhile_line hnewline, List.append_assoc]

/-- The pieces of a text, each with the offset that it starts at. -/
def startedPieces : (start : Nat) → List (List Char) → List (Nat × List Char)
  | _, [] => []
  | start, piece :: rest => (start, piece) :: startedPieces (start + byteCount piece + 1) rest

theorem map_snd_startedPieces (start : Nat) (pieces : List (List Char)) :
    (startedPieces start pieces).map Prod.snd = pieces := by
  induction pieces generalizing start with
  | nil => rfl
  | cons piece rest ih => rw [startedPieces, List.map_cons, ih]

/-- A piece that starts at the offset `start` becomes the piece `piece'`, as a line
with its newline if it has one. -/
def Tree.SetsPiece (t : Tree) (style : CodeStyle) (start : Nat) (piece piece' : List Char) : Prop :=
  ∃ newline, (newline = [] ∨ newline = ['\n']) ∧
    t.reindentLine style start (piece ++ newline) = .ok (piece' ++ newline)

/-- Re-indenting goes through a text piece by piece. -/
theorem Tree.reindentLines_started {t : Tree} (doc : t.Document) (style : CodeStyle) (start : Nat)
    (cs : List Char) :
    ∃ out, t.reindentLines style start (lines cs) = .ok out ∧
      List.Forall₂ (fun p piece' => PieceKept p.2 piece' ∧ t.SetsPiece style p.1 p.2 piece')
        (startedPieces start (cs.splitOn '\n')) (out.splitOn '\n') := by
  induction cs using line_induction generalizing start with
  | nil =>
    refine ⟨[], rfl, .cons ⟨⟨fun _ => rfl, fun _ => rfl⟩, [], .inl rfl, ?_⟩ .nil⟩
    exact reindentLine_of_blank rfl
  | last l hl hne =>
    obtain ⟨l', hl', kept, hline⟩ := reindentLine_piece doc style start hl (.inl rfl)
    have hset := hline
    rw [List.append_nil, List.append_nil] at hline
    refine ⟨l' ++ [], ?_, ?_⟩
    · rw [lines_last hl hne, reindentLines, hline]
      rfl
    · rw [List.append_nil, List.splitOn_eq_singleton hl, List.splitOn_eq_singleton hl']
      exact .cons ⟨kept, [], .inl rfl, hset⟩ .nil
  | line l cs hl ih =>
    obtain ⟨out, hout, hpieces⟩ := ih (start + byteCount (l ++ ['\n']))
    obtain ⟨l', hl', kept, hline⟩ := reindentLine_piece doc style start hl (.inr rfl)
    refine ⟨l' ++ ['\n'] ++ out, ?_, ?_⟩
    · rw [lines_newline hl, reindentLines, hline, hout]
      rfl
    · rw [← List.append_cons, List.splitOn_append_cons_self_of_not_mem hl,
        List.splitOn_append_cons_self_of_not_mem hl', startedPieces]
      rw [Text.byteCount_append, ← Nat.add_assoc] at hpieces
      exact .cons ⟨kept, ['\n'], .inr rfl, hline⟩ hpieces

/-- Lines that are reindented are kept piece by piece. -/
theorem Tree.reindentLines_pieces {t : Tree} (doc : t.Document) (style : CodeStyle) (start : Nat)
    (cs : List Char) :
    ∃ out, t.reindentLines style start (lines cs) = .ok out ∧
      List.Forall₂ PieceKept (cs.splitOn '\n') (out.splitOn '\n') := by
  obtain ⟨out, hout, hpieces⟩ := reindentLines_started doc style start cs
  refine ⟨out, hout, ?_⟩
  rw [← map_snd_startedPieces start (cs.splitOn '\n'), List.forall₂_map_left_iff]
  exact hpieces.imp fun _ _ h => h.1

/-- Newlines have no ink. -/
theorem ink_eq_flatMap_pieces (cs : List Char) : ink cs = (cs.splitOn '\n').flatMap ink := by
  induction cs using line_induction with
  | nil => rfl
  | last l hl hne => rw [List.splitOn_eq_singleton hl, List.flatMap_singleton]
  | line l cs hl ih =>
    rw [List.splitOn_append_cons_self_of_not_mem hl, List.flatMap_cons, ← ih, ink_append,
      ink_cons_of_blank rfl]

/-! ## The document -/

theorem map_eq_of_forall₂ {α β : Type} {R : α → α → Prop} {f : α → β}
    (hf : ∀ x y, R x y → f y = f x) {xs ys : List α} (h : List.Forall₂ R xs ys) :
    ys.map f = xs.map f := by
  induction h with
  | nil => rfl
  | cons hxy _ ih => rw [List.map_cons, List.map_cons, hf _ _ hxy, ih]

/-- Re-indenting a document succeeds in every style, and changes only blank pieces
and the spaces and tabs that other pieces start with.  The ink stays as it is, and
so does every line end. -/
theorem Tree.reindent_pieces {steps : List Step} {t : Tree} (h : ofSteps steps = .ok t)
    (style : CodeStyle) :
    ∃ out, t.reindent style = .ok out ∧
      (out.toList.splitOn '\n').length = (t.source.toList.splitOn '\n').length ∧
      List.Forall₂ PieceKept (t.source.toList.splitOn '\n') (out.toList.splitOn '\n') ∧
      ink out.toList = ink t.source.toList ∧
      (out.toList.splitOn '\n').map trailingReturns =
        (t.source.toList.splitOn '\n').map trailingReturns := by
  have doc := document_of_ofSteps h
  obtain ⟨out, hout, hpieces⟩ := reindentLines_pieces doc style 0 t.source.toList
  refine ⟨String.ofList out, ?_, ?_⟩
  · rw [reindent, hout]
    rfl
  · rw [String.toList_ofList]
    refine ⟨hpieces.length_eq.symm, hpieces, ?_, ?_⟩
    · have hink := map_eq_of_forall₂ (fun _ _ kept => kept.ink_eq) hpieces
      rw [ink_eq_flatMap_pieces out, ink_eq_flatMap_pieces t.source.toList]
      exact congrArg List.flatten hink
    · exact map_eq_of_forall₂ (fun _ _ kept => kept.trailingReturns_eq) hpieces

/-- A query with line ends of several forms, a line of a wide blank, and a string over
two lines. -/
def Tree.mixedLineEnds : List Step :=
  [.openNode .siddhiApp, .openNode .query,
    .text "from S\r\n \u3000\r\r\n\tselect 'a\n b'\n\r ", .closeNode, .closeNode]

theorem Tree.reindent_pieces_mixedLineEnds :
    ∃ t, ofSteps mixedLineEnds = .ok t ∧
      t.reindent {} = .ok "from S\r\n\r\r\n    select 'a\n b'\n" ∧
      List.Forall₂ PieceKept (t.source.toList.splitOn '\n')
        ("from S\r\n\r\r\n    select 'a\n b'\n".toList.splitOn '\n') := by
  have h : ofSteps mixedLineEnds = .ok (Draft.empty.run mixedLineEnds).tree := rfl
  have hout : (Draft.empty.run mixedLineEnds).tree.reindent {} =
      .ok "from S\r\n\r\r\n    select 'a\n b'\n" := by decide +kernel
  obtain ⟨out, hout', -, hpieces, -⟩ := reindent_pieces h {}
  cases hout'.symm.trans hout
  exact ⟨_, h, hout, hpieces⟩

end SiddhiEditor
