import SiddhiEditor.Layout.Reindent
import SiddhiEditor.Proofs.Answers
import SiddhiEditor.Proofs.Construction
import SiddhiEditor.Proofs.Scanning

/-!
# Re-indentation and tokens

Re-indenting a document changes nothing that the scanner sees, with one
exception.  A blank line loses its blanks even when it is part of a string, and
then the text of the string changes (`tidied`).

The proof goes through the document line by line, from its end.  At the start of
a line the scanner is in one of three places, and `Relaid` says for each of them
what the rest of the document and its new form have in common.

* Outside every token, or in a blank run.  Here the blanks in front of the line
  may change.
* Inside a string.  A line that is not blank is kept, since no token starts at its
  first character.
* Inside a block comment.  The same holds, and what the comment says does not
  count.
-/

namespace SiddhiEditor

open Text (isBlank byteCount)
open Lexeme (run stringEnd blockEnd IsQuote)
open Token (Reaches visibleIn visible)

/-! ## Lines -/

/-- A line ends behind its line break. -/
theorem lines_newline {l : List Char} (hl : '\n' ∉ l) (cs : List Char) :
    lines (l ++ '\n' :: cs) = (l ++ ['\n']) :: lines cs := by
  induction l with
  | nil => rfl
  | cons c l ih =>
    rw [List.mem_cons, not_or] at hl
    rw [List.cons_append, lines, if_neg (by simpa using Ne.symm hl.1), ih hl.2]
    rfl

theorem lines_last {l : List Char} (hl : '\n' ∉ l) (hne : l ≠ []) : lines l = [l] := by
  induction l with
  | nil => exact absurd rfl hne
  | cons c l ih =>
    rw [List.mem_cons, not_or] at hl
    rw [lines, if_neg (by simpa using Ne.symm hl.1)]
    cases l with
    | nil => rfl
    | cons d l => rw [ih hl.2 (List.cons_ne_nil d l)]

/-- Induction on the lines of a text, from the last one. -/
theorem line_induction {motive : List Char → Prop} (nil : motive [])
    (last : ∀ l, '\n' ∉ l → l ≠ [] → motive l)
    (line : ∀ l cs, '\n' ∉ l → motive cs → motive (l ++ '\n' :: cs)) (cs : List Char) :
    motive cs := by
  by_cases hmem : '\n' ∈ cs
  · obtain ⟨l, rest, heq, hl⟩ := List.eq_append_cons_of_mem hmem
    have hlt : rest.length < cs.length := by
      rw [heq]
      simp only [List.length_append, List.length_cons]
      omega
    rw [heq]
    exact line l rest hl (line_induction nil last line rest)
  · cases cs with
    | nil => exact nil
    | cons c cs => exact last (c :: cs) hmem (List.cons_ne_nil c cs)
termination_by cs.length

theorem isBlank_of_isIndent {c : Char} (h : isIndent c = true) : isBlank c = true := by
  simp only [isIndent, Bool.or_eq_true, beq_iff_eq] at h
  rcases h with rfl | rfl <;> decide

theorem isIndent_of_mem_takeWhile {line : List Char} {c : Char}
    (h : c ∈ line.takeWhile isIndent) : isIndent c = true :=
  List.all_eq_true.mp List.all_takeWhile c h

theorem all_isBlank_dropWhile (line : List Char) :
    (line.dropWhile isIndent).all isBlank = line.all isBlank := by
  have hindent : (line.takeWhile isIndent).all isBlank = true :=
    List.all_eq_true.mpr fun c hc => isBlank_of_isIndent (isIndent_of_mem_takeWhile hc)
  conv => rhs; rw [← List.takeWhile_append_dropWhile (p := isIndent) (l := line)]
  rw [List.all_append, hindent, Bool.true_and]

/-- A line that is not blank has a body behind its indentation. -/
theorem exists_body {line : List Char} (h : line.all isBlank = false) :
    ∃ d y, line = line.takeWhile isIndent ++ d :: y := by
  have hbody : line.dropWhile isIndent ≠ [] := by
    intro heq
    rw [← all_isBlank_dropWhile, heq] at h
    cases h
  obtain ⟨d, y, hd⟩ := List.exists_cons_of_ne_nil hbody
  exact ⟨d, y, by rw [← hd, List.takeWhile_append_dropWhile]⟩

/-- The indentation of a line does not reach the end of a string. -/
theorem indent_lt_stringEnd {q : Char} (hq : IsQuote q) {line : List Char}
    (h : line.all isBlank = false) (rest : List Char) :
    (line.takeWhile isIndent).length < stringEnd q (line ++ rest) := by
  obtain ⟨d, y, hline⟩ := exists_body h
  have hmem : q ∉ line.takeWhile isIndent := by
    intro hmem
    have hblank := isBlank_of_isIndent (isIndent_of_mem_takeWhile hmem)
    rw [hq.isBlank_eq] at hblank
    cases hblank
  conv => rhs; rw [hline]
  rw [List.append_assoc, Lexeme.stringEnd_append hmem, List.cons_append, stringEnd]
  split <;> omega

/-- The indentation of a line does not reach the end of a block comment. -/
theorem indent_lt_blockEnd {line : List Char} (h : line.all isBlank = false) (rest : List Char) :
    (line.takeWhile isIndent).length < blockEnd (line ++ rest) := by
  obtain ⟨d, y, hline⟩ := exists_body h
  have hmem : '*' ∉ line.takeWhile isIndent := by
    intro hmem
    cases isIndent_of_mem_takeWhile hmem
  conv => rhs; rw [hline]
  rw [List.append_assoc, Lexeme.blockEnd_append hmem, List.cons_append, Lexeme.blockEnd_cons]
  split <;> omega

/-- The end of a line is made of its characters. -/
theorem lineEnd_subset {line : List Char} {c : Char} (h : c ∈ lineEnd line) : c ∈ line := by
  rw [lineEnd, List.mem_reverse] at h
  exact List.mem_reverse.mp ((List.takeWhile_prefix isLineEnd).subset h)

/-! ## Tidy texts -/

/-- A line that is not blank, or the end of a blank line. -/
def tidyLine (line : List Char) : List Char := if line.all isBlank then lineEnd line else line

/-- A text whose blank lines have lost their blanks. -/
def tidied (cs : List Char) : List Char := (lines cs).flatMap tidyLine

/-- A token whose text is tidied if it is a string. -/
def tidyToken (tok : Kind × String) : Kind × String :=
  if tok.1 = .stringLiteral then (tok.1, String.ofList (tidied tok.2.toList)) else tok

/-- A text is tidied line by line. -/
theorem tidied_newline {l : List Char} (hl : '\n' ∉ l) (cs : List Char) :
    tidied (l ++ '\n' :: cs) = tidyLine (l ++ ['\n']) ++ tidied cs := by
  rw [tidied, lines_newline hl, List.flatMap_cons, tidied]

theorem tidied_last {l : List Char} (hl : '\n' ∉ l) : tidied l = tidyLine l := by
  cases l with
  | nil => rfl
  | cons c l => rw [tidied, lines_last hl (List.cons_ne_nil c l), List.flatMap_singleton]

theorem length_tidyLine_le (line : List Char) : (tidyLine line).length ≤ line.length := by
  rw [tidyLine]
  split
  · rw [lineEnd, List.length_reverse, ← @List.length_reverse _ line]
    exact (List.takeWhile_prefix isLineEnd).length_le
  · exact Nat.le_refl _

/-- The lines put the text together. -/
theorem flatten_lines (cs : List Char) : (lines cs).flatten = cs := by
  induction cs using line_induction with
  | nil => rfl
  | last l hl hne => rw [lines_last hl hne, List.flatten_singleton]
  | line l cs hl ih => rw [lines_newline hl, List.flatten_cons, ih, ← List.append_cons]

/-- A text is tidy when its blank lines consist of their line ends. -/
theorem tidied_eq_self_iff {cs : List Char} :
    tidied cs = cs ↔ ∀ line ∈ lines cs, line.all isBlank = true → lineEnd line = line := by
  have hlines : ∀ ls : List (List Char), (ls.flatMap tidyLine).length ≤ ls.flatten.length ∧
      (ls.flatMap tidyLine = ls.flatten ↔ ∀ line ∈ ls, tidyLine line = line) := by
    intro ls
    induction ls with
    | nil => simp
    | cons line ls ih =>
      have hle := length_tidyLine_le line
      obtain ⟨hles, hiff⟩ := ih
      rw [List.flatMap_cons, List.flatten_cons, List.length_append, List.length_append,
        List.forall_mem_cons, ← hiff]
      refine ⟨by omega, fun heq => ?_, fun heq => by rw [heq.1, heq.2]⟩
      have hlength := congrArg List.length heq
      rw [List.length_append, List.length_append] at hlength
      exact List.append_inj heq (by omega)
  have hiff := (hlines (lines cs)).2
  rw [flatten_lines] at hiff
  rw [tidied, hiff]
  refine forall_congr' fun line => forall_congr' fun _ => ?_
  rw [tidyLine]
  split
  next hblank => simp [hblank]
  next hblank => simp [hblank]

/-- A line that is not blank is kept. -/
theorem tidyLine_of_mem {line : List Char} {c : Char} (hc : c ∈ line) (hblank : isBlank c = false) :
    tidyLine line = line := by
  refine if_neg fun hall => ?_
  rw [List.all_eq_true] at hall
  rw [hall c hc] at hblank
  cases hblank

/-! ## One line -/

namespace Tree

variable {t : Tree} {style : CodeStyle} {start : Nat} {line : List Char}

theorem isIndent_of_mem_blanks {columns : Nat} {c : Char} (h : c ∈ style.blanks columns) :
    isIndent c = true := by
  have hreplicate : ∀ {n : Nat} {d : Char}, isIndent d = true → c ∈ List.replicate n d →
      isIndent c = true := by
    intro n d hd hc
    rw [List.eq_of_mem_replicate hc]
    exact hd
  rw [CodeStyle.blanks] at h
  split at h
  · rcases List.mem_append.mp h with h | h
    · exact hreplicate rfl h
    · exact hreplicate rfl h
  · exact hreplicate rfl h

/-- Of a blank line only its end is kept. -/
theorem reindentLine_of_blank (h : line.all isBlank = true) :
    t.reindentLine style start line = .ok (lineEnd line) := by
  rw [reindentLine, all_isBlank_dropWhile, if_pos h]

variable (doc : t.Document)

include doc

/-- A line that is not blank changes only the blanks it starts with. -/
theorem reindentLine_of_not_blank (h : line.all isBlank = false) :
    ∃ indent, (∀ c ∈ indent, isIndent c = true) ∧
      t.reindentLine style start line = .ok (indent ++ line.dropWhile isIndent) := by
  have hkept : ∃ indent, (∀ c ∈ indent, isIndent c = true) ∧
      line = indent ++ line.dropWhile isIndent :=
    ⟨line.takeWhile isIndent, fun _ => isIndent_of_mem_takeWhile,
      List.takeWhile_append_dropWhile.symm⟩
  rw [reindentLine, all_isBlank_dropWhile, if_neg (by simp [h])]
  split
  · obtain ⟨indent, hindent, heq⟩ := hkept
    exact ⟨indent, hindent, congrArg Except.ok heq⟩
  · rename_i leaf hleaf
    obtain ⟨tok, htok, -⟩ := doc.leafAt?_eq_some_iff.mp hleaf
    simp only [token_of_token? htok, bind, Except.bind]
    split
    · obtain ⟨indent, hindent, heq⟩ := hkept
      exact ⟨indent, hindent, congrArg Except.ok heq⟩
    · exact ⟨_, fun _ => isIndent_of_mem_blanks, rfl⟩

/-- A line that is reindented has the same visible tokens, whatever follows. -/
theorem visibleIn_reindentLine {line' : List Char}
    (h : t.reindentLine style start line = .ok line') (x : List Char) :
    visibleIn (line' ++ x) = visibleIn (line ++ x) := by
  cases hblank : line.all isBlank with
  | true =>
    cases (reindentLine_of_blank hblank).symm.trans h
    rw [List.all_eq_true] at hblank
    rw [Token.visibleIn_blanks hblank,
      Token.visibleIn_blanks fun c hc => hblank c (lineEnd_subset hc)]
  | false =>
    obtain ⟨indent, hindent, hline⟩ := reindentLine_of_not_blank doc hblank
    cases hline.symm.trans h
    have hsplit : line ++ x = line.takeWhile isIndent ++ (line.dropWhile isIndent ++ x) := by
      rw [← List.append_assoc, List.takeWhile_append_dropWhile]
    rw [hsplit, List.append_assoc,
      Token.visibleIn_blanks fun c hc => isBlank_of_isIndent (hindent c hc),
      Token.visibleIn_blanks fun c hc => isBlank_of_isIndent (isIndent_of_mem_takeWhile hc)]

/-- A line that starts inside a token is kept unless it is blank, when the token
goes on behind the blanks that the line starts with. -/
theorem reindentLine_of_inside {skip : Nat} {rest : List Char}
    (hreach : Reaches t.tokens start skip (line ++ rest))
    (hskip : line.all isBlank = false → (line.takeWhile isIndent).length < skip) :
    t.reindentLine style start line = .ok (tidyLine line) := by
  cases h : line.all isBlank with
  | true => rw [reindentLine_of_blank h, tidyLine, if_pos h]
  | false =>
    have hlt : start + byteCount (line.takeWhile isIndent) <
        start + byteCount ((line ++ rest).take skip) := by
      obtain ⟨d, y, hline⟩ := exists_body h
      have happend : line ++ rest = line.takeWhile isIndent ++ d :: (y ++ rest) := by
        rw [← List.cons_append, ← List.append_assoc, ← hline]
      rw [happend]
      exact Nat.add_lt_add_left (Text.byteCount_lt_take (hskip h)) start
    rw [reindentLine, all_isBlank_dropWhile, if_neg (by simp [h]), tidyLine, if_neg (by simp [h])]
    split
    · rfl
    · rename_i leaf hleaf
      obtain ⟨tok, htok, hcontains⟩ := doc.leafAt?_eq_some_iff.mp hleaf
      rw [Token.contains_iff] at hcontains
      have hstart := hreach.start_lt (doc.mem_tokens.mpr ⟨leaf, htok⟩) hcontains.1 hlt
      simp only [token_of_token? htok, bind, Except.bind]
      rw [if_pos (Nat.lt_of_lt_of_le hstart (Nat.le_add_right _ _))]
      rfl

end Tree

/-! ## The three places of the scanner -/

section Places

variable {toks : List Token} {start : Nat}

/-- The scanner is between tokens or inside a blank run. -/
def Outside (toks : List Token) (start : Nat) (cs : List Char) : Prop :=
  Reaches toks start 0 cs ∨ Reaches toks start (run isBlank cs) cs

/-- Behind a blank the text goes on outside of a token. -/
theorem Outside.blank {c : Char} {cs : List Char} (h : Outside toks start (c :: cs))
    (hc : isBlank c = true) : Outside toks (start + c.utf8Size) cs := by
  rcases h with h | h
  · have hnext := h.begin_token
    rw [Lexeme.next, if_pos hc] at hnext
    exact .inr hnext
  · rw [Lexeme.run_cons, if_pos hc] at h
    exact .inr h.inside

/-- Ink outside of a token starts one. -/
theorem Outside.reaches {c : Char} {cs : List Char} (h : Outside toks start (c :: cs))
    (hc : isBlank c = false) : Reaches toks start 0 (c :: cs) := by
  rcases h with h | h
  · exact h
  · rwa [Lexeme.run_cons, if_neg (by simp [hc])] at h

/-- What the rest `cs` of a document and its new form `out` have in common, for
each place that the scanner may be in.  A string is also compared up to its
end. -/
structure Relaid (toks : List Token) (start : Nat) (cs out : List Char) : Prop where
  /-- The scanner is outside. -/
  outside : Outside toks start cs → visibleIn out = (visibleIn cs).map tidyToken
  /-- The scanner is inside a string. -/
  string : ∀ q, IsQuote q → Reaches toks start (stringEnd q cs) cs →
    out.take (stringEnd q out) = tidied (cs.take (stringEnd q cs)) ∧
      visibleIn (out.drop (stringEnd q out)) =
        (visibleIn (cs.drop (stringEnd q cs))).map tidyToken
  /-- The scanner is inside a block comment. -/
  block : Reaches toks start (blockEnd cs) cs →
    visibleIn (out.drop (blockEnd out)) = (visibleIn (cs.drop (blockEnd cs))).map tidyToken

/-- The end of a line and all that follows, and the same in the new form. -/
def Continues (toks : List Token) (start : Nat) (rest rest' : List Char) : Prop :=
  rest = [] ∧ rest' = [] ∨
    ∃ cs out, rest = '\n' :: cs ∧ rest' = '\n' :: out ∧
      Relaid toks (start + ('\n').utf8Size) cs out

/-- What follows a line starts with the same character in the new form. -/
theorem Continues.head?_eq {rest rest' : List Char} (h : Continues toks start rest rest') :
    rest.head? = rest'.head? := by
  rcases h with ⟨rfl, rfl⟩ | ⟨cs, out, rfl, rfl, -⟩ <;> rfl

/-! ## The rest of a line -/

/-- A string that is still open behind `b`. -/
theorem visibleIn_string {q : Char} (hq : IsQuote q) {b : List Char} (hb : q ∉ b)
    (x : List Char) :
    visibleIn (q :: (b ++ x)) =
      (.stringLiteral, String.ofList (q :: (b ++ x.take (stringEnd q x)))) ::
        visibleIn (x.drop (stringEnd q x)) := by
  rw [Token.visibleIn_cons, Lexeme.next_quote hq, Lexeme.stringEnd_append hb,
    List.take_length_add_append, List.drop_length_add_append]
  rfl

/-- A block comment that is still open behind `b`. -/
theorem visibleIn_block {b x : List Char} (hb : blockEnd (b ++ x) = b.length + blockEnd x) :
    visibleIn ('/' :: '*' :: (b ++ x)) = visibleIn (x.drop (blockEnd x)) := by
  rw [Token.visibleIn_cons, Lexeme.next_blockComment, hb, List.drop_succ_cons,
    List.drop_length_add_append]
  rfl

/-- A lexeme on one line has a tidy text. -/
theorem map_tidyToken {kind : Kind} {c : Char} {w : List Char} (hc : isBlank c = false)
    (hline : '\n' ∉ c :: w) :
    (if kind.isTrivia then [] else [(kind, String.ofList (c :: w))]).map tidyToken =
      if kind.isTrivia then [] else [(kind, String.ofList (c :: w))] := by
  have htidy : tidied (c :: w) = c :: w := by
    rw [tidied_last hline, tidyLine_of_mem List.mem_cons_self hc]
  split
  · rfl
  · simp [tidyToken, htidy]

/-- The line ends inside a string, which goes on in the next line. -/
theorem visibleIn_rest_string {q : Char} (hq : IsQuote q) {w cs out : List Char}
    (hw : '\n' ∉ w) (hmem : q ∉ w) (relaid : Relaid toks (start + byteCount (w ++ ['\n'])) cs out)
    (h : Reaches toks start (stringEnd q (w ++ '\n' :: cs)) (w ++ '\n' :: cs)) :
    visibleIn (q :: (w ++ '\n' :: out)) =
      (visibleIn (q :: (w ++ '\n' :: cs))).map tidyToken := by
  have hline : '\n' ∉ q :: w := by
    rw [List.mem_cons, not_or]
    exact ⟨hq.ne_newline.symm, hw⟩
  have hopen : q ∉ w ++ ['\n'] := by
    rw [List.mem_append, List.mem_singleton, not_or]
    exact ⟨hmem, hq.ne_newline⟩
  have hblank := hq.isBlank_eq
  have htidy : ∀ x, tidied (q :: (w ++ ['\n'] ++ x)) = q :: (w ++ ['\n'] ++ tidied x) := by
    intro x
    rw [List.append_assoc, List.singleton_append, ← List.cons_append, tidied_newline hline,
      tidyLine_of_mem (List.mem_append_left _ List.mem_cons_self) hblank]
    rfl
  rw [List.append_cons, Lexeme.stringEnd_append hopen] at h
  obtain ⟨htext, hvisible⟩ := relaid.string q hq h.append
  rw [List.append_cons w _ out, List.append_cons w _ cs, visibleIn_string hq hopen,
    visibleIn_string hq hopen, List.map_cons, hvisible, htext, tidyToken, if_pos rfl]
  simp only [String.toList_ofList, htidy]

/-- The line ends inside a block comment, which goes on in the next line. -/
theorem visibleIn_rest_block {v cs out : List Char}
    (hopen : ∀ x, blockEnd (v ++ '\n' :: x) = v.length + 1 + blockEnd x)
    (relaid : Relaid toks (start + byteCount (v ++ ['\n'])) cs out)
    (h : Reaches toks start (blockEnd (v ++ '\n' :: cs)) (v ++ '\n' :: cs)) :
    visibleIn ('/' :: '*' :: (v ++ '\n' :: out)) =
      (visibleIn ('/' :: '*' :: (v ++ '\n' :: cs))).map tidyToken := by
  have hblock : ∀ x, blockEnd (v ++ ['\n'] ++ x) = (v ++ ['\n']).length + blockEnd x := by
    intro x
    rw [← List.append_cons, hopen, List.length_append]
    rfl
  rw [List.append_cons, hblock] at h
  rw [List.append_cons v _ out, List.append_cons v _ cs, visibleIn_block (hblock out),
    visibleIn_block (hblock cs)]
  exact relaid.block h.append

/-- The line ends inside the lexeme that starts with `c`. -/
theorem visibleIn_rest_crossing {c : Char} (hc : isBlank c = false) {w cs out : List Char}
    (hw : '\n' ∉ w) (hcross : w.length < (Lexeme.next c (w ++ '\n' :: cs)).2)
    (relaid : Relaid toks (start + byteCount (w ++ ['\n'])) cs out)
    (h : Reaches toks start (Lexeme.next c (w ++ '\n' :: cs)).2 (w ++ '\n' :: cs)) :
    visibleIn (c :: (w ++ '\n' :: out)) =
      (visibleIn (c :: (w ++ '\n' :: cs))).map tidyToken := by
  rcases Lexeme.next_cases (w := w) hc (Lexeme.endsLine_newline cs) with
    hle | hquote | ⟨rfl, v, rfl⟩
  · omega
  · rw [Lexeme.next_quote hquote] at hcross h
    have hmem : c ∉ w := by
      intro hmem
      have hle := Lexeme.stringEnd_le_of_mem hmem ('\n' :: cs)
      omega
    exact visibleIn_rest_string hquote hw hmem relaid h
  · rw [List.cons_append, Lexeme.next_blockComment] at hcross h
    rcases Lexeme.blockEnd_newline v cs with hle | hopen
    · rw [List.length_cons] at hcross
      omega
    · rw [List.cons_append, Text.byteCount_cons, ← Nat.add_assoc] at relaid
      exact visibleIn_rest_block hopen relaid h.inside

/-- The visible tokens of a document from the middle of a line on.  A lexeme that ends
in the line is the same in the new form. -/
theorem visibleIn_rest {start : Nat} {b rest rest' : List Char} (hb : '\n' ∉ b)
    (h : Outside toks start (b ++ rest))
    (hrest : Continues toks (start + byteCount b) rest rest') :
    visibleIn (b ++ rest') = (visibleIn (b ++ rest)).map tidyToken := by
  cases b with
  | nil =>
    rcases hrest with ⟨rfl, rfl⟩ | ⟨cs, out, rfl, rfl, relaid⟩
    · rfl
    · have hblank : isBlank '\n' = true := rfl
      rw [List.nil_append, List.nil_append, Token.visibleIn_blank hblank,
        Token.visibleIn_blank hblank]
      exact relaid.outside (h.blank hblank)
  | cons c w =>
    rw [List.cons_append] at h
    rw [Text.byteCount_cons, ← Nat.add_assoc] at hrest
    have hw : '\n' ∉ w := fun hmem => hb (List.mem_cons_of_mem c hmem)
    cases hc : isBlank c with
    | true =>
      rw [List.cons_append, List.cons_append, Token.visibleIn_blank hc, Token.visibleIn_blank hc]
      exact visibleIn_rest hw (h.blank hc) hrest
    | false =>
      have hreach := (h.reaches hc).begin_token
      rcases Nat.lt_or_ge w.length (Lexeme.next c (w ++ rest)).2 with hcross | hle
      · rcases hrest with ⟨rfl, rfl⟩ | ⟨cs, out, rfl, rfl, relaid⟩
        · have hle := Lexeme.next_le c (w ++ [])
          rw [List.length_append, List.length_nil] at hle
          omega
        · refine visibleIn_rest_crossing hc hw hcross ?_ hreach
          rwa [Text.byteCount_append, ← Nat.add_assoc]
      · have hline : '\n' ∉ c :: w.take (Lexeme.next c (w ++ rest)).2 := by
          rw [List.mem_cons, not_or] at hb ⊢
          exact ⟨hb.1, fun hmem => hw (List.mem_of_mem_take hmem)⟩
        have htail : '\n' ∉ w.drop (Lexeme.next c (w ++ rest)).2 := fun hmem =>
          hw (List.mem_of_mem_drop hmem)
        rw [List.cons_append, List.cons_append, Token.visibleIn_cons, Token.visibleIn_cons,
          Lexeme.next_local hrest.head?_eq hle, List.take_append_of_le_length hle,
          List.take_append_of_le_length hle, List.drop_append_of_le_length hle,
          List.drop_append_of_le_length hle, List.map_append, map_tidyToken hc hline]
        congr 1
        refine visibleIn_rest htail (.inl (hreach.drop hle)) ?_
        rwa [Nat.add_assoc _ (byteCount (w.take _)), ← Text.byteCount_append,
          List.take_append_drop]
termination_by b.length

/-! ## A line that starts inside a token -/

theorem Continues.take_append_drop {rest rest' : List Char}
    (h : Continues toks start rest rest') : rest.take 1 ++ rest'.drop 1 = rest' := by
  rcases h with ⟨rfl, rfl⟩ | ⟨cs, out, rfl, rfl, -⟩ <;> rfl

theorem tidyLine_subset {line : List Char} {c : Char} (h : c ∈ tidyLine line) : c ∈ line := by
  rw [tidyLine] at h
  split at h
  · exact lineEnd_subset h
  · exact h

/-- A line inside a string.  If the string ends in the line, the line is kept, and
otherwise it is a line of the string. -/
theorem Relaid.string_line {q : Char} (hq : IsQuote q) {b rest rest' out : List Char}
    (hb : '\n' ∉ b) (hrest : Continues toks (start + byteCount b) rest rest')
    (hout : out = tidyLine (b ++ rest.take 1) ++ rest'.drop 1)
    (h : Reaches toks start (stringEnd q (b ++ rest)) (b ++ rest)) :
    out.take (stringEnd q out) = tidied ((b ++ rest).take (stringEnd q (b ++ rest))) ∧
      visibleIn (out.drop (stringEnd q out)) =
        (visibleIn ((b ++ rest).drop (stringEnd q (b ++ rest)))).map tidyToken := by
  have hblank := hq.isBlank_eq
  by_cases hmem : q ∈ b
  · rw [tidyLine_of_mem (List.mem_append_left _ hmem) hblank, List.append_assoc,
      hrest.take_append_drop] at hout
    obtain ⟨x, y, rfl, hx⟩ := List.eq_append_cons_of_mem hmem
    have hend : ∀ r, stringEnd q (x ++ [q] ++ r) = (x ++ [q]).length := by
      intro r
      rw [List.append_assoc, Lexeme.stringEnd_append hx, List.singleton_append, stringEnd,
        if_pos (beq_self_eq_true q), List.length_append]
      rfl
    have hline : '\n' ∉ x ++ [q] := by
      intro hnl
      rw [List.append_cons] at hb
      exact hb (List.mem_append_left y hnl)
    have hy : '\n' ∉ y := fun hnl =>
      hb (List.mem_append_right x (List.mem_cons_of_mem q hnl))
    rw [List.append_cons, Text.byteCount_append, ← Nat.add_assoc] at hrest
    rw [List.append_cons, List.append_assoc] at hout h ⊢
    rw [hend] at h
    rw [hout, hend, hend, List.take_left, List.take_left, List.drop_left, List.drop_left,
      tidied_last hline, tidyLine_of_mem (List.mem_append_right x List.mem_cons_self) hblank]
    exact ⟨rfl, visibleIn_rest hy (.inl h.append) hrest⟩
  · rcases hrest with ⟨rfl, rfl⟩ | ⟨cs, next, rfl, rfl, relaid⟩
    · simp only [List.take_nil, List.drop_nil, List.append_nil] at hout ⊢
      have hout' : q ∉ out := by
        rw [hout]
        exact fun hq => hmem (tidyLine_subset hq)
      have hend : ∀ {l : List Char}, q ∉ l → stringEnd q l = l.length := by
        intro l hl
        have happend := Lexeme.stringEnd_append hl []
        rwa [List.append_nil] at happend
      rw [hend hmem, hend hout', List.take_length, List.take_length, List.drop_length,
        List.drop_length, tidied_last hb]
      exact ⟨hout, rfl⟩
    · have hline : q ∉ b ++ ['\n'] := by
        rw [List.mem_append, List.mem_singleton, not_or]
        exact ⟨hmem, hq.ne_newline⟩
      have hline' : q ∉ tidyLine (b ++ ['\n']) := fun hq => hline (tidyLine_subset hq)
      have hout : out = tidyLine (b ++ ['\n']) ++ next := hout
      rw [List.append_cons, Lexeme.stringEnd_append hline] at h ⊢
      have hreach := h.append
      rw [Text.byteCount_append, ← Nat.add_assoc] at hreach
      obtain ⟨htext, hvisible⟩ := relaid.string q hq hreach
      rw [hout, Lexeme.stringEnd_append hline', List.take_length_add_append,
        List.take_length_add_append, List.drop_length_add_append, List.drop_length_add_append,
        htext, ← List.append_cons, tidied_newline hb]
      exact ⟨rfl, hvisible⟩

/-- A line inside a block comment.  The line is kept if the comment ends in it, unless
the document ends there too. -/
theorem Relaid.block_line {b rest rest' out : List Char} (hb : '\n' ∉ b)
    (hrest : Continues toks (start + byteCount b) rest rest')
    (hout : out = tidyLine (b ++ rest.take 1) ++ rest'.drop 1)
    (h : Reaches toks start (blockEnd (b ++ rest)) (b ++ rest)) :
    visibleIn (out.drop (blockEnd out)) =
      (visibleIn ((b ++ rest).drop (blockEnd (b ++ rest)))).map tidyToken := by
  rcases Nat.lt_or_ge b.length (blockEnd (b ++ rest)) with hcross | hle
  · rcases hrest with ⟨rfl, rfl⟩ | ⟨cs, next, rfl, rfl, relaid⟩
    · have hle := Lexeme.blockEnd_le (b ++ [])
      rw [List.length_append, List.length_nil] at hle
      omega
    · have hopen := (Lexeme.blockEnd_newline b cs).resolve_left (Nat.not_le.mpr hcross)
      have hline : ∀ x, blockEnd (b ++ ['\n'] ++ x) = (b ++ ['\n']).length + blockEnd x := by
        intro x
        rw [← List.append_cons, hopen, List.length_append]
        rfl
      have hline' : blockEnd (tidyLine (b ++ ['\n']) ++ next) =
          (tidyLine (b ++ ['\n'])).length + blockEnd next := by
        rw [tidyLine]
        split
        next hblank =>
          refine Lexeme.blockEnd_append (fun hmem => ?_) next
          rw [List.all_eq_true] at hblank
          cases hblank _ (lineEnd_subset hmem)
        next => exact hline next
      have hout : out = tidyLine (b ++ ['\n']) ++ next := hout
      rw [List.append_cons, hline] at h ⊢
      have hreach := h.append
      rw [Text.byteCount_append, ← Nat.add_assoc] at hreach
      rw [hout, hline', List.drop_length_add_append, List.drop_length_add_append]
      exact relaid.block hreach
  · cases hblank : (b ++ rest.take 1).all isBlank with
    | true =>
      have hblank' : ∀ c ∈ b, isBlank c = true := fun c hc =>
        List.all_eq_true.mp hblank c (List.mem_append_left _ hc)
      have hstar : '*' ∉ b := fun hmem => by cases hblank' _ hmem
      rw [Lexeme.blockEnd_append hstar] at hle
      rcases hrest with ⟨rfl, rfl⟩ | ⟨cs, next, rfl, rfl, -⟩
      · have hout' : ∀ c ∈ out.drop (blockEnd out), isBlank c = true := by
          intro c hc
          rw [List.take_nil, List.drop_nil, List.append_nil, List.append_nil] at hout
          rw [hout] at hc
          exact hblank' c (tidyLine_subset (List.mem_of_mem_drop hc))
        have hvisible := Token.visibleIn_blanks hout' []
        rw [List.append_nil] at hvisible
        rw [hvisible, Lexeme.blockEnd_append hstar, List.drop_length_add_append]
        rfl
      · rw [Lexeme.blockEnd_cons] at hle
        split at hle <;> omega
    | false =>
      rw [tidyLine, if_neg (by simp [hblank]), List.append_assoc, hrest.take_append_drop] at hout
      rw [hout, Lexeme.local_blockEnd b rest rest' hrest.head?_eq hle,
        List.drop_append_of_le_length hle, List.drop_append_of_le_length hle]
      refine visibleIn_rest (fun hnl => hb (List.mem_of_mem_drop hnl)) (.inl (h.drop hle)) ?_
      rwa [Nat.add_assoc, ← Text.byteCount_append, List.take_append_drop]

end Places

/-! ## The document -/

namespace Tree

variable {t : Tree} {start : Nat} (doc : t.Document) (style : CodeStyle)

include doc

/-- A line and what follows it are laid out anew. -/
theorem relaid_line {b rest rest' : List Char} (hb : '\n' ∉ b)
    (hrest : Continues t.tokens (start + byteCount b) rest rest') :
    ∃ line', t.reindentLine style start (b ++ rest.take 1) = .ok line' ∧
      Relaid t.tokens start (b ++ rest) (line' ++ rest'.drop 1) := by
  obtain ⟨line', hline⟩ : ∃ line', t.reindentLine style start (b ++ rest.take 1) = .ok line' := by
    cases hblank : (b ++ rest.take 1).all isBlank with
    | true => exact ⟨_, reindentLine_of_blank hblank⟩
    | false =>
      obtain ⟨indent, -, hline⟩ := reindentLine_of_not_blank doc hblank
      exact ⟨_, hline⟩
  have happend : b ++ rest = b ++ rest.take 1 ++ rest.drop 1 := by
    rw [List.append_assoc, List.take_append_drop]
  have hinside : ∀ {skip}, Reaches t.tokens start skip (b ++ rest) →
      ((b ++ rest.take 1).all isBlank = false →
        ((b ++ rest.take 1).takeWhile isIndent).length < skip) →
      line' = tidyLine (b ++ rest.take 1) := by
    intro skip hreach hskip
    rw [happend] at hreach
    cases hline.symm.trans (reindentLine_of_inside doc hreach hskip)
    rfl
  refine ⟨line', hline, fun h => ?_, fun q hq h => ?_, fun h => ?_⟩
  · rw [visibleIn_reindentLine doc hline, List.append_assoc, hrest.take_append_drop]
    exact visibleIn_rest hb h hrest
  · have heq := hinside h fun hblank => happend ▸ indent_lt_stringEnd hq hblank _
    exact Relaid.string_line hq hb hrest (by rw [heq]) h
  · have heq := hinside h fun hblank => happend ▸ indent_lt_blockEnd hblank _
    exact Relaid.block_line hb hrest (by rw [heq]) h

/-- Every document can be indented anew, line by line. -/
theorem relaid_lines (start : Nat) (cs : List Char) :
    ∃ out, t.reindentLines style start (lines cs) = .ok out ∧ Relaid t.tokens start cs out := by
  induction cs using line_induction generalizing start with
  | nil =>
    exact ⟨[], rfl, fun _ => rfl, fun q hq _ => ⟨rfl, rfl⟩, fun _ => rfl⟩
  | last l hl hne =>
    have hrest : Continues t.tokens (start + byteCount l) [] [] := .inl ⟨rfl, rfl⟩
    obtain ⟨line', hline, relaid⟩ := relaid_line doc style hl hrest
    rw [List.take_nil, List.append_nil] at hline
    rw [List.append_nil, List.drop_nil] at relaid
    refine ⟨line' ++ [], ?_, relaid⟩
    rw [lines_last hl hne, reindentLines, hline]
    rfl
  | line l cs hl ih =>
    obtain ⟨out, hout, relaid⟩ := ih (start + byteCount (l ++ ['\n']))
    have hrest : Continues t.tokens (start + byteCount l) ('\n' :: cs) ('\n' :: out) := by
      refine .inr ⟨cs, out, rfl, rfl, ?_⟩
      rwa [Text.byteCount_append, ← Nat.add_assoc] at relaid
    obtain ⟨line', hline, relaid⟩ := relaid_line doc style hl hrest
    refine ⟨line' ++ out, ?_, relaid⟩
    have hline : t.reindentLine style start (l ++ ['\n']) = .ok line' := hline
    rw [lines_newline hl, reindentLines, hline, hout]
    rfl

end Tree

theorem mem_visible {toks : List Token} {kind : Kind} {text : String} :
    (kind, text) ∈ visible toks ↔
      kind.isTrivia = false ∧ ∃ tok ∈ toks, tok.kind = kind ∧ tok.text = text := by
  simp only [visible, List.mem_map, List.mem_filter, Token.isVisible, Bool.not_eq_true',
    Prod.mk.injEq]
  constructor
  · intro h
    obtain ⟨tok, ⟨htok, htrivia⟩, rfl, rfl⟩ := h
    exact ⟨htrivia, tok, htok, rfl, rfl⟩
  · intro h
    obtain ⟨htrivia, tok, htok, rfl, rfl⟩ := h
    exact ⟨tok, ⟨htok, htrivia⟩, rfl, rfl⟩

/-- A token is kept unless it is a string that tidying changes. -/
theorem tidyToken_eq_self_iff {kind : Kind} {text : String} :
    tidyToken (kind, text) = (kind, text) ↔
      (kind = .stringLiteral → tidied text.toList = text.toList) := by
  rw [tidyToken]
  split
  next hkind =>
    rw [Prod.mk.injEq, ← String.toList_inj, String.toList_ofList]
    exact ⟨fun h _ => h.2, fun h => ⟨rfl, h hkind⟩⟩
  next hkind => exact ⟨fun _ h => absurd h hkind, fun _ => rfl⟩

theorem map_tidyToken_eq_self_iff {toks : List (Kind × String)} :
    toks.map tidyToken = toks ↔ ∀ tok ∈ toks, tidyToken tok = tok := by
  conv => lhs; rhs; rw [← List.map_id toks]
  exact List.map_inj_left

/-- A document made of its scanned tokens can be indented anew in every style.
The visible tokens are then those of the document, in their order, but for
strings, whose blank lines have lost their blanks.  So they are the same tokens
exactly when every blank line in a string consists of its line end. -/
theorem Tree.reindent_visible {steps : List Step} {t : Tree} (h : ofSteps steps = .ok t)
    (hscan : t.tokens.map (fun tok => (tok.kind, tok.text)) =
      (Token.scan t.source).map fun tok => (tok.kind, tok.text))
    (style : CodeStyle) :
    ∃ out, t.reindent style = .ok out ∧
      visible (Token.scan out) = (visible (Token.scan t.source)).map tidyToken ∧
      (visible (Token.scan out) = visible (Token.scan t.source) ↔
        ∀ tok ∈ Token.scan t.source, tok.kind = .stringLiteral →
          ∀ line ∈ lines tok.text.toList, line.all isBlank = true → lineEnd line = line) := by
  have doc := document_of_ofSteps h
  obtain ⟨out, hout, relaid⟩ := relaid_lines doc style 0 t.source.toList
  have hreach : Reaches t.tokens 0 0 t.source.toList := by
    rw [doc.tokens_eq_scan hscan]
    exact Reaches.scan t.source
  have hvisible : visible (Token.scan (String.ofList out)) =
      (visible (Token.scan t.source)).map tidyToken := by
    have houtside := relaid.outside (.inl hreach)
    rwa [visibleIn, visibleIn, ← String.toList_ofList (l := out)] at houtside
  refine ⟨String.ofList out, ?_, hvisible, ?_⟩
  · rw [reindent, hout]
    rfl
  · rw [hvisible, map_tidyToken_eq_self_iff]
    refine ⟨fun hall tok htok hkind => ?_, fun hall p hp => ?_⟩
    · have hmem : (tok.kind, tok.text) ∈ visible (Token.scan t.source) :=
        mem_visible.mpr ⟨by rw [hkind]; rfl, tok, htok, rfl, rfl⟩
      exact tidied_eq_self_iff.mp (tidyToken_eq_self_iff.mp (hall _ hmem) hkind)
    · obtain ⟨kind, text⟩ := p
      obtain ⟨-, tok, htok, rfl, rfl⟩ := mem_visible.mp hp
      exact tidyToken_eq_self_iff.mpr fun hkind => tidied_eq_self_iff.mpr (hall tok htok hkind)

/-- A query that selects a string over three lines, of which one is empty. -/
def Tree.emptyLineInString : List Step :=
  [.openNode .siddhiApp, .openNode .query, .text "from S\nselect 'a\n\nb'", .closeNode, .closeNode]

theorem Tree.reindent_visible_emptyLineInString :
    ∃ t, ofSteps emptyLineInString = .ok t ∧
      t.tokens.map (fun tok => (tok.kind, tok.text)) =
        (Token.scan t.source).map (fun tok => (tok.kind, tok.text)) ∧
      ∃ out, t.reindent {} = .ok out ∧
        visible (Token.scan out) = visible (Token.scan t.source) := by
  refine ⟨_, rfl, by decide, ?_⟩
  obtain ⟨out, hout, -, hsame⟩ := @reindent_visible emptyLineInString _ rfl (by decide) {}
  exact ⟨out, hout, hsame.mpr (by decide)⟩

/-- A string over three lines, of which one is blank but not empty. -/
def Tree.blankLineInString : List Step :=
  [.openNode .siddhiApp, .text "'a\n  \nb'", .closeNode]

/-- The string loses the blanks of its blank line. -/
theorem Tree.reindent_blankLineInString :
    ∃ t, ofSteps blankLineInString = .ok t ∧
      t.tokens.map (fun tok => (tok.kind, tok.text)) =
        (Token.scan t.source).map (fun tok => (tok.kind, tok.text)) ∧
      t.source = "'a\n  \nb'" ∧ t.reindent {} = .ok "'a\n\nb'" ∧
      visible (Token.scan "'a\n\nb'") ≠ visible (Token.scan t.source) :=
  ⟨_, rfl, by decide, by decide, by decide, by decide⟩

end SiddhiEditor
