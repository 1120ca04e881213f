import SiddhiEditor.Proofs.LexicalGrammar

/-!
# Cutting a text between tokens

A text may be cut where one of its tokens ends, and nowhere else, if its tokens are
to be those of the two parts (`scan_append_iff`).

The scanner looks at one character behind a lexeme, and a cut takes that character
away.  That it does no harm is seen from the lexical grammar and not from the
scanner.  The grammar describes the next lexeme by the prefixes of a text: a class
is selected when one of them is in its language, and the lexeme is the longest of
them in that language.  A shorter text that still has the whole lexeme offers the
same lexeme and no prefix that was not there before (`IsLexeme.of_prefix`).  There
is only one lexeme that a text can start with (`IsLexeme.unique`), so the scanner
finds it in the shorter text as well (`next_append`).

What stands behind the cut is scanned from a later offset, and the offset is all
that differs (`scanFrom_add`).
-/

namespace SiddhiEditor

open Text (byteCount)

/-! ## The lexeme at the start of a text -/

namespace Grammar

variable {L : Language Char} {k j : Class} {cs u w w' : List Char} {kind kind' : Kind}

theorem IsLongest.of_prefix (h : IsLongest L cs w) (hw : w <+: u) (hu : u <+: cs) :
    IsLongest L u w where
  mem := h.mem
  isPrefix := hw
  longest v hv hpre := h.longest v hv (hpre.trans hu)

theorem IsLongest.unique (h : IsLongest L cs w) (h' : IsLongest L cs w') : w = w' := by
  have hle := h'.longest w h.mem h.isPrefix
  have hge := h.longest w' h'.mem h'.isPrefix
  have hprefix := List.prefix_of_prefix_length_le h.isPrefix h'.isPrefix hle
  exact hprefix.eq_of_length (Nat.le_antisymm hle hge)

namespace Class

theorem Applies.of_prefix (h : k.Applies u) (hu : u <+: cs) : k.Applies cs := by
  obtain ⟨w, hw, hpre⟩ := h
  exact ⟨w, hw, hpre.trans hu⟩

theorem Selected.unique (hk : k.Selected cs) (hj : j.Selected cs) : k = j := by
  rcases hk.2 j hj.1 with hjk | hjmark
  · exact hjk.symm
  · rcases hj.2 k hk.1 with hkj | hkmark
    · exact hkj
    · rw [hkmark, hjmark]

/-- A run of digits has no suffix. -/
theorem not_long_of_plain (h : w ∈ plain) : w ∉ long := by
  intro hlong
  have hdigits : Over Char.isDigit plain :=
    (over_letter fun _ hc => hc).mul (over_kstar_letter fun _ hc => hc)
  obtain ⟨a, -, b, ⟨c, hc, rfl⟩, rfl⟩ := Language.mem_mul.mp hlong
  have hdigit := hdigits _ h c (by simp)
  simp only [isLongSuffix, Bool.or_eq_true, beq_iff_eq] at hc
  rcases hc with rfl | rfl <;> cases hdigit

/-- The class and the text of a lexeme decide its kind. -/
theorem Tags.unique (h : k.Tags w kind) (h' : k.Tags w kind') : kind = kind' := by
  cases k with
  | blanks => exact h.trans h'.symm
  | lineComment => exact h.trans h'.symm
  | blockComment => exact h.trans h'.symm
  | string => exact h.trans h'.symm
  | word =>
    by_cases hkeyword : ∃ k : Keyword, (String.ofList w).toLower = k.spelling
    · obtain ⟨k, hk⟩ := hkeyword
      rw [(h.1 k).mpr hk, (h'.1 k).mpr hk]
    · rw [not_exists] at hkeyword
      rw [h.2.mpr hkeyword, h'.2.mpr hkeyword]
  | number =>
    have hplain := @not_long_of_plain w
    simp only [Tags] at h h'
    grind
  | mark =>
    obtain ⟨c, rfl, hc⟩ := h
    obtain ⟨c', heq, hc'⟩ := h'
    cases heq
    have hfunctional : ∀ p ∈ punctuation, ∀ q ∈ punctuation, p.1 = q.1 → p.2 = q.2 := by decide
    rcases hc with hc | ⟨rfl, hnone⟩
    · rcases hc' with hc' | ⟨-, hnone'⟩
      · exact hfunctional _ hc _ hc' rfl
      · exact absurd hc (hnone' kind)
    · rcases hc' with hc' | ⟨rfl, -⟩
      · exact absurd hc' (hnone kind')
      · rfl

end Class

/-- A lexeme of a text is a lexeme of every shorter text that has all of it. -/
theorem IsLexeme.of_prefix (h : IsLexeme cs w kind) (hw : w <+: u) (hu : u <+: cs) :
    IsLexeme u w kind := by
  obtain ⟨k, hselected, hlongest, htags⟩ := h
  refine ⟨k, ⟨⟨w, hlongest.mem, hw⟩, ?_⟩, hlongest.of_prefix hw hu, htags⟩
  intro j hj
  exact hselected.2 j (hj.of_prefix hu)

/-- A text starts with one lexeme only. -/
theorem IsLexeme.unique (h : IsLexeme cs w kind) (h' : IsLexeme cs w' kind') :
    w = w' ∧ kind = kind' := by
  obtain ⟨k, hselected, hlongest, htags⟩ := h
  obtain ⟨k', hselected', hlongest', htags'⟩ := h'
  obtain rfl := hselected.unique hselected'
  obtain rfl := hlongest.unique hlongest'
  exact ⟨rfl, htags.unique htags'⟩

end Grammar

/-- The text behind a lexeme may be cut off. -/
theorem Lexeme.next_append {c : Char} {b rest : List Char}
    (h : (next c (b ++ rest)).2 ≤ b.length) : next c (b ++ rest) = next c b := by
  have hwhole := Grammar.next_isLexeme c (b ++ rest)
  rw [List.take_append_of_le_length h] at hwhole
  have hcut := hwhole.of_prefix ((List.prefix_cons_inj c).mpr (List.take_prefix _ b))
    ((List.prefix_cons_inj c).mpr (List.prefix_append b rest))
  obtain ⟨htext, hkind⟩ := hcut.unique (Grammar.next_isLexeme c b)
  have hlength := congrArg List.length (List.cons.inj htext).2
  rw [List.length_take_of_le h, List.length_take_of_le (next_le c b)] at hlength
  exact Prod.ext hkind hlength

/-! ## Scanning the two parts of a text -/

/-- Tokens that lie end to end have one that ends where they all end. -/
theorem Tiles.exists_stop {a b : Nat} {toks : List Token} (h : Tiles a toks b) (hne : toks ≠ []) :
    ∃ tok ∈ toks, tok.stop = b := by
  induction toks generalizing a with
  | nil => exact absurd rfl hne
  | cons tok rest ih =>
    cases rest with
    | nil => exact ⟨tok, List.mem_cons_self, h.2⟩
    | cons next rest =>
      obtain ⟨last, hmem, hstop⟩ := ih h.2 (List.cons_ne_nil next rest)
      exact ⟨last, List.mem_cons_of_mem tok hmem, hstop⟩

namespace Token

open Lexeme (next)

/-- The tokens of a text that starts further on. -/
theorem scanFrom_add (start n : Nat) (cs : List Char) :
    scanFrom (start + n) 0 cs = (scanFrom start 0 cs).map (shift n) := by
  induction cs using lexeme_induction generalizing start with
  | nil => rfl
  | lexeme c cs ih =>
    rw [scanFrom_zero, scanFrom_zero, scanFrom_skip _ (next c cs).2, scanFrom_skip _ (next c cs).2,
      Nat.add_right_comm, ih, List.map_cons, shift]

theorem stop_ofList (kind : Kind) (cs : List Char) (start : Nat) :
    stop ⟨kind, String.ofList cs, start⟩ = start + byteCount cs := by
  rw [← Text.utf8ByteSize_ofList]
  rfl

/-- A prefix that takes no more bytes than another is no longer. -/
theorem le_length_of_byteCount_le {b rest : List Char} {n : Nat} (hn : n ≤ (b ++ rest).length)
    (h : byteCount ((b ++ rest).take n) ≤ byteCount b) : n ≤ b.length := by
  by_contra hlt
  rw [Nat.not_le] at hlt
  cases rest with
  | nil =>
    rw [List.append_nil] at hn
    omega
  | cons d rest =>
    have hmore := @Text.byteCount_lt_take b rest d n hlt
    omega

/-- Up to the end of a token, a text is scanned as if it ended there.  The first token
ends at or before the cut, so it is a token of the part. -/
theorem scanFrom_append {start : Nat} {u v : List Char}
    (h : u = [] ∨ ∃ tok ∈ scanFrom start 0 (u ++ v), tok.stop = start + byteCount u) :
    scanFrom start 0 (u ++ v) = scanFrom start 0 u ++ scanFrom (start + byteCount u) 0 v := by
  induction u using lexeme_induction generalizing start with
  | nil => rfl
  | lexeme c b ih =>
    obtain ⟨tok, htok, hstop⟩ := h.resolve_left (List.cons_ne_nil c b)
    rw [List.cons_append, scanFrom_zero, scanFrom_skip] at htok
    have hle : start + byteCount (c :: (b ++ v).take (next c (b ++ v)).2) ≤ tok.stop := by
      rcases List.mem_cons.mp htok with rfl | hrest
      · rw [stop_ofList]
      · obtain ⟨stop, htiles⟩ := tiles_scanFrom
          (start + byteCount (c :: (b ++ v).take (next c (b ++ v)).2)) 0
          ((b ++ v).drop (next c (b ++ v)).2)
        exact Nat.le_trans (htiles.start_le hrest) (Nat.le_add_right _ _)
    have hlength : (next c (b ++ v)).2 ≤ b.length := by
      refine le_length_of_byteCount_le (Lexeme.next_le c (b ++ v)) ?_
      rw [hstop, Text.byteCount_cons, Text.byteCount_cons] at hle
      omega
    have hnext := Lexeme.next_append hlength
    rw [hnext] at htok hlength
    rw [List.take_append_of_le_length hlength, List.drop_append_of_le_length hlength] at htok
    have hbytes : byteCount (c :: b) =
        byteCount (c :: b.take (next c b).2) + byteCount (b.drop (next c b).2) := by
      rw [← Text.byteCount_append, List.cons_append, List.take_append_drop]
    have hrest : b.drop (next c b).2 = [] ∨
        ∃ tok ∈ scanFrom (start + byteCount (c :: b.take (next c b).2)) 0
            (b.drop (next c b).2 ++ v),
          tok.stop = start + byteCount (c :: b.take (next c b).2) +
            byteCount (b.drop (next c b).2) := by
      rcases List.mem_cons.mp htok with rfl | hmem
      · left
        rw [stop_ofList, hbytes] at hstop
        exact Text.byteCount_eq_zero_iff.mp (by omega)
      · right
        exact ⟨tok, hmem, by rw [hstop, hbytes, Nat.add_assoc]⟩
    rw [List.cons_append, scanFrom_zero, scanFrom_skip, hnext,
      List.take_append_of_le_length hlength, List.drop_append_of_le_length hlength, ih hrest,
      scanFrom_zero start c b, scanFrom_skip _ (next c b).2 b, hbytes, Nat.add_assoc]
    rfl

theorem scan_append {u v : String}
    (h : u = "" ∨ ∃ tok ∈ scan (u ++ v), tok.stop = u.utf8ByteSize) :
    scan (u ++ v) = scan u ++ (scan v).map (shift u.utf8ByteSize) := by
  have hcut : u.toList = [] ∨ ∃ tok ∈ scanFrom 0 0 (u.toList ++ v.toList),
      tok.stop = 0 + byteCount u.toList := by
    rw [← String.toList_append, Nat.zero_add, Text.byteCount_toList, String.toList_eq_nil_iff]
    exact h
  have hparts := scanFrom_append hcut
  rw [Text.byteCount_toList, scanFrom_add, ← String.toList_append] at hparts
  exact hparts

/-- The text of a token is scanned as that token. -/
theorem scan_text {s : String} {tok : Token} (h : tok ∈ scan s) :
    scan tok.text = [{ tok with start := 0 }] := by
  obtain ⟨-, c, rest, -, -, hkind, htext⟩ := exists_next_of_mem_scanFrom h
  have hlength := List.length_take_of_le (Lexeme.next_le c rest)
  have hnext : next c rest = next c (rest.take (next c rest).2) := by
    have hcut := @Lexeme.next_append c (rest.take (next c rest).2) (rest.drop (next c rest).2)
    rw [List.take_append_drop, hlength] at hcut
    exact hcut (Nat.le_refl _)
  rw [htext, scan, String.toList_ofList, scanFrom_zero, scanFrom_skip, ← hnext, List.take_take,
    Nat.min_self, List.drop_eq_nil_of_le (Nat.le_of_eq hlength), hkind]
  rfl

/-- The tokens of two texts are those of the one text they make up, exactly if one of
the two is empty or a token ends where they meet. -/
theorem scan_append_iff {u v : String} :
    scan (u ++ v) = scan u ++ (scan v).map (shift u.utf8ByteSize) ↔
      u = "" ∨ v = "" ∨ ∃ tok ∈ scan (u ++ v), tok.stop = u.utf8ByteSize := by
  constructor
  · intro h
    by_cases hu : u = ""
    · exact .inl hu
    · have htiles := tiles_scan u
      have hne : scan u ≠ [] := by
        intro hnil
        rw [hnil] at htiles
        exact hu (String.utf8ByteSize_eq_zero_iff.mp htiles.symm)
      obtain ⟨tok, htok, hstop⟩ := htiles.exists_stop hne
      rw [h]
      exact .inr (.inr ⟨tok, List.mem_append_left _ htok, hstop⟩)
  · intro h
    rcases h with hu | rfl | hstop
    · exact scan_append (.inl hu)
    · rw [String.append_empty]
      exact (List.append_nil _).symm
    · exact scan_append (.inr hstop)

/-- A text may be cut at its start, at its end and where one of its tokens ends, and
nowhere else, if the tokens of the two parts are to be those of the text.  So the
text of a token has this token alone. -/
theorem scan_cut (s : String) :
    (∀ p : s.Pos,
      (p.offset.byteIdx = 0 ∨ p.offset.byteIdx = s.utf8ByteSize ∨
          ∃ tok ∈ scan s, tok.stop = p.offset.byteIdx) ↔
        scan s = scan (s.sliceTo p).copy ++
          (scan (s.sliceFrom p).copy).map (shift p.offset.byteIdx)) ∧
      ∀ tok ∈ scan s, scan tok.text = [{ tok with start := 0 }] := by
  constructor
  · intro p
    obtain ⟨hs, hp⟩ := p.splits
    have hoffset : p.offset.byteIdx = (s.sliceTo p).copy.utf8ByteSize := congrArg (·.byteIdx) hp
    have hlength : s.utf8ByteSize =
        (s.sliceTo p).copy.utf8ByteSize + (s.sliceFrom p).copy.utf8ByteSize := by
      rw [← String.utf8ByteSize_append, ← hs]
    have hcut := @scan_append_iff (s.sliceTo p).copy (s.sliceFrom p).copy
    simp only [← hs, ← String.utf8ByteSize_eq_zero_iff] at hcut
    rw [hoffset, hlength, hcut, Nat.left_eq_add]
  · intro tok htok
    exact scan_text htok

/-- A number that ends with the sign of its exponent, before a comment that is never
closed.  A cut before the sign makes it a token of its own. -/
theorem scan_cut_openComment :
    (⟨.floatLiteral, "1.e+", 0⟩ : Token) ∈ scan "1.e+/*é" ∧
      scan "1.e+/*é" = scan "1.e+" ++ (scan "/*é").map (shift 4) ∧
      scan "1.e+/*é" ≠ scan "1.e" ++ (scan "+/*é").map (shift 3) ∧
      scan "1.e+" = [⟨.floatLiteral, "1.e+", 0⟩] := by
  have hmem : (⟨.floatLiteral, "1.e+", 0⟩ : Token) ∈ scan "1.e+/*é" := by decide
  obtain ⟨hcut, htext⟩ := scan_cut "1.e+/*é"
  refine ⟨hmem, ?_, ?_, htext _ hmem⟩
  · let p : String.Pos "1.e+/*é" := ⟨⟨4⟩, @isValid_byteCount _ "1.e+".toList "/*é".toList rfl⟩
    have hp : p.Splits "1.e+" "/*é" := ⟨rfl, rfl⟩
    obtain ⟨hleft, hright⟩ := p.splits.eq hp
    have hparts := (hcut p).mp (.inr (.inr ⟨_, hmem, rfl⟩))
    rw [hleft, hright] at hparts
    exact hparts
  · let p : String.Pos "1.e+/*é" := ⟨⟨3⟩, @isValid_byteCount _ "1.e".toList "+/*é".toList rfl⟩
    have hp : p.Splits "1.e" "+/*é" := ⟨rfl, rfl⟩
    obtain ⟨hleft, hright⟩ := p.splits.eq hp
    have hparts := mt (hcut p).mpr (by decide)
    rw [hleft, hright] at hparts
    exact hparts

end Token

end SiddhiEditor
