import Mathlib.Computability.Language
import SiddhiEditor.Proofs.Scanning

/-!
# The lexical grammar

The lexemes of a document are described here without a scanner.  Every lexical
class is a language, written with the operations on languages: `L * M` for one
text behind another, `L + M` for a choice, `1 + L` for an optional text and `L∗`
for repetition.  Strings and block comments run up to their closing mark, which
`upTo` says by where the mark may occur.

A class *applies* to a text that starts with one of its lexemes.  Any character is
a mark, and at most one of the other classes applies.  That one is *selected*, or
`mark` when there is none, and the lexeme is the longest prefix of the text in the
language of the selected class (`next_isLexeme`).

A scan is one lexeme behind the other (`exists_next_of_mem_scanFrom`), so it loses
nothing of the text (`join_scan`).

The scanner measures a lexeme piece by piece, each time with one character of
lookahead.  `Munches f L` says that `f` measures the longest prefix in `L`.  The
pieces of a number are measured one behind the other.  That is the longest match
for the whole because a character that goes on with one piece never starts the
next one (`Munches.mul`).
-/

open scoped Computability

namespace SiddhiEditor

open Text (isBlank byteCount)

/-! ## The scan as a list of lexemes -/

namespace Token

open Lexeme (next)

/-- Characters that belong to the token before are passed over. -/
theorem scanFrom_skip (start skip : Nat) (cs : List Char) :
    scanFrom start skip cs = scanFrom start 0 (cs.drop skip) := by
  induction cs generalizing skip with
  | nil => cases skip <;> rfl
  | cons c cs ih =>
    cases skip with
    | zero => rfl
    | succ skip => exact ih skip

/-- Induction on the lexemes of a text, from the last one. -/
theorem lexeme_induction {motive : List Char → Prop} (nil : motive [])
    (lexeme : ∀ c cs, motive (cs.drop (next c cs).2) → motive (c :: cs)) (cs : List Char) :
    motive cs := by
  cases cs with
  | nil => exact nil
  | cons c cs =>
    have hlt : (cs.drop (next c cs).2).length < (c :: cs).length := by
      rw [List.length_drop, List.length_cons]
      omega
    exact lexeme c cs (lexeme_induction nil lexeme (cs.drop (next c cs).2))
termination_by cs.length

/-- Every token of a scan is the next lexeme of what is left of the text at its
start. -/
theorem exists_next_of_mem_scanFrom {start : Nat} {cs : List Char} {tok : Token}
    (h : tok ∈ scanFrom start 0 cs) :
    ∃ before c rest, cs = before ++ c :: rest ∧ tok.start = start + byteCount before ∧
      tok.kind = (next c rest).1 ∧ tok.text = String.ofList (c :: rest.take (next c rest).2) := by
  induction cs using lexeme_induction generalizing start with
  | nil => cases h
  | lexeme c cs ih =>
    rw [scanFrom_zero, scanFrom_skip, List.mem_cons] at h
    rcases h with rfl | h
    · exact ⟨[], c, cs, rfl, rfl, rfl, rfl⟩
    · obtain ⟨before, d, rest, hsplit, hstart, hkind, htext⟩ := ih h
      refine ⟨c :: cs.take (next c cs).2 ++ before, d, rest, ?_, ?_, hkind, htext⟩
      · rw [List.append_assoc, ← hsplit, List.cons_append, List.take_append_drop]
      · rw [hstart, Text.byteCount_append, Nat.add_assoc]

/-! ## Nothing is lost -/

/-- The tokens of a text put it together. -/
theorem flatMap_text_scanFrom (start : Nat) (cs : List Char) :
    (scanFrom start 0 cs).flatMap (·.text.toList) = cs := by
  induction cs using lexeme_induction generalizing start with
  | nil => rfl
  | lexeme c cs ih =>
    rw [scanFrom_zero, scanFrom_skip, List.flatMap_cons, ih, String.toList_ofList,
      List.cons_append, List.take_append_drop]

theorem join_scan (s : String) : String.join ((scan s).map (·.text)) = s := by
  rw [← String.toList_inj, String.toList_join, List.flatMap_map, scan]
  exact flatMap_text_scanFrom 0 s.toList

theorem scan_eq_nil_iff {s : String} : scan s = [] ↔ s = "" := by
  constructor
  · intro h
    have hjoin := join_scan s
    rw [h] at hjoin
    exact hjoin.symm
  · rintro rfl
    rfl

theorem tiles_scan (s : String) : Tiles 0 (scan s) s.utf8ByteSize := by
  obtain ⟨stop, htiles⟩ := tiles_scanFrom 0 0 s.toList
  have hstop := htiles.stop_eq
  rw [Nat.zero_add, ← scan, join_scan] at hstop
  rw [← hstop]
  exact htiles

/-- The bytes of the characters before a place are a boundary between
characters. -/
theorem isValid_byteCount {s : String} {before rest : List Char} (h : s.toList = before ++ rest) :
    String.Pos.Raw.IsValid s ⟨byteCount before⟩ := by
  rw [String.Pos.Raw.isValid_iff_exists_append]
  refine ⟨String.ofList before, String.ofList rest, ?_, ?_⟩
  · rw [← String.ofList_append, ← h, String.ofList_toList]
  · rw [String.Pos.Raw.ext_iff, ← Text.utf8ByteSize_ofList]
    rfl

/-- The tokens of a text give it back.  None is empty, they tile its bytes from
the first to the last, and each starts and ends between two characters. -/
theorem scan_lossless (s : String) :
    String.join ((scan s).map (·.text)) = s ∧ (∀ tok ∈ scan s, tok.text ≠ "") ∧
      Tiles 0 (scan s) s.utf8ByteSize ∧
      ∀ tok ∈ scan s, String.Pos.Raw.IsValid s ⟨tok.start⟩ ∧
        String.Pos.Raw.IsValid s ⟨tok.stop⟩ := by
  refine ⟨join_scan s, fun tok htok => ?_, tiles_scan s, fun tok htok => ?_⟩
  · obtain ⟨-, c, rest, -, -, -, htext⟩ := exists_next_of_mem_scanFrom htok
    rw [htext, ← String.toList_inj.ne, String.toList_ofList]
    exact List.cons_ne_nil _ _
  · obtain ⟨before, c, rest, hsplit, hstart, -, htext⟩ := exists_next_of_mem_scanFrom htok
    rw [Nat.zero_add] at hstart
    have hstop : tok.stop = byteCount (before ++ c :: rest.take (next c rest).2) := by
      rw [stop, length, hstart, htext, Text.utf8ByteSize_ofList, Text.byteCount_append]
    have hsplit' : s.toList =
        (before ++ c :: rest.take (next c rest).2) ++ rest.drop (next c rest).2 := by
      rw [hsplit, List.append_assoc, List.cons_append, List.take_append_drop]
    rw [hstart, hstop]
    exact ⟨isValid_byteCount hsplit, isValid_byteCount hsplit'⟩

/-- A string that is never closed, behind a character of two bytes. -/
theorem scan_lossless_openString :
    (⟨.stringLiteral, "'a\n", 2⟩ : Token) ∈ scan "é'a\n" ∧
      String.join ((scan "é'a\n").map (·.text)) = "é'a\n" ∧
      String.Pos.Raw.IsValid "é'a\n" ⟨2⟩ ∧ String.Pos.Raw.IsValid "é'a\n" ⟨5⟩ := by
  have hmem : (⟨.stringLiteral, "'a\n", 2⟩ : Token) ∈ scan "é'a\n" := by decide
  obtain ⟨hjoin, -, -, hvalid⟩ := scan_lossless "é'a\n"
  exact ⟨hmem, hjoin, hvalid _ hmem⟩

end Token

/-! ## Languages -/

namespace Grammar

/-- The texts of one character with the property `p`. -/
def letter (p : Char → Bool) : Language Char := {w | ∃ c, p c = true ∧ w = [c]}

/-- The texts that end with the first `mark` in them, or have none. -/
def upTo (mark : List Char) : Language Char := {w | ∀ a b, w = a ++ mark ++ b → b = []}

/-- The text `w` is the longest prefix of `cs` in the language. -/
structure IsLongest (L : Language Char) (cs w : List Char) : Prop where
  mem : w ∈ L
  isPrefix : w <+: cs
  longest : ∀ v ∈ L, v <+: cs → v.length ≤ w.length

/-- The function measures the longest prefix in the language. -/
def Munches (f : List Char → Nat) (L : Language Char) : Prop :=
  ∀ cs, IsLongest L cs (cs.take (f cs))

theorem mem_letter_mul {p : Char → Bool} {M : Language Char} {w : List Char} :
    w ∈ letter p * M ↔ ∃ c v, p c = true ∧ v ∈ M ∧ w = c :: v := by
  rw [Language.mem_mul]
  constructor
  · rintro ⟨a, ⟨c, hc, rfl⟩, v, hv, rfl⟩
    exact ⟨c, v, hc, hv, rfl⟩
  · rintro ⟨c, v, hc, hv, rfl⟩
    exact ⟨[c], ⟨c, hc, rfl⟩, v, hv, rfl⟩

theorem cons_mem_letter_mul {p : Char → Bool} {M : Language Char} {c : Char} {w : List Char} :
    c :: w ∈ letter p * M ↔ p c = true ∧ w ∈ M := by
  rw [mem_letter_mul]
  constructor
  · rintro ⟨d, v, hd, hv, heq⟩
    cases heq
    exact ⟨hd, hv⟩
  · rintro ⟨hc, hw⟩
    exact ⟨c, w, hc, hw, rfl⟩

theorem mem_word_mul {a : List Char} {M : Language Char} {w : List Char} :
    w ∈ ({a} : Language Char) * M ↔ ∃ v ∈ M, w = a ++ v := by
  rw [Language.mem_mul]
  constructor
  · rintro ⟨b, rfl, v, hv, rfl⟩
    exact ⟨v, hv, rfl⟩
  · rintro ⟨v, hv, rfl⟩
    exact ⟨a, rfl, v, hv, rfl⟩

/-- A repetition of single characters. -/
theorem mem_kstar_letter {p : Char → Bool} {w : List Char} :
    w ∈ (letter p)∗ ↔ ∀ c ∈ w, p c = true := by
  induction w with
  | nil => simp [Language.nil_mem_kstar]
  | cons c w ih =>
    rw [← Language.one_add_self_mul_kstar_eq_kstar, Language.mem_add, cons_mem_letter_mul, ih,
      List.forall_mem_cons]
    simp

/-! ## Measuring the longest prefix -/

section Measures

variable {f g : List Char → Nat} {p : Char → Bool} {L M : Language Char} {a cs w : List Char}

/-- A fixed text in front. -/
theorem Munches.word_mul (hg : Munches g M) (a cs : List Char) :
    IsLongest ({a} * M) (a ++ cs) (a ++ cs.take (g cs)) where
  mem := mem_word_mul.mpr ⟨_, (hg cs).mem, rfl⟩
  isPrefix := (List.prefix_append_right_inj a).mpr (hg cs).isPrefix
  longest v hv hpre := by
    obtain ⟨u, hu, rfl⟩ := mem_word_mul.mp hv
    have hle := (hg cs).longest u hu ((List.prefix_append_right_inj a).mp hpre)
    rw [List.length_append, List.length_append]
    omega

/-- A character in front. -/
theorem Munches.letter_mul {c : Char} (hg : Munches g M) (hc : p c = true) (cs : List Char) :
    IsLongest (letter p * M) (c :: cs) (c :: cs.take (g cs)) where
  mem := cons_mem_letter_mul.mpr ⟨hc, (hg cs).mem⟩
  isPrefix := (List.prefix_cons_inj c).mpr (hg cs).isPrefix
  longest v hv hpre := by
    obtain ⟨d, u, -, hu, rfl⟩ := mem_letter_mul.mp hv
    have hle := (hg cs).longest u hu (List.cons_prefix_cons.mp hpre).2
    rw [List.length_cons, List.length_cons]
    omega

/-- A choice whose other side does not apply. -/
theorem IsLongest.add_left (h : IsLongest L cs w) (hM : ∀ v ∈ M, ¬v <+: cs) :
    IsLongest (L + M) cs w where
  mem := Or.inl h.mem
  isPrefix := h.isPrefix
  longest v hv hpre := by
    rcases hv with hv | hv
    · exact h.longest v hv hpre
    · exact absurd hpre (hM v hv)

/-- A language of which no word is there takes no part in the longest match. -/
theorem IsLongest.add_right (h : IsLongest M cs w) (hL : ∀ v ∈ L, ¬v <+: cs) :
    IsLongest (L + M) cs w := by
  rw [add_comm]
  exact h.add_left hL

/-- A run takes the longest word of its characters. -/
theorem munches_run (p : Char → Bool) : Munches (Lexeme.run p) (letter p)∗ := by
  intro cs
  have htake : cs.take (Lexeme.run p cs) = cs.takeWhile p :=
    (List.prefix_iff_eq_take.mp (List.takeWhile_prefix p)).symm
  rw [htake]
  refine ⟨mem_kstar_letter.mpr (List.all_eq_true.mp List.all_takeWhile), List.takeWhile_prefix p,
    fun v hv hpre => ?_⟩
  obtain ⟨rest, rfl⟩ := hpre
  rw [List.takeWhile_append_of_pos (mem_kstar_letter.mp hv), List.length_append]
  exact Nat.le_add_right _ _

theorem munches_zero : Munches (fun _ => 0) 1 := by
  intro cs
  refine ⟨rfl, List.take_prefix 0 cs, fun v hv _ => ?_⟩
  rw [(Language.mem_one v).mp hv]
  exact Nat.zero_le _

/-- An optional text that is recognised by its first character. -/
theorem Munches.optional
    (hcons : ∀ c cs, f (c :: cs) = if p c then g cs + 1 else 0) (hg : Munches g M) :
    Munches f (1 + letter p * M) := by
  have hnone : ∀ {cs : List Char}, (∀ v ∈ letter p * M, ¬v <+: cs) →
      IsLongest (1 + letter p * M) cs (cs.take 0) := fun h => (munches_zero _).add_left h
  intro cs
  cases cs with
  | nil =>
    rw [List.take_nil]
    refine hnone fun v hv hpre => ?_
    obtain ⟨c, u, -, -, rfl⟩ := mem_letter_mul.mp hv
    cases List.prefix_nil.mp hpre
  | cons c cs =>
    rw [hcons]
    split
    next hc =>
      have hlongest := hg.letter_mul hc cs
      refine ⟨Or.inr hlongest.mem, hlongest.isPrefix, fun v hv hpre => ?_⟩
      rcases hv with hv | hv
      · rw [(Language.mem_one v).mp hv]
        exact Nat.zero_le _
      · exact hlongest.longest v hv hpre
    next hc =>
      refine hnone fun v hv hpre => ?_
      obtain ⟨d, u, hd, -, rfl⟩ := mem_letter_mul.mp hv
      rw [(List.cons_prefix_cons.mp hpre).1] at hd
      exact hc hd

/-- Two pieces one behind the other.  No character of the first starts the second, so
the first piece is as long as it can be. -/
theorem Munches.mul (hf : Munches f L) (hg : Munches g M)
    (hL : ∀ w ∈ L, ∀ c ∈ w, p c = true) (hM : ∀ c w, c :: w ∈ M → p c = false) :
    Munches (fun cs => f cs + g (cs.drop (f cs))) (L * M) := by
  intro cs
  have hsplit : cs = cs.take (f cs) ++ cs.drop (f cs) := (List.take_append_drop _ cs).symm
  simp only [List.take_add]
  refine ⟨Language.append_mem_mul (hf cs).mem (hg _).mem, ?_, fun v hv hpre => ?_⟩
  · rw [← List.take_add]
    exact List.take_prefix _ cs
  · obtain ⟨a, ha, b, hb, rfl⟩ := Language.mem_mul.mp hv
    have hacs : a <+: cs := (List.prefix_append a b).trans hpre
    have hle := (hf cs).longest a ha hacs
    obtain ⟨r, hr⟩ := List.prefix_of_prefix_length_le hacs (hf cs).isPrefix hle
    rw [List.length_append, List.length_append]
    rw [hsplit, ← hr, List.append_assoc, List.prefix_append_right_inj] at hpre
    cases r with
    | nil =>
      rw [List.nil_append] at hpre
      have hlast := (hg _).longest b hb hpre
      rw [List.append_nil] at hr
      rw [← hr] at hle ⊢
      omega
    | cons c r =>
      have hc : p c = true := hL _ (hf cs).mem c (by rw [← hr]; simp)
      cases b with
      | nil => exact Nat.le_trans hle (Nat.le_add_right _ _)
      | cons d b =>
        obtain ⟨rfl, -⟩ := List.cons_prefix_cons.mp hpre
        rw [hM d b hb] at hc
        cases hc

/-- A text up to a mark, when the mark is looked for at every character.  A longer
text would have the mark in it and end with it. -/
theorem munches_upTo {mark : List Char}
    (hcons : ∀ c cs, f (c :: cs) = if mark <+: c :: cs then mark.length else f cs + 1) :
    Munches f (upTo mark) := by
  intro cs
  refine ⟨?_, List.take_prefix _ cs, ?_⟩
  · induction cs with
    | nil =>
      intro a b h
      rw [List.take_nil, List.nil_eq, List.append_eq_nil_iff] at h
      exact h.2
    | cons c cs ih =>
      intro a b h
      rw [hcons] at h
      split at h
      next hclosed =>
        rw [← List.prefix_iff_eq_take.mp hclosed] at h
        have hlength := congrArg List.length h
        rw [List.length_append, List.length_append] at hlength
        exact List.length_eq_zero_iff.mp (by omega)
      next hopen =>
        rw [List.take_succ_cons] at h
        cases a with
        | nil =>
          refine absurd (List.IsPrefix.trans ⟨b, ?_⟩ (List.take_prefix (f cs + 1) (c :: cs))) hopen
          rw [List.take_succ_cons, h, List.nil_append]
        | cons d a => exact ih a b (List.cons.inj h).2
  · induction cs with
    | nil =>
      intro v _ hpre
      rw [List.prefix_nil.mp hpre]
      exact Nat.zero_le _
    | cons c cs ih =>
      intro v hv hpre
      rw [hcons]
      split
      next hclosed =>
        rw [← List.prefix_iff_eq_take.mp hclosed]
        rcases Nat.le_total v.length mark.length with hle | hle
        · exact hle
        · obtain ⟨r, rfl⟩ := List.prefix_of_prefix_length_le hclosed hpre hle
          rw [hv [] r rfl, List.append_nil]
      next hopen =>
        cases v with
        | nil => exact Nat.zero_le _
        | cons d v =>
          have hle := ih v (fun a b h => hv (d :: a) b (by rw [h]; rfl))
            (List.cons_prefix_cons.mp hpre).2
          rw [List.take_succ_cons, List.length_cons, List.length_cons]
          omega

theorem munches_stringEnd (q : Char) : Munches (Lexeme.stringEnd q) (upTo [q]) := by
  refine munches_upTo fun c cs => ?_
  simp [Lexeme.stringEnd, @eq_comm _ q c]

theorem munches_blockEnd : Munches Lexeme.blockEnd (upTo ['*', '/']) := by
  refine munches_upTo fun c cs => ?_
  rw [Lexeme.blockEnd_cons]
  cases cs with
  | nil => simp
  | cons d cs => simp [eq_comm]

end Measures

/-! ## Numbers -/

/-- Digits, or none. -/
def digits : Language Char := (letter Char.isDigit)∗

/-- A run of digits. -/
def plain : Language Char := letter Char.isDigit * digits

/-- A point and digits, which may be missing. -/
def fraction : Language Char := letter (· == '.') * digits

/-- A letter, an optional sign and digits, which may be missing. -/
def exponent : Language Char :=
  letter (fun c => c == 'e' || c == 'E') * ((1 + letter fun c => c == '+' || c == '-') * digits)

/-- The suffixes of a long number. -/
def isLongSuffix (c : Char) : Bool := c == 'l' || c == 'L'

/-- The suffixes of a float. -/
def isFloatSuffix (c : Char) : Bool := c == 'f' || c == 'F' || c == 'd' || c == 'D'

/-- A run of digits with the suffix of a long number. -/
def long : Language Char := plain * letter isLongSuffix

/-- A number. -/
def number : Language Char :=
  plain * (1 + fraction) * (1 + exponent) * (1 + letter isFloatSuffix) + long

section Numbers

variable {p q : Char → Bool} {L M : Language Char}

/-- The characters of the texts in the language have the property `p`. -/
def Over (p : Char → Bool) (L : Language Char) : Prop := ∀ w ∈ L, ∀ c ∈ w, p c = true

theorem over_letter (h : ∀ c, q c = true → p c = true) : Over p (letter q) := by
  rintro w ⟨c, hc, rfl⟩ d hd
  rw [List.mem_singleton.mp hd]
  exact h c hc

theorem over_kstar_letter (h : ∀ c, q c = true → p c = true) : Over p (letter q)∗ :=
  fun _ hw c hc => h c (mem_kstar_letter.mp hw c hc)

/-- Words of two languages one behind the other have the characters of both. -/
theorem Over.mul (hL : Over p L) (hM : Over p M) : Over p (L * M) := by
  intro w hw c hc
  obtain ⟨a, ha, b, hb, rfl⟩ := Language.mem_mul.mp hw
  rcases List.mem_append.mp hc with hc | hc
  · exact hL a ha c hc
  · exact hM b hb c hc

theorem Over.optional (hL : Over p L) : Over p (1 + L) := by
  intro w hw c hc
  rcases hw with rfl | hw
  · cases hc
  · exact hL w hw c hc

/-- The first character of an optional text. -/
theorem first_of_optional (h : ∀ c, q c = true → p c = false) (c : Char) (w : List Char)
    (hw : c :: w ∈ 1 + letter q * M) : p c = false := by
  rcases hw with hw | hw
  · cases hw
  · exact h c (cons_mem_letter_mul.mp hw).1

theorem first_of_optional_letter (h : ∀ c, q c = true → p c = false) (c : Char) (w : List Char)
    (hw : c :: w ∈ 1 + letter q) : p c = false := by
  rw [← mul_one (letter q)] at hw
  exact first_of_optional h c w hw

/-- One character, if it is there. -/
def oneOf (p : Char → Bool) : List Char → Nat
  | [] => 0
  | c :: _ => if p c then 0 + 1 else 0

theorem munches_oneOf (p : Char → Bool) : Munches (oneOf p) (1 + letter p) := by
  rw [← mul_one (letter p)]
  exact munches_zero.optional fun _ _ => rfl

theorem munches_fraction : Munches Lexeme.fraction (1 + fraction) :=
  (munches_run Char.isDigit).optional Lexeme.fraction_cons

theorem munches_exponent : Munches Lexeme.exponent (1 + exponent) := by
  have hsign : Munches Lexeme.sign (1 + letter fun c => c == '+' || c == '-') := by
    rw [← mul_one (letter _)]
    exact munches_zero.optional Lexeme.sign_cons
  refine Munches.optional Lexeme.exponent_cons (hsign.mul (munches_run Char.isDigit)
    (over_letter fun c hc => hc).optional fun c w hw => ?_)
  have hdigit := mem_kstar_letter.mp hw c List.mem_cons_self
  by_contra hsign
  simp only [Bool.not_eq_false, Bool.or_eq_true, beq_iff_eq] at hsign
  rcases hsign with rfl | rfl <;> cases hdigit

/-- The digits, fraction and exponent of a number behind its first digit. -/
theorem munches_scaled :
    Munches Lexeme.scaled (digits * (1 + fraction) * (1 + exponent)) := by
  have hdigits : Over (fun c => c.isDigit || c == '.') digits :=
    over_kstar_letter fun c hc => by rw [hc, Bool.true_or]
  have hfraction : Over (fun c => c.isDigit || c == '.') (1 + fraction) :=
    ((over_letter fun c hc => by rw [hc, Bool.or_true]).mul hdigits).optional
  refine ((munches_run Char.isDigit).mul munches_fraction (over_kstar_letter fun c hc => hc)
    (first_of_optional ?_)).mul munches_exponent (hdigits.mul hfraction) (first_of_optional ?_)
  · intro c hc
    rw [beq_iff_eq.mp hc]
    rfl
  · intro c hc
    rw [Bool.or_eq_true, beq_iff_eq, beq_iff_eq] at hc
    rcases hc with rfl | rfl <;> rfl

theorem exists_of_oneOf {cs : List Char} (h : oneOf p cs ≠ 0) :
    ∃ c rest, cs = c :: rest ∧ p c = true := by
  cases cs with
  | nil => exact absurd rfl h
  | cons c rest =>
    refine ⟨c, rest, rfl, ?_⟩
    by_contra hc
    exact h (if_neg hc)

/-- What is read of a number behind its first digit.  The suffix of a long number
stands behind plain digits only. -/
theorem number_cases (cs : List Char) :
    (∃ c rest, isLongSuffix c = true ∧ cs.drop (Lexeme.run Char.isDigit cs) = c :: rest ∧
        Lexeme.scaled cs = Lexeme.run Char.isDigit cs ∧
        Lexeme.number cs = (.longLiteral, Lexeme.run Char.isDigit cs + 1)) ∨
      oneOf isLongSuffix (cs.drop (Lexeme.run Char.isDigit cs)) = 0 ∧
        ∃ n, n = Lexeme.scaled cs + oneOf isFloatSuffix (cs.drop (Lexeme.scaled cs)) ∧
          Lexeme.number cs =
            (if n = Lexeme.run Char.isDigit cs then .intLiteral else .floatLiteral, n) := by
  have hle := Lexeme.run_le_scaled cs
  by_cases hlong : oneOf isLongSuffix (cs.drop (Lexeme.run Char.isDigit cs)) = 0
  · refine .inr ⟨hlong, _, rfl, ?_⟩
    rw [Lexeme.number_eq]
    cases hrest : cs.drop (Lexeme.scaled cs) with
    | nil => simp [Lexeme.suffixKind?, oneOf]
    | cons c rest =>
      have hplain : (Lexeme.scaled cs == Lexeme.run Char.isDigit cs && isLongSuffix c) = false := by
        by_contra htrue
        rw [Bool.not_eq_false, Bool.and_eq_true, beq_iff_eq] at htrue
        rw [← htrue.1, hrest, oneOf, if_pos htrue.2] at hlong
        cases hlong
      have hkind : Lexeme.suffixKind? (Lexeme.scaled cs == Lexeme.run Char.isDigit cs) (c :: rest) =
          if isFloatSuffix c then some .floatLiteral else none := by
        rw [Lexeme.suffixKind?]
        exact if_neg (by rw [← isLongSuffix, hplain]; exact Bool.false_ne_true)
      cases hfloat : isFloatSuffix c with
      | true =>
        have hne : Lexeme.scaled cs + 1 ≠ Lexeme.run Char.isDigit cs := by omega
        simp [hkind, oneOf, hfloat, hne]
      | false => simp [hkind, oneOf, hfloat]
  · obtain ⟨c, rest, hrest, hc⟩ := exists_of_oneOf hlong
    have hc' := hc
    rw [isLongSuffix, Bool.or_eq_true, beq_iff_eq, beq_iff_eq] at hc'
    have hscaled : Lexeme.scaled cs = Lexeme.run Char.isDigit cs := by
      rw [Lexeme.scaled, hrest, Lexeme.fraction_cons]
      rcases hc' with rfl | rfl <;> simp [hrest, Lexeme.exponent_cons]
    refine .inl ⟨c, rest, hc, hrest, hscaled, ?_⟩
    rw [Lexeme.number_eq, hscaled, hrest]
    rcases hc' with rfl | rfl <;> simp [Lexeme.suffixKind?]

theorem not_isFloatSuffix {c : Char} (h : c.isDigit = true ∨ c ∈ ['.', 'e', 'E', '+', '-']) :
    isFloatSuffix c = false := by
  by_contra hsuffix
  simp only [isFloatSuffix, Bool.not_eq_false, Bool.or_eq_true, beq_iff_eq] at hsuffix
  rcases hsuffix with ((rfl | rfl) | rfl) | rfl <;> revert h <;> decide

/-- A number without the suffix of a long one, behind its first digit. -/
theorem isLongest_float (cs : List Char) :
    IsLongest (digits * (1 + fraction) * (1 + exponent) * (1 + letter isFloatSuffix)) cs
      (cs.take (Lexeme.scaled cs + oneOf isFloatSuffix (cs.drop (Lexeme.scaled cs)))) := by
  have hdigits : Over (fun c => !isFloatSuffix c) digits := over_kstar_letter fun c hc => by
    simp [not_isFloatSuffix (.inl hc)]
  have hmark : ∀ q : Char → Bool, (∀ c, q c = true → c ∈ ['.', 'e', 'E', '+', '-']) →
      Over (fun c => !isFloatSuffix c) (letter q) := fun q hq => over_letter fun c hc => by
    simp [not_isFloatSuffix (.inr (hq c hc))]
  have hfraction : Over (fun c => !isFloatSuffix c) (1 + fraction) :=
    ((hmark _ (by simp)).mul hdigits).optional
  have hexponent : Over (fun c => !isFloatSuffix c) (1 + exponent) :=
    ((hmark _ (by simp)).mul ((hmark _ (by simp)).optional.mul hdigits)).optional
  refine munches_scaled.mul (munches_oneOf isFloatSuffix)
    ((hdigits.mul hfraction).mul hexponent) (first_of_optional_letter fun c hc => ?_) cs
  rw [hc, Bool.not_true]

/-- A run of digits with the suffix of a long number, behind its first digit. -/
theorem length_le_of_long {cs v : List Char} (hv : v ∈ digits * letter isLongSuffix)
    (hpre : v <+: cs) :
    v.length ≤ Lexeme.run Char.isDigit cs +
      oneOf isLongSuffix (cs.drop (Lexeme.run Char.isDigit cs)) := by
  have hlongest := ((munches_run Char.isDigit).mul (munches_oneOf isLongSuffix)
    (over_kstar_letter fun c hc => hc) (first_of_optional_letter fun c hc => ?_)) cs
  · obtain ⟨a, ha, b, hb, rfl⟩ := Language.mem_mul.mp hv
    refine Nat.le_trans (hlongest.longest _ (Language.append_mem_mul ha (Or.inr hb)) hpre) ?_
    rw [List.length_take]
    exact Nat.min_le_left _ _
  · rw [isLongSuffix, Bool.or_eq_true, beq_iff_eq, beq_iff_eq] at hc
    rcases hc with rfl | rfl <;> rfl

/-- A run and the character that ends it. -/
theorem take_run_succ {c : Char} {cs rest : List Char} (h : cs.drop (Lexeme.run p cs) = c :: rest) :
    cs.take (Lexeme.run p cs + 1) = cs.take (Lexeme.run p cs) ++ [c] := by
  rw [List.take_add, h]
  rfl

/-- A number is the longest one, with the letter that fits its form. -/
theorem munches_number :
    Munches (fun cs => (Lexeme.number cs).2)
      (digits * (1 + fraction) * (1 + exponent) * (1 + letter isFloatSuffix) +
        digits * letter isLongSuffix) := by
  intro cs
  show IsLongest _ cs (cs.take (Lexeme.number cs).2)
  have hwhole : Lexeme.run Char.isDigit cs ≤ cs.length := (List.takeWhile_prefix _).length_le
  have hle := Lexeme.run_le_scaled cs
  have hfloat := isLongest_float cs
  rcases number_cases cs with ⟨c, rest, hc, hrest, hscaled, hnumber⟩ | ⟨hlong, n, rfl, hnumber⟩
  · have htake := take_run_succ hrest
    rw [hnumber, htake]
    refine ⟨.inr (Language.append_mem_mul (munches_run _ cs).mem ⟨c, hc, rfl⟩), ?_,
      fun v hv hpre => ?_⟩
    · rw [← htake]
      exact List.take_prefix _ cs
    · rw [List.length_append, List.length_take_of_le hwhole, List.length_singleton]
      rcases hv with hv | hv
      · have hbound := hfloat.longest v hv hpre
        rw [List.length_take, hscaled, hrest, oneOf] at hbound
        split at hbound <;> omega
      · have hbound := length_le_of_long hv hpre
        rw [hrest, oneOf, if_pos hc] at hbound
        exact hbound
  · rw [hnumber]
    refine ⟨.inl hfloat.mem, hfloat.isPrefix, fun v hv hpre => ?_⟩
    rcases hv with hv | hv
    · exact hfloat.longest v hv hpre
    · have hbound := length_le_of_long hv hpre
      rw [List.length_take]
      omega

/-- Numbers by their first digit. -/
theorem number_eq_letter_mul :
    number = letter Char.isDigit *
      (digits * (1 + fraction) * (1 + exponent) * (1 + letter isFloatSuffix) +
        digits * letter isLongSuffix) := by
  rw [number, long, plain, mul_add (letter Char.isDigit)]
  simp only [mul_assoc]

/-- The kind of a number says how it is written. -/
theorem number_kind {c : Char} (hc : c.isDigit = true) (cs : List Char) {w : List Char}
    (hw : w = c :: cs.take (Lexeme.number cs).2) :
    (Lexeme.number cs).1 = .intLiteral ∧ w ∈ plain ∨
      (Lexeme.number cs).1 = .longLiteral ∧ w ∈ long ∨
        (Lexeme.number cs).1 = .floatLiteral ∧ w ∉ plain ∧ w ∉ long := by
  have hlength : (Lexeme.number cs).2 ≤ cs.length := by
    have hle := Lexeme.stops_number cs [] Lexeme.endsLine_nil
    rwa [List.append_nil] at hle
  have hplain : ∀ v, c :: v ∈ plain ↔ v ∈ digits := fun v => by
    rw [plain, cons_mem_letter_mul, and_iff_right hc]
  have hrun := munches_run Char.isDigit cs
  subst hw
  rcases number_cases cs with ⟨d, rest, hd, hrest, -, hnumber⟩ | ⟨hlong, n, hn, hnumber⟩
  · refine .inr (.inl ⟨by rw [hnumber], ?_⟩)
    rw [hnumber, take_run_succ hrest]
    exact Language.append_mem_mul ((hplain _).mpr hrun.mem) ⟨d, hd, rfl⟩
  · rw [hnumber] at hlength ⊢
    by_cases hint : n = Lexeme.run Char.isDigit cs
    · refine .inl ⟨if_pos hint, (hplain _).mpr ?_⟩
      rw [hint]
      exact hrun.mem
    · have hle := Lexeme.run_le_scaled cs
      have hpre := List.take_prefix n cs
      refine .inr (.inr ⟨if_neg hint, fun hw => ?_, fun hw => ?_⟩)
      · have hbound := hrun.longest _ ((hplain _).mp hw) hpre
        rw [List.length_take_of_le hlength, List.length_take] at hbound
        omega
      · rw [long, plain, mul_assoc, cons_mem_letter_mul] at hw
        have hbound := length_le_of_long hw.2 hpre
        rw [List.length_take_of_le hlength] at hbound
        omega

end Numbers

/-! ## Lexical classes -/

/-- The lexical classes. -/
inductive Class where
  | blanks | lineComment | blockComment | word | number | string | mark
  deriving DecidableEq

/-- The kinds of the characters that stand alone. -/
def punctuation : List (Char × Kind) :=
  [('(', .openPar), (')', .closePar), ('[', .openSquare), (']', .closeSquare), (',', .comma),
    (';', .semicolon), ('.', .dot), ('#', .hash), ('@', .atSign), (':', .colon), ('=', .assign)]

namespace Class

/-- The lexemes of a class. -/
def language : Class → Language Char
  | blanks => letter isBlank * (letter isBlank)∗
  | lineComment =>
    {['-', '-']} * (letter (· != '\n'))∗ + {['/', '/']} * (letter (· != '\n'))∗
  | blockComment => {['/', '*']} * upTo ['*', '/']
  | word =>
    letter (fun c => c.isAlpha || c == '_') * (letter fun c => c.isAlphanum || c == '_')∗
  | number => Grammar.number
  | string => {['\'']} * upTo ['\''] + {['"']} * upTo ['"']
  | mark => letter fun _ => true

/-- The text starts with a lexeme of the class. -/
def Applies (k : Class) (cs : List Char) : Prop := ∃ w ∈ k.language, w <+: cs

/-- The class applies, and no other class does apart from `mark`, which applies
everywhere. -/
def Selected (k : Class) (cs : List Char) : Prop :=
  k.Applies cs ∧ ∀ j : Class, j.Applies cs → j = k ∨ j = mark

/-- The kinds of the lexemes of a class. -/
def Tags : Class → List Char → Kind → Prop
  | blanks, _, kind => kind = .whitespace
  | lineComment, _, kind => kind = .lineComment
  | blockComment, _, kind => kind = .blockComment
  | word, w, kind =>
    (∀ k, kind = .keyword k ↔ (String.ofList w).toLower = k.spelling) ∧
      (kind = .identifier ↔ ∀ k : Keyword, (String.ofList w).toLower ≠ k.spelling)
  | number, w, kind =>
    kind = .intLiteral ∧ w ∈ plain ∨ kind = .longLiteral ∧ w ∈ long ∨
      kind = .floatLiteral ∧ w ∉ plain ∧ w ∉ long
  | string, _, kind => kind = .stringLiteral
  | mark, w, kind =>
    ∃ c, w = [c] ∧ ((c, kind) ∈ punctuation ∨ kind = .other c ∧ ∀ k, (c, k) ∉ punctuation)

/-- The characters that open a lexeme of the class. -/
def opens (c : Char) (cs : List Char) : Class → Bool
  | blanks => isBlank c
  | lineComment => Lexeme.opensLineComment c cs
  | blockComment => Lexeme.opensBlockComment c cs
  | word => Lexeme.isWordStart c
  | number => c.isDigit
  | string => c == '\'' || c == '"'
  | mark => true

/-- How much of the text behind its first character belongs to the lexeme. -/
def more (c : Char) (cs : List Char) : Class → Nat
  | blanks => Lexeme.run isBlank cs
  | lineComment => Lexeme.run (· != '\n') cs
  | blockComment => Lexeme.blockEnd (cs.drop 1) + 1
  | word => Lexeme.run Lexeme.isWordPart cs
  | number => (Lexeme.number cs).2
  | string => Lexeme.stringEnd c cs
  | mark => 0

variable {k : Class} {c : Char} {cs : List Char}

theorem of_letter_mul {p : Char → Bool} {M : Language Char} {w : List Char}
    (hw : w ∈ letter p * M) (hpre : w <+: c :: cs) : p c = true := by
  obtain ⟨d, v, hd, -, rfl⟩ := mem_letter_mul.mp hw
  rw [← (List.cons_prefix_cons.mp hpre).1]
  exact hd

theorem of_word_mul {a : List Char} {M : Language Char} {w : List Char}
    (hw : w ∈ ({a} : Language Char) * M) (hpre : w <+: cs) : a <+: cs := by
  obtain ⟨v, -, rfl⟩ := mem_word_mul.mp hw
  exact (List.prefix_append a v).trans hpre

theorem opens_lineComment :
    lineComment.opens c cs = true ↔ ['-', '-'] <+: c :: cs ∨ ['/', '/'] <+: c :: cs := by
  rw [opens, Lexeme.opensLineComment]
  cases cs with
  | nil => simp
  | cons d cs => grind

theorem opens_blockComment : blockComment.opens c cs = true ↔ ['/', '*'] <+: c :: cs := by
  rw [opens, Lexeme.opensBlockComment]
  cases cs with
  | nil => simp
  | cons d cs => grind

theorem opens_string : string.opens c cs = true ↔ ['\''] <+: c :: cs ∨ ['"'] <+: c :: cs := by
  simp [opens, @eq_comm Char c]

/-- The class that opens a lexeme takes the longest word of its language. -/
theorem isLongest_of_opens (h : k.opens c cs = true) :
    IsLongest k.language (c :: cs) (c :: cs.take (k.more c cs)) := by
  cases k with
  | blanks => exact (munches_run isBlank).letter_mul h cs
  | lineComment =>
    rcases opens_lineComment.mp h with ⟨cs, heq⟩ | ⟨cs, heq⟩ <;> cases heq
    · refine ((munches_run (· != '\n')).word_mul ['-', '-'] cs).add_left fun v hv hpre => ?_
      exact absurd (of_word_mul hv hpre) (by simp)
    · refine ((munches_run (· != '\n')).word_mul ['/', '/'] cs).add_right fun v hv hpre => ?_
      exact absurd (of_word_mul hv hpre) (by simp)
  | blockComment =>
    obtain ⟨cs, heq⟩ := opens_blockComment.mp h
    cases heq
    exact munches_blockEnd.word_mul ['/', '*'] cs
  | word => exact (munches_run Lexeme.isWordPart).letter_mul h cs
  | number =>
    rw [language, number_eq_letter_mul]
    exact munches_number.letter_mul h cs
  | string =>
    rcases opens_string.mp h with ⟨cs, heq⟩ | ⟨cs, heq⟩ <;> cases heq
    · refine ((munches_stringEnd '\'').word_mul ['\''] cs).add_left fun v hv hpre => ?_
      exact absurd (of_word_mul hv hpre) (by simp)
    · refine ((munches_stringEnd '"').word_mul ['"'] cs).add_right fun v hv hpre => ?_
      exact absurd (of_word_mul hv hpre) (by simp)
  | mark =>
    refine ⟨⟨c, rfl, rfl⟩, List.cons_prefix_cons.mpr ⟨rfl, List.nil_prefix⟩, ?_⟩
    rintro v ⟨d, -, rfl⟩ -
    exact Nat.le_refl 1

/-- A class applies exactly if it opens here. -/
theorem applies_iff : k.Applies (c :: cs) ↔ k.opens c cs = true := by
  refine ⟨?_, fun h => ⟨_, (isLongest_of_opens h).mem, (isLongest_of_opens h).isPrefix⟩⟩
  rintro ⟨w, hw, hpre⟩
  cases k with
  | blanks => exact of_letter_mul hw hpre
  | lineComment =>
    refine opens_lineComment.mpr (hw.imp ?_ ?_) <;> exact fun hw => of_word_mul hw hpre
  | blockComment => exact opens_blockComment.mpr (of_word_mul hw hpre)
  | word => exact of_letter_mul hw hpre
  | number =>
    rw [language, number_eq_letter_mul] at hw
    exact of_letter_mul hw hpre
  | string => refine opens_string.mpr (hw.imp ?_ ?_) <;> exact fun hw => of_word_mul hw hpre
  | mark => rfl

/-- The codes of the characters that open a lexeme of the class. -/
def Code (n : Nat) : Class → Prop
  | blanks => n ≤ 0x20 ∨ 0x85 ≤ n
  | lineComment => n = 0x2D ∨ n = 0x2F
  | blockComment => n = 0x2F
  | word => 0x41 ≤ n ∧ n ≤ 0x7A
  | number => 0x30 ≤ n ∧ n ≤ 0x39
  | string => n = 0x22 ∨ n = 0x27
  | mark => True

/-- What a class may start with, by the code of the character. -/
theorem code_of_opens (h : k.opens c cs = true) : k.Code c.toNat := by
  cases k with
  | blanks =>
    simp only [opens, isBlank, Bool.or_eq_true, Bool.and_eq_true, decide_eq_true_eq,
      beq_iff_eq] at h
    rw [Code]
    omega
  | lineComment =>
    rcases opens_lineComment.mp h with ⟨cs, heq⟩ | ⟨cs, heq⟩ <;> cases heq <;> simp [Code]
  | blockComment =>
    obtain ⟨cs, heq⟩ := opens_blockComment.mp h
    cases heq
    rfl
  | word =>
    rw [opens, Lexeme.isWordStart, Bool.or_eq_true, beq_iff_eq] at h
    rcases h with halpha | rfl
    · change (decide ('A'.val ≤ c.val ∧ c.val ≤ 'Z'.val) ||
        (decide ('a'.val ≤ c.val) && decide (c.val ≤ 'z'.val))) = true at halpha
      simp only [Bool.or_eq_true, Bool.and_eq_true, decide_eq_true_eq] at halpha
      rcases halpha with hupper | hlower
      · exact ⟨hupper.1, Nat.le_trans hupper.2 (by decide)⟩
      · exact ⟨Nat.le_trans (by decide) hlower.1, hlower.2⟩
    · simp [Code]
  | number =>
    simp only [opens, Char.isDigit, Bool.and_eq_true, decide_eq_true_eq, ge_iff_le,
      UInt32.le_iff_toNat_le, Char.toNat_val, Char.reduceVal, UInt32.reduceToNat] at h
    exact h
  | string => rcases opens_string.mp h with ⟨cs, heq⟩ | ⟨cs, heq⟩ <;> cases heq <;> simp [Code]
  | mark => trivial

/-- What opens a line comment opens no block comment. -/
theorem not_both_comments (h : lineComment.opens c cs = true) :
    blockComment.opens c cs = false := by
  rcases opens_lineComment.mp h with ⟨cs, heq⟩ | ⟨cs, heq⟩ <;> cases heq <;> rfl

/-- No two classes open at one place, except that a mark may be any character. -/
theorem eq_of_opens {j : Class} (hj : j.opens c cs = true) (hk : k.opens c cs = true)
    (hne : k ≠ mark) : j = k ∨ j = mark := by
  have hcodej := code_of_opens hj
  have hcodek := code_of_opens hk
  cases j <;> cases k <;> grind [Code, not_both_comments]

/-- A word gets the kind of its keyword, or that of an identifier. -/
theorem tags_word (w : List Char) : word.Tags w (Lexeme.wordKind w) := by
  have hlower : (String.ofList w).toLower = String.ofList (w.map Char.toLower) := by
    change (String.ofList w).map Char.toLower = _
    rw [← String.toList_inj, String.toList_map, String.toList_ofList, String.toList_ofList]
  have hspelling : ∀ k : Keyword, (String.ofList w).toLower = k.spelling ↔
      Keyword.ofSpelling? (String.ofList (w.map Char.toLower)) = some k := fun k => by
    rw [Keyword.ofSpelling?_eq_some_iff, hlower, eq_comm]
  simp only [Tags, Lexeme.wordKind, ne_eq, hspelling]
  cases Keyword.ofSpelling? (String.ofList (w.map Char.toLower)) <;> simp

theorem tags_mark (c : Char) : mark.Tags [c] (Lexeme.markKind c) := by
  refine ⟨c, rfl, ?_⟩
  by_cases hmark : c ∈ punctuation.map Prod.fst
  · left
    revert hmark c
    simp [punctuation, Lexeme.markKind]
  · right
    have hkind : Lexeme.markKind c = .other c := by
      unfold Lexeme.markKind
      split <;> first | rfl | exact absurd (by simp [punctuation]) hmark
    exact ⟨hkind, fun k hk => hmark (List.mem_map_of_mem hk)⟩

/-- The class of the next lexeme. -/
theorem exists_opens (c : Char) (cs : List Char) :
    ∃ k : Class, k.opens c cs = true ∧ (∀ j : Class, j.opens c cs = true → j = k ∨ j = mark) ∧
      (Lexeme.next c cs).2 = k.more c cs ∧
      k.Tags (c :: cs.take (k.more c cs)) (Lexeme.next c cs).1 := by
  unfold Lexeme.next
  split_ifs with hblank hline hblock hword hdigit hquote
  · exact ⟨blanks, hblank, fun j hj => eq_of_opens hj hblank (by decide), rfl, rfl⟩
  · exact ⟨lineComment, hline, fun j hj => eq_of_opens hj hline (by decide), rfl, rfl⟩
  · exact ⟨blockComment, hblock, fun j hj => eq_of_opens hj hblock (by decide), rfl, rfl⟩
  · exact ⟨word, hword, fun j hj => eq_of_opens hj hword (by decide), rfl, tags_word _⟩
  · exact ⟨number, hdigit, fun j hj => eq_of_opens hj hdigit (by decide), rfl,
      number_kind hdigit cs rfl⟩
  · exact ⟨string, hquote, fun j hj => eq_of_opens hj hquote (by decide), rfl, rfl⟩
  · refine ⟨mark, rfl, fun j hj => .inr ?_, rfl, tags_mark c⟩
    cases j <;> first | rfl | contradiction

end Class

/-- The text starts with the lexeme `w` of this kind. -/
def IsLexeme (cs w : List Char) (kind : Kind) : Prop :=
  ∃ k : Class, k.Selected cs ∧ IsLongest k.language cs w ∧ k.Tags w kind

/-- The next lexeme of a text is the lexeme of the grammar. -/
theorem next_isLexeme (c : Char) (cs : List Char) :
    IsLexeme (c :: cs) (c :: cs.take (Lexeme.next c cs).2) (Lexeme.next c cs).1 := by
  obtain ⟨k, hopens, honly, hmore, htags⟩ := Class.exists_opens c cs
  rw [hmore]
  exact ⟨k, ⟨Class.applies_iff.mpr hopens, fun j hj => honly j (Class.applies_iff.mp hj)⟩,
    Class.isLongest_of_opens hopens, htags⟩

end Grammar

namespace Token

/-- Every token of a text has the class that the rest of the text at its start
selects, and takes the longest prefix of the rest in that class. -/
theorem scan_longest_match {s : String} {tok : Token} (h : tok ∈ scan s) :
    ∃ before rest, s.toList = before ++ rest ∧ byteCount before = tok.start ∧
      Grammar.IsLexeme rest tok.text.toList tok.kind := by
  obtain ⟨before, c, rest, hsplit, hstart, hkind, htext⟩ := exists_next_of_mem_scanFrom h
  rw [Nat.zero_add] at hstart
  refine ⟨before, c :: rest, hsplit, hstart.symm, ?_⟩
  rw [hkind, htext, String.toList_ofList]
  exact Grammar.next_isLexeme c rest

/-- The suffix `l` ends a long number, and `f` starts the next word. -/
theorem scan_longest_match_longNumber :
    (⟨.longLiteral, "5l", 1⟩ : Token) ∈ scan "-5lf" ∧
      ∃ before rest, "-5lf".toList = before ++ rest ∧ byteCount before = 1 ∧
        Grammar.IsLexeme rest ['5', 'l'] .longLiteral := by
  have hmem : (⟨.longLiteral, "5l", 1⟩ : Token) ∈ scan "-5lf" := by decide
  exact ⟨hmem, scan_longest_match hmem⟩

example : (scan "a--b").map kind = [.identifier, .lineComment] := by decide

example : (scan "/*/").map (·.text) = ["/*/"] := by decide

example : (scan "1.e+f 2L").map kind = [.floatLiteral, .whitespace, .longLiteral] := by decide

end Token

end SiddhiEditor
