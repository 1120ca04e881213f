import SiddhiEditor.Proofs.Tiling
import SiddhiEditor.Text.Bytes
import SiddhiEditor.Token.Lexeme

/-!
# What the scanner looks at

A lexeme is decided by its own characters and by the one behind them
(`next_local`).  So a text may be exchanged behind a lexeme as long as it starts
with the same character.

A newline ends every lexeme but blank runs, strings and block comments
(`next_cases`).  Strings and block comments run over it, and what is left of one
at the start of a line is found by the same search as at its own start
(`stringEnd_append`, `blockEnd_newline`).

`Reaches` says where the scanner is in a text when it has come to a given
offset, and `visibleIn` lists the visible tokens of a text.
-/

namespace SiddhiEditor

namespace Lexeme

open Text (isBlank)

/-! ## One character ahead -/

/-- A length that is decided by the characters it counts and the one behind
them. -/
def Local (f : List Char → Nat) : Prop :=
  ∀ b rest rest', rest.head? = rest'.head? → f (b ++ rest) ≤ b.length →
    f (b ++ rest') = f (b ++ rest)

/-- What is put behind a text is seen by its first character only. -/
theorem head?_append_congr {b rest rest' : List Char} (h : rest.head? = rest'.head?) :
    (b ++ rest).head? = (b ++ rest').head? := by
  rw [List.head?_append, List.head?_append, h]

/-- Two lengths one behind the other. -/
theorem Local.add {f g : List Char → Nat} (hf : Local f) (hg : Local g) :
    Local fun cs => f cs + g (cs.drop (f cs)) := by
  intro b rest rest' hhead hle
  have hk : f (b ++ rest) ≤ b.length := Nat.le_trans (Nat.le_add_right _ _) hle
  have hdrop : ∀ r : List Char, (b ++ r).drop (f (b ++ rest)) = b.drop (f (b ++ rest)) ++ r :=
    fun r => List.drop_append_of_le_length hk
  simp only [hf b rest rest' hhead hk, hdrop] at hle ⊢
  rw [hg _ rest rest' hhead]
  rw [List.length_drop]
  omega

/-- A length that is counted only from certain characters on and is 0 here is 0
before any text with the same first character. -/
theorem eq_of_head?_eq {f g : List Char → Nat} {p : Char → Bool}
    (hcons : ∀ c cs, f (c :: cs) = if p c then g cs + 1 else 0) {rest rest' : List Char}
    (hhead : rest.head? = rest'.head?) (hle : f rest ≤ 0) : f rest' = f rest := by
  cases rest with
  | nil =>
    rw [List.head?_nil, eq_comm, List.head?_eq_none_iff] at hhead
    rw [hhead]
  | cons c cs =>
    obtain ⟨cs', rfl⟩ := List.head?_eq_some_iff.mp hhead.symm
    rw [hcons] at hle ⊢
    rw [hcons]
    split
    · rename_i hc
      simp [hc] at hle
    · rfl

/-- A length that is counted from a character on. -/
theorem Local.guard {f g : List Char → Nat} {p : Char → Bool}
    (hcons : ∀ c cs, f (c :: cs) = if p c then g cs + 1 else 0) (hg : Local g) : Local f := by
  intro b rest rest' hhead hle
  cases b with
  | nil => exact eq_of_head?_eq hcons hhead hle
  | cons c b =>
    simp only [List.cons_append, hcons, List.length_cons] at hle ⊢
    split
    · rename_i hc
      rw [if_pos hc] at hle
      rw [hg b rest rest' hhead (by omega)]
    · rfl

theorem local_const (n : Nat) : Local fun _ => n := fun _ _ _ _ _ => rfl

theorem run_cons (p : Char → Bool) (c : Char) (cs : List Char) :
    run p (c :: cs) = if p c then run p cs + 1 else 0 := by
  rw [run, List.takeWhile_cons]
  split <;> rfl

theorem drop_run (p : Char → Bool) (cs : List Char) : cs.drop (run p cs) = cs.dropWhile p := by
  induction cs with
  | nil => rfl
  | cons c cs ih =>
    rw [run_cons, List.dropWhile_cons]
    split
    · exact ih
    · rfl

/-- A run of characters is found by the first character that is not in it. -/
theorem local_run (p : Char → Bool) : Local (run p) := by
  intro b rest rest' hhead hle
  induction b with
  | nil => exact eq_of_head?_eq (run_cons p) hhead hle
  | cons c b ih =>
    simp only [List.cons_append, run_cons, List.length_cons] at hle ⊢
    split
    · rename_i hc
      rw [if_pos hc] at hle
      rw [ih (by omega)]
    · rfl

theorem fraction_cons (c : Char) (cs : List Char) :
    fraction (c :: cs) = if c == '.' then run Char.isDigit cs + 1 else 0 := by
  simp only [fraction]
  split <;> simp_all

theorem sign_cons (c : Char) (cs : List Char) :
    sign (c :: cs) = if c == '+' || c == '-' then 0 + 1 else 0 := by
  simp only [sign]
  split <;> simp_all

theorem exponent_cons (c : Char) (cs : List Char) :
    exponent (c :: cs) =
      if c == 'e' || c == 'E' then sign cs + run Char.isDigit (cs.drop (sign cs)) + 1 else 0 := rfl

theorem local_fraction : Local fraction := .guard fraction_cons (local_run _)

theorem local_sign : Local sign := .guard sign_cons (local_const 0)

theorem local_exponent : Local exponent :=
  .guard exponent_cons (local_sign.add (local_run _))

/-- The length of a number without its suffix. -/
def scaled (cs : List Char) : Nat :=
  let fractional := run Char.isDigit cs + fraction (cs.drop (run Char.isDigit cs))
  fractional + exponent (cs.drop fractional)

/-- A number is its digits with a fraction and an exponent, and one letter that fits.
-/
theorem number_eq (cs : List Char) :
    number cs =
      match suffixKind? (scaled cs == run Char.isDigit cs) (cs.drop (scaled cs)) with
      | some kind => (kind, scaled cs + 1)
      | none =>
        (if scaled cs == run Char.isDigit cs then .intLiteral else .floatLiteral, scaled cs) := rfl

theorem local_scaled : Local scaled := ((local_run _).add local_fraction).add local_exponent

theorem run_le_scaled (cs : List Char) : run Char.isDigit cs ≤ scaled cs := by
  unfold scaled
  dsimp only
  omega

theorem scaled_le_number (cs : List Char) : scaled cs ≤ (number cs).2 := by
  rw [number_eq]
  split
  · exact Nat.le_succ _
  · exact Nat.le_refl _

/-- The letter behind a number is its next character. -/
theorem suffixKind?_congr {plain : Bool} {cs cs' : List Char} (h : cs.head? = cs'.head?) :
    suffixKind? plain cs = suffixKind? plain cs' := by
  cases cs with
  | nil =>
    rw [List.head?_nil, eq_comm, List.head?_eq_none_iff] at h
    rw [h]
  | cons c cs =>
    obtain ⟨cs', rfl⟩ := List.head?_eq_some_iff.mp h.symm
    rfl

/-- A number that ends in a text is read from this text and one character more. -/
theorem number_local {b rest rest' : List Char} (hhead : rest.head? = rest'.head?)
    (hle : (number (b ++ rest)).2 ≤ b.length) : number (b ++ rest') = number (b ++ rest) := by
  have hscaled : scaled (b ++ rest) ≤ b.length := Nat.le_trans (scaled_le_number _) hle
  have hwhole : run Char.isDigit (b ++ rest) ≤ b.length :=
    Nat.le_trans (run_le_scaled _) hscaled
  rw [number_eq, number_eq, local_scaled b rest rest' hhead hscaled,
    local_run _ b rest rest' hhead hwhole, List.drop_append_of_le_length hscaled,
    List.drop_append_of_le_length hscaled, suffixKind?_congr (head?_append_congr hhead.symm)]

theorem local_stringEnd (q : Char) : Local (stringEnd q) := by
  intro b rest rest' hhead hle
  induction b with
  | nil =>
    cases rest with
    | nil =>
      rw [List.head?_nil, eq_comm, List.head?_eq_none_iff] at hhead
      rw [hhead]
    | cons c cs =>
      rw [List.nil_append, stringEnd] at hle
      split at hle <;> simp at hle
  | cons c b ih =>
    simp only [List.cons_append, stringEnd, List.length_cons] at hle ⊢
    split
    · rfl
    · rename_i hc
      rw [if_neg hc] at hle
      rw [ih (by omega)]

theorem blockEnd_cons (c : Char) (cs : List Char) :
    blockEnd (c :: cs) = if c = '*' ∧ cs.head? = some '/' then 2 else blockEnd cs + 1 := by
  split
  · rename_i h
    obtain ⟨rfl, hhead⟩ := h
    obtain ⟨ds, rfl⟩ := List.head?_eq_some_iff.mp hhead
    rfl
  · rename_i h
    refine blockEnd.eq_3 c cs fun ds hc hcs => h ⟨hc, ?_⟩
    rw [hcs]
    rfl

theorem local_blockEnd : Local blockEnd := by
  intro b rest rest' hhead hle
  induction b with
  | nil =>
    cases rest with
    | nil =>
      rw [List.head?_nil, eq_comm, List.head?_eq_none_iff] at hhead
      rw [hhead]
    | cons c cs =>
      rw [List.nil_append, blockEnd_cons] at hle
      split at hle <;> simp at hle
  | cons c b ih =>
    simp only [List.cons_append, blockEnd_cons, List.length_cons, head?_append_congr hhead]
      at hle ⊢
    split
    · rfl
    · rename_i hc
      rw [if_neg hc] at hle
      rw [ih (by omega)]

/-- A lexeme is decided by its characters and the one behind them. -/
theorem next_local {c : Char} {b rest rest' : List Char} (hhead : rest.head? = rest'.head?)
    (hle : (next c (b ++ rest)).2 ≤ b.length) : next c (b ++ rest') = next c (b ++ rest) := by
  have hhead' := head?_append_congr (b := b) hhead
  simp only [next, opensLineComment, opensBlockComment, ← hhead'] at hle ⊢
  split
  next hblank =>
    rw [if_pos hblank] at hle
    rw [local_run _ b rest rest' hhead hle]
  next hblank =>
    rw [if_neg hblank] at hle
    split
    next hline =>
      rw [if_pos hline] at hle
      rw [local_run _ b rest rest' hhead hle]
    next hline =>
      rw [if_neg hline] at hle
      split
      next hblock =>
        rw [if_pos hblock] at hle
        cases b with
        | nil => simp at hle
        | cons d b =>
          simp only [List.cons_append, List.drop_succ_cons, List.drop_zero, List.length_cons]
            at hle ⊢
          rw [local_blockEnd b rest rest' hhead (by omega)]
      next hblock =>
        rw [if_neg hblock] at hle
        split
        next hword =>
          rw [if_pos hword] at hle
          rw [local_run _ b rest rest' hhead hle, List.take_append_of_le_length hle,
            List.take_append_of_le_length hle]
        next hword =>
          rw [if_neg hword] at hle
          split
          next hdigit =>
            rw [if_pos hdigit] at hle
            exact number_local hhead hle
          next hdigit =>
            rw [if_neg hdigit] at hle
            split
            next hquote =>
              rw [if_pos hquote] at hle
              rw [local_stringEnd _ b rest rest' hhead hle]
            next => rfl

/-! ## The end of a line -/

/-- Nothing, or a text that starts with a newline. -/
def EndsLine (rest : List Char) : Prop := ∀ c, rest.head? = some c → c = '\n'

theorem endsLine_nil : EndsLine [] := by
  intro c h
  cases h

theorem endsLine_newline (cs : List Char) : EndsLine ('\n' :: cs) := by
  intro c h
  cases h
  rfl

/-- A length that counts no characters behind the line. -/
def Stops (f : List Char → Nat) : Prop := ∀ w rest, EndsLine rest → f (w ++ rest) ≤ w.length

/-- Two pieces one behind the other stop at the end of the line if both do. -/
theorem Stops.add {f g : List Char → Nat} (hf : Stops f) (hg : Stops g) :
    Stops fun cs => f cs + g (cs.drop (f cs)) := by
  intro w rest hrest
  have hk := hf w rest hrest
  have hle := hg (w.drop (f (w ++ rest))) rest hrest
  rw [List.length_drop] at hle
  simp only [List.drop_append_of_le_length hk]
  omega

/-- So does a piece behind a character that does not end a line. -/
theorem Stops.guard {f g : List Char → Nat} {p : Char → Bool} (hnil : f [] = 0)
    (hcons : ∀ c cs, f (c :: cs) = if p c then g cs + 1 else 0) (hp : p '\n' = false)
    (hg : Stops g) : Stops f := by
  intro w rest hrest
  cases w with
  | nil =>
    cases rest with
    | nil => exact Nat.le_of_eq hnil
    | cons c cs => simp [hcons, hrest c rfl, hp]
  | cons c w =>
    have hle := hg w rest hrest
    rw [List.cons_append, hcons, List.length_cons]
    split <;> omega

theorem stops_zero : Stops fun _ => 0 := fun _ _ _ => Nat.zero_le _

theorem stops_run {p : Char → Bool} (hp : p '\n' = false) : Stops (run p) := by
  intro w rest hrest
  induction w with
  | nil =>
    cases rest with
    | nil => exact Nat.le_refl _
    | cons c cs => simp [run_cons, hrest c rfl, hp]
  | cons c w ih =>
    rw [List.cons_append, run_cons, List.length_cons]
    split <;> omega

theorem stops_fraction : Stops fraction := .guard rfl fraction_cons rfl (stops_run rfl)

theorem stops_sign : Stops sign := .guard rfl sign_cons rfl stops_zero

theorem stops_exponent : Stops exponent :=
  .guard rfl exponent_cons rfl (stops_sign.add (stops_run rfl))

theorem stops_scaled : Stops scaled := ((stops_run rfl).add stops_fraction).add stops_exponent

/-- At the end of the line there is no letter behind a number. -/
theorem suffixKind?_of_endsLine {plain : Bool} {rest : List Char} (h : EndsLine rest) :
    suffixKind? plain rest = none := by
  cases rest with
  | nil => rfl
  | cons c cs =>
    rw [h c rfl]
    cases plain <;> rfl

/-- Numbers stop at the end of the line. -/
theorem stops_number : Stops fun cs => (number cs).2 := by
  intro w rest hrest
  have hk := stops_scaled w rest hrest
  show (number (w ++ rest)).2 ≤ w.length
  rw [number_eq, List.drop_append_of_le_length hk]
  rcases Nat.eq_or_lt_of_le hk with heq | hlt
  · rw [heq, List.drop_length, List.nil_append, suffixKind?_of_endsLine hrest]
  · split
    · exact hlt
    · exact hk

/-- A character that opens and closes a string. -/
def IsQuote (q : Char) : Prop := q = '\'' ∨ q = '"'

theorem IsQuote.isBlank_eq {q : Char} (hq : IsQuote q) : isBlank q = false := by
  rcases hq with rfl | rfl <;> rfl

theorem IsQuote.ne_newline {q : Char} (hq : IsQuote q) : q ≠ '\n' := by
  rcases hq with rfl | rfl <;> decide

/-- A quote starts a string. -/
theorem next_quote {q : Char} (hq : IsQuote q) (cs : List Char) :
    next q cs = (.stringLiteral, stringEnd q cs) := by
  rcases hq with rfl | rfl <;> rfl

/-- A slash and a star start a block comment. -/
theorem next_blockComment (cs : List Char) :
    next '/' ('*' :: cs) = (.blockComment, blockEnd cs + 1) := rfl

/-- A lexeme that is not blank ends with its line, unless it is a string or a
block comment. -/
theorem next_cases {c : Char} {w rest : List Char} (hc : isBlank c = false)
    (hrest : EndsLine rest) :
    (next c (w ++ rest)).2 ≤ w.length ∨ IsQuote c ∨ c = '/' ∧ ∃ v, w = '*' :: v := by
  simp only [next, hc, Bool.false_eq_true, if_false]
  split
  · exact .inl (stops_run rfl w rest hrest)
  split
  next hblock =>
    simp only [opensBlockComment, Bool.and_eq_true, beq_iff_eq] at hblock
    obtain ⟨hslash, hstar⟩ := hblock
    cases w with
    | nil => cases hrest _ hstar
    | cons d w =>
      cases hstar
      exact .inr (.inr ⟨hslash, w, rfl⟩)
  split
  · exact .inl (stops_run rfl w rest hrest)
  split
  · exact .inl (stops_number w rest hrest)
  split
  next hquote =>
    simp only [Bool.or_eq_true, beq_iff_eq] at hquote
    exact .inr (.inl hquote)
  next => exact .inl (Nat.zero_le _)

/-! ## Strings and block comments over several lines -/

/-- A string goes on over a text without its quote. -/
theorem stringEnd_append {q : Char} {b : List Char} (h : q ∉ b) (rest : List Char) :
    stringEnd q (b ++ rest) = b.length + stringEnd q rest := by
  induction b with
  | nil => simp
  | cons c b ih =>
    rw [List.mem_cons, not_or] at h
    rw [List.cons_append, stringEnd, if_neg (by simpa using Ne.symm h.1), ih h.2, List.length_cons]
    omega

/-- A string ends in a text that has its quote. -/
theorem stringEnd_le_of_mem {q : Char} {b : List Char} (h : q ∈ b) (rest : List Char) :
    stringEnd q (b ++ rest) ≤ b.length := by
  induction b with
  | nil => cases h
  | cons c b ih =>
    rw [List.cons_append, stringEnd, List.length_cons]
    split
    · omega
    · rename_i hc
      have hmem : q ∈ b := (List.mem_cons.mp h).resolve_left fun heq => hc (by simp [heq])
      have hle := ih hmem
      omega

/-- A block comment goes on over a text without stars. -/
theorem blockEnd_append {b : List Char} (h : '*' ∉ b) (rest : List Char) :
    blockEnd (b ++ rest) = b.length + blockEnd rest := by
  induction b with
  | nil => simp
  | cons c b ih =>
    rw [List.mem_cons, not_or] at h
    rw [List.cons_append, blockEnd_cons, if_neg fun hc => h.1 hc.1.symm, ih h.2, List.length_cons]
    omega

/-- A block comment ends in the line, or the whole line is part of it. -/
theorem blockEnd_newline (w rest : List Char) :
    blockEnd (w ++ '\n' :: rest) ≤ w.length ∨
      ∀ rest', blockEnd (w ++ '\n' :: rest') = w.length + 1 + blockEnd rest' := by
  induction w with
  | nil =>
    refine .inr fun rest' => ?_
    rw [List.nil_append, blockEnd_cons, if_neg (by simp), List.length_nil]
    omega
  | cons c w ih =>
    simp only [List.cons_append, blockEnd_cons, List.length_cons]
    have hhead : ∀ rest', (w ++ '\n' :: rest').head? = (w ++ '\n' :: rest).head? := fun rest' =>
      head?_append_congr rfl
    simp only [hhead]
    split
    next hclose =>
      cases w with
      | nil => cases hclose.2
      | cons d w => exact .inl (by simp)
    next =>
      rcases ih with hle | hopen
      · exact .inl (by omega)
      · refine .inr fun rest' => ?_
        rw [hopen]
        omega

/-! ## Lengths -/

theorem stringEnd_le (q : Char) (cs : List Char) : stringEnd q cs ≤ cs.length := by
  induction cs with
  | nil => exact Nat.le_refl _
  | cons c cs ih =>
    rw [stringEnd, List.length_cons]
    split <;> omega

theorem blockEnd_le (cs : List Char) : blockEnd cs ≤ cs.length := by
  induction cs with
  | nil => exact Nat.le_refl _
  | cons c cs ih =>
    rw [blockEnd_cons, List.length_cons]
    split
    next hclose =>
      cases cs with
      | nil => cases hclose.2
      | cons d cs => simp
    next => omega

/-- No lexeme is longer than the text. -/
theorem next_le (c : Char) (cs : List Char) : (next c cs).2 ≤ cs.length := by
  cases hc : isBlank c with
  | true =>
    rw [next, if_pos hc]
    exact (List.takeWhile_prefix isBlank).length_le
  | false =>
    rcases next_cases (w := cs) hc endsLine_nil with hle | hquote | ⟨rfl, v, rfl⟩
    · rwa [List.append_nil] at hle
    · rw [next_quote hquote]
      exact stringEnd_le c cs
    · rw [next_blockComment]
      exact Nat.succ_le_succ (blockEnd_le v)

end Lexeme

namespace Token

open Lexeme (next)
open Text (isBlank byteCount)

/-! ## The tokens of a text -/

/-- At the start of a token the next lexeme is taken, and its characters are skipped.
-/
theorem scanFrom_zero (start : Nat) (c : Char) (cs : List Char) :
    scanFrom start 0 (c :: cs) =
      ⟨(next c cs).1, String.ofList (c :: cs.take (next c cs).2), start⟩ ::
        scanFrom (start + byteCount (c :: cs.take (next c cs).2)) (next c cs).2 cs := by
  rw [← Text.utf8ByteSize_ofList]
  rfl

/-- The tokens of a text lie end to end. -/
theorem tiles_scanFrom (start skip : Nat) (cs : List Char) :
    ∃ stop, Tiles start (scanFrom start skip cs) stop := by
  induction cs generalizing start skip with
  | nil =>
    refine ⟨start, ?_⟩
    cases skip <;> rfl
  | cons c cs ih =>
    cases skip with
    | zero =>
      obtain ⟨stop, h⟩ := ih _ (next c cs).2
      exact ⟨stop, rfl, h⟩
    | succ skip => exact ih start skip

/-- The visible tokens of a list, without their places. -/
def visible (toks : List Token) : List (Kind × String) :=
  (toks.filter isVisible).map fun tok => (tok.kind, tok.text)

/-- The visible tokens of a text, without their places. -/
def visibleIn (cs : List Char) : List (Kind × String) := visible (scanFrom 0 0 cs)

theorem visible_cons (tok : Token) (toks : List Token) :
    visible (tok :: toks) =
      (if tok.isVisible then [(tok.kind, tok.text)] else []) ++ visible toks := by
  rw [visible, List.filter_cons]
  split <;> rfl

/-- The visible tokens do not depend on where the text starts. -/
theorem visible_scanFrom (start skip : Nat) (cs : List Char) :
    visible (scanFrom start skip cs) = visibleIn (cs.drop skip) := by
  have hstart : ∀ start start' skip, visible (scanFrom start skip cs) =
      visible (scanFrom start' 0 (cs.drop skip)) := by
    induction cs with
    | nil =>
      intro start start' skip
      cases skip <;> rfl
    | cons c cs ih =>
      intro start start' skip
      cases skip with
      | zero =>
        rw [List.drop_zero, scanFrom_zero, scanFrom_zero, visible_cons, visible_cons, ih _ 0,
          ih _ 0]
        rfl
      | succ skip => exact ih start start' skip
  exact hstart start 0 skip

/-- The visible tokens of a text are its first lexeme and those of the rest. -/
theorem visibleIn_cons (c : Char) (cs : List Char) :
    visibleIn (c :: cs) =
      (if (next c cs).1.isTrivia then []
        else [((next c cs).1, String.ofList (c :: cs.take (next c cs).2))]) ++
        visibleIn (cs.drop (next c cs).2) := by
  rw [visibleIn, scanFrom_zero, visible_cons, visible_scanFrom]
  congr 1
  cases h : (next c cs).1.isTrivia <;> simp [isVisible, h]

/-- Blanks in front do not count. -/
theorem visibleIn_blank {c : Char} (hc : isBlank c = true) (cs : List Char) :
    visibleIn (c :: cs) = visibleIn cs := by
  have hdrop : ∀ d ds, isBlank d = true →
      visibleIn (d :: ds) = visibleIn (ds.dropWhile isBlank) := by
    intro d ds hd
    rw [visibleIn_cons, Lexeme.next, if_pos hd, Lexeme.drop_run]
    rfl
  rw [hdrop c cs hc]
  cases cs with
  | nil => rfl
  | cons d ds =>
    cases hd : isBlank d with
    | true => rw [hdrop d ds hd, List.dropWhile_cons, if_pos hd]
    | false => rw [List.dropWhile_cons, if_neg (by simp [hd])]

/-- A run of blanks at the start does not change the visible tokens. -/
theorem visibleIn_blanks {bs : List Char} (hbs : ∀ c ∈ bs, isBlank c = true) (cs : List Char) :
    visibleIn (bs ++ cs) = visibleIn cs := by
  induction bs with
  | nil => rfl
  | cons c bs ih =>
    rw [List.cons_append, visibleIn_blank (hbs c List.mem_cons_self)]
    exact ih fun d hd => hbs d (List.mem_cons_of_mem c hd)

/-! ## The scanner on its way -/

/-- The scanner of a text with the tokens `toks` has come to the offset `start`,
has the characters `cs` before it and is inside a token for `skip` of them. -/
def Reaches (toks : List Token) (start skip : Nat) (cs : List Char) : Prop :=
  ∃ before, toks = before ++ scanFrom (start + byteCount (cs.take skip)) skip cs ∧
    ∀ tok ∈ before, tok.start < start

namespace Reaches

variable {toks : List Token} {start skip : Nat} {c : Char} {cs b : List Char}

theorem scan (s : String) : Reaches (Token.scan s) 0 0 s.toList := by
  refine ⟨[], rfl, fun tok htok => ?_⟩
  cases htok

theorem begin_token (h : Reaches toks start 0 (c :: cs)) :
    Reaches toks (start + c.utf8Size) (next c cs).2 cs := by
  obtain ⟨before, htoks, hbefore⟩ := h
  rw [List.take_zero, Text.byteCount_nil, Nat.add_zero, scanFrom_zero, Text.byteCount_cons,
    ← Nat.add_assoc] at htoks
  refine ⟨before ++ [_], htoks.trans (List.append_cons _ _ _), fun tok htok => ?_⟩
  have hpos := Char.utf8Size_pos c
  rw [List.mem_append, List.mem_singleton] at htok
  rcases htok with htok | rfl
  · have hlt := hbefore tok htok
    omega
  · show start < start + c.utf8Size
    omega

theorem inside (h : Reaches toks start (skip + 1) (c :: cs)) :
    Reaches toks (start + c.utf8Size) skip cs := by
  obtain ⟨before, htoks, hbefore⟩ := h
  rw [List.take_succ_cons, Text.byteCount_cons, ← Nat.add_assoc] at htoks
  refine ⟨before, htoks, fun tok htok => ?_⟩
  have hlt := hbefore tok htok
  omega

theorem append (h : Reaches toks start (b.length + skip) (b ++ cs)) :
    Reaches toks (start + byteCount b) skip cs := by
  induction b generalizing start with
  | nil => simpa using h
  | cons c b ih =>
    rw [List.length_cons, Nat.add_right_comm] at h
    rw [Text.byteCount_cons, ← Nat.add_assoc]
    exact ih h.inside

/-- The token at hand ends inside `b`. -/
theorem drop {n : Nat} (h : Reaches toks start n (b ++ cs)) (hle : n ≤ b.length) :
    Reaches toks (start + byteCount (b.take n)) 0 (b.drop n ++ cs) := by
  refine append ?_
  rwa [List.length_take_of_le hle, Nat.add_zero, ← List.append_assoc, List.take_append_drop]

/-- A token that starts at or before an offset inside the token at hand starts
before the scanner. -/
theorem start_lt {tok : Token} {offset : Nat} (h : Reaches toks start skip cs) (htok : tok ∈ toks)
    (hle : tok.start ≤ offset) (hlt : offset < start + byteCount (cs.take skip)) :
    tok.start < start := by
  obtain ⟨before, rfl, hbefore⟩ := h
  rcases List.mem_append.mp htok with hmem | hmem
  · exact hbefore tok hmem
  · obtain ⟨stop, htiles⟩ := tiles_scanFrom (start + byteCount (cs.take skip)) skip cs
    have hge := htiles.start_le hmem
    omega

end Reaches

end Token

/-! ## Documents that are made of their scanned tokens -/

/-- Two tilings from one start with the same kinds and texts are equal. -/
theorem Tiles.eq_of_map_eq {a b b' : Nat} {toks toks' : List Token} (h : Tiles a toks b)
    (h' : Tiles a toks' b')
    (heq : toks.map (fun tok => (tok.kind, tok.text)) = toks'.map fun tok => (tok.kind, tok.text)) :
    toks = toks' := by
  induction toks generalizing a toks' with
  | nil => exact (List.map_eq_nil_iff.mp heq.symm).symm
  | cons tok rest ih =>
    obtain ⟨tok', rest', rfl, hhead, htail⟩ := List.map_eq_cons_iff.mp heq.symm
    obtain ⟨rfl, hrest⟩ := h
    obtain ⟨hstart, hrest'⟩ := h'
    obtain ⟨hkind, htext⟩ := Prod.mk.inj hhead
    have htok : tok' = tok := by
      cases tok
      cases tok'
      simp_all
    subst htok
    rw [ih hrest hrest' htail.symm]

/-- Tokens with the kinds and texts that a scan finds are those of the scan. -/
theorem Tree.Document.tokens_eq_scan {t : Tree} (doc : t.Document)
    (h : t.tokens.map (fun tok => (tok.kind, tok.text)) =
      (Token.scan t.source).map fun tok => (tok.kind, tok.text)) :
    t.tokens = Token.scan t.source := by
  obtain ⟨stop, htiles⟩ := Token.tiles_scanFrom 0 0 t.source.toList
  exact doc.tiled.eq_of_map_eq htiles h

end SiddhiEditor
