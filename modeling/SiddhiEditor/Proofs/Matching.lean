import SiddhiEditor.Completion.Engine
import SiddhiEditor.Proofs.Tiling

/-!
# What has been typed, and what matches it

What has been typed of a word is found by a cut at a byte count, and a label is cut
at a byte count to see whether it matches.  A cut inside of a character gives
nothing.  Here both are said without cuts.

* `Token.Typed` is what has been typed: the part of the word before the cursor, or
  nothing where no part of the word ends at the cursor.
* `Text.BeginsWith` is matching, character by character.  Bytes and characters agree
  because a letter has one byte in either case (`Text.utf8Size_toLower`).
-/

namespace SiddhiEditor

/-! ## Cuts at a byte count -/

namespace Text

/-- A cut behind some characters gives these characters. -/
theorem takeBytes?_append (cs rest : List Char) :
    takeBytes? (byteCount cs) (cs ++ rest) = some cs := by
  induction cs with
  | nil => rw [byteCount_nil, takeBytes?]
  | cons c cs ih =>
    obtain ⟨n, hn⟩ : ∃ n, c.utf8Size + byteCount cs = n + 1 :=
      ⟨c.utf8Size + byteCount cs - 1, by have := c.utf8Size_pos; omega⟩
    have hrest : n + 1 - c.utf8Size = byteCount cs := by omega
    rw [byteCount_cons, hn, List.cons_append, takeBytes?, if_pos (by omega), hrest, ih]
    rfl

/-- A cut gives the beginning with this number of bytes. -/
theorem takeBytes?_eq_some_iff {n : Nat} {cs head : List Char} :
    takeBytes? n cs = some head ↔ head <+: cs ∧ byteCount head = n := by
  constructor
  · intro h
    fun_induction takeBytes? n cs generalizing head with
    | case1 cs =>
      cases h
      exact ⟨⟨cs, rfl⟩, rfl⟩
    | case2 n => cases h
    | case3 n c cs hfits ih =>
      obtain ⟨rest, hrest, rfl⟩ := Option.map_eq_some_iff.mp h
      obtain ⟨hstarts, hcount⟩ := ih hrest
      refine ⟨(List.prefix_cons_inj c).mpr hstarts, ?_⟩
      rw [byteCount_cons, hcount]
      omega
    | case4 n c cs hfits => cases h
  · rintro ⟨⟨rest, rfl⟩, rfl⟩
    exact takeBytes?_append head rest

/-- Of two beginnings of a text the one with fewer bytes begins the other. -/
theorem prefix_of_byteCount_le {cs first second : List Char} (hfirst : first <+: cs)
    (hsecond : second <+: cs) (hle : byteCount first ≤ byteCount second) : first <+: second := by
  rcases List.prefix_or_prefix_of_prefix hfirst hsecond with h | ⟨rest, rfl⟩
  · exact h
  · cases rest with
    | nil => exact ⟨[], by rw [List.append_nil, List.append_nil]⟩
    | cons c rest =>
      have hpos := c.utf8Size_pos
      rw [byteCount_append, byteCount_cons] at hle
      omega

theorem isUpper_iff {c : Char} : c.isUpper = true ↔ 65 ≤ c.toNat ∧ c.toNat ≤ 90 :=
  decide_eq_true_iff.trans (and_congr UInt32.le_iff_toNat_le UInt32.le_iff_toNat_le)

theorem toLower_of_not_isUpper {c : Char} (h : c.isUpper = false) : c.toLower = c :=
  dif_neg (of_decide_eq_false h)

theorem toNat_toLower {c : Char} (h : c.isUpper = true) : c.toLower.toNat = c.toNat + 32 := by
  have hval : c.toLower.val = c.val + ('a'.val - 'A'.val) :=
    congrArg Char.val (dif_pos (of_decide_eq_true h))
  have hstep : ('a'.val - 'A'.val).toNat = 32 := by decide
  have hle : c.val.toNat ≤ 90 := (isUpper_iff.mp h).2
  show c.toLower.val.toNat = c.val.toNat + 32
  rw [hval, UInt32.toNat_add, hstep]
  omega

theorem utf8Size_eq_one {c : Char} (h : c.toNat ≤ 127) : c.utf8Size = 1 :=
  Char.utf8Size_eq_one_iff.mpr (UInt32.le_iff_toNat_le.mpr h)

/-- A letter takes one byte in either case. -/
theorem utf8Size_toLower (c : Char) : c.toLower.utf8Size = c.utf8Size := by
  cases h : c.isUpper with
  | false => rw [toLower_of_not_isUpper h]
  | true =>
    have hle := (isUpper_iff.mp h).2
    have hlower := toNat_toLower h
    rw [utf8Size_eq_one (by omega : c.toNat ≤ 127),
      utf8Size_eq_one (by omega : c.toLower.toNat ≤ 127)]

theorem byteCount_map_toLower (cs : List Char) :
    byteCount (cs.map Char.toLower) = byteCount cs := by
  induction cs with
  | nil => rfl
  | cons c cs ih => rw [List.map_cons, byteCount_cons, byteCount_cons, utf8Size_toLower, ih]

/-- The label begins with the characters of the text, up to the case of ASCII
letters. -/
def BeginsWith (label text : String) : Prop :=
  text.toList.map Char.toLower <+: label.toList.map Char.toLower

instance (label text : String) : Decidable (BeginsWith label text) :=
  inferInstanceAs (Decidable (_ <+: _))

/-- A label that begins with a text begins with every beginning of it. -/
theorem BeginsWith.of_shorter {label first second : String} (h : BeginsWith label second)
    (hstarts : first.toList <+: second.toList) : BeginsWith label first :=
  (hstarts.map Char.toLower).trans h

end Text

/-- A suggestion matches what its label begins with.  Case does not change the number
of bytes, so the cut falls between two characters. -/
theorem Suggestion.isMatch_iff {s : Suggestion} {typed : String} :
    s.isMatch typed = true ↔ Text.BeginsWith s.label typed := by
  rw [isMatch, ← Text.byteCount_toList]
  constructor
  · intro h
    cases hcut : Text.takeBytes? (Text.byteCount typed.toList) s.label.toList with
    | none =>
      rw [hcut] at h
      cases h
    | some start =>
      rw [hcut] at h
      have hsame : start.map Char.toLower = typed.toList.map Char.toLower := beq_iff_eq.mp h
      rw [Text.BeginsWith, ← hsame]
      exact (Text.takeBytes?_eq_some_iff.mp hcut).1.map Char.toLower
  · rintro ⟨rest, hrest⟩
    obtain ⟨start, behind, hlabel, hsame, -⟩ := List.map_eq_append_iff.mp hrest.symm
    have hcount : Text.byteCount typed.toList = Text.byteCount start := by
      rw [← Text.byteCount_map_toLower, ← hsame, Text.byteCount_map_toLower]
    rw [hcount, hlabel, Text.takeBytes?_append]
    exact beq_iff_eq.mpr hsame

/-- Where nothing has been typed, every suggestion matches. -/
theorem Suggestion.isMatch_empty (s : Suggestion) : s.isMatch "" = true := by
  simp [isMatch, Text.takeBytes?]

theorem Suggestion.isMatch_congr {s s' : Suggestion} (h : s.label = s'.label) (typed : String) :
    s.isMatch typed = s'.isMatch typed := by
  rw [isMatch, isMatch, h]

/-! ## What has been typed -/

/-- The token is a word, and `part` is what stands of it before the cursor. -/
structure Token.PartBefore (tok : Token) (offset : Nat) (part : String) : Prop where
  /-- The token is a word. -/
  word : tok.kind.isWord = true
  /-- The cursor is behind its start. -/
  start_lt : tok.start < offset
  /-- The word begins with the part. -/
  cut : ∃ rest, tok.text = part ++ rest
  /-- The part ends at the cursor. -/
  stop_eq : tok.start + part.utf8ByteSize = offset

/-- What has been typed of a token with the cursor at `offset`. -/
inductive Token.Typed (tok : Token) (offset : Nat) : String → Prop where
  /-- The part of a word before the cursor. -/
  | part {part : String} : tok.PartBefore offset part → Typed tok offset part
  /-- Nothing, if the token is no word, or the cursor is not in it or right behind
  it, or the cursor is inside of a character. -/
  | nothing : (∀ part, ¬ tok.PartBefore offset part) → Typed tok offset ""

namespace Token

variable {tok : Token} {offset : Nat} {part : String}

theorem PartBefore.touches (h : tok.PartBefore offset part) : tok.touches offset = true := by
  obtain ⟨rest, hrest⟩ := h.cut
  have hstop := h.stop_eq
  have hsize : tok.text.utf8ByteSize = part.utf8ByteSize + rest.utf8ByteSize := by
    rw [hrest, String.utf8ByteSize_append]
  rw [touches_iff, stop, length]
  exact ⟨h.start_lt, by omega⟩

theorem PartBefore.begins (h : tok.PartBefore offset part) :
    part.toList <+: tok.text.toList := by
  obtain ⟨rest, hrest⟩ := h.cut
  rw [hrest, String.toList_append]
  exact List.prefix_append _ _

theorem PartBefore.byteCount_eq (h : tok.PartBefore offset part) :
    Text.byteCount part.toList = offset - tok.start := by
  rw [Text.byteCount_toList, ← h.stop_eq, Nat.add_sub_cancel_left]

/-- The part of a word before the cursor is what has been typed. -/
theorem PartBefore.typedPart_eq (h : tok.PartBefore offset part) :
    Engine.typedPart tok offset = part := by
  have hcut := Text.takeBytes?_eq_some_iff.mpr ⟨h.begins, h.byteCount_eq⟩
  rw [Engine.typedPart, h.word, h.touches, Bool.and_self, if_pos rfl, hcut, Option.getD_some,
    String.ofList_toList]

/-- Nothing has been typed where no part of a word ends at the cursor. -/
theorem typedPart_eq_empty (h : ∀ part, ¬ tok.PartBefore offset part) :
    Engine.typedPart tok offset = "" := by
  rw [Engine.typedPart]
  split
  next hword =>
    rw [Bool.and_eq_true, touches_iff] at hword
    obtain ⟨hword, hstart, -⟩ := hword
    cases hcut : Text.takeBytes? (offset - tok.start) tok.text.toList with
    | none => rfl
    | some head =>
      obtain ⟨⟨rest, hrest⟩, hcount⟩ := Text.takeBytes?_eq_some_iff.mp hcut
      refine absurd ⟨hword, hstart, ⟨String.ofList rest, ?_⟩, ?_⟩ (h (String.ofList head))
      · rw [← String.ofList_append, hrest, String.ofList_toList]
      · rw [Text.utf8ByteSize_ofList, hcount]
        omega
  next => rfl

/-- What has been typed is one text. -/
theorem typed_iff {typed : String} :
    tok.Typed offset typed ↔ typed = Engine.typedPart tok offset := by
  constructor
  · intro h
    cases h with
    | part h => exact h.typedPart_eq.symm
    | nothing h => exact (typedPart_eq_empty h).symm
  · rintro rfl
    by_cases hpart : ∃ part, tok.PartBefore offset part
    · obtain ⟨part, hpart⟩ := hpart
      rw [hpart.typedPart_eq]
      exact .part hpart
    · have hnone := not_exists.mp hpart
      rw [typedPart_eq_empty hnone]
      exact .nothing hnone

end Token

/-- At the end of a word all of it has been typed. -/
theorem Engine.typedPart_stop {tok : Token} (hword : tok.kind.isWord = true)
    (hne : tok.text ≠ "") : typedPart tok tok.stop = tok.text := by
  have hpos := Text.utf8ByteSize_pos hne
  have hpart : tok.PartBefore tok.stop tok.text :=
    ⟨hword, Nat.lt_add_of_pos_right hpos, ⟨"", String.append_empty.symm⟩, rfl⟩
  exact hpart.typedPart_eq

end SiddhiEditor
