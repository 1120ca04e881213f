import Mathlib.Data.List.Forall2
import SiddhiEditor.Proofs.LexicalGrammar
import SiddhiEditor.Proofs.Matching

/-!
# Matching by bytes and by characters

A label is matched by its bytes.  As many bytes as have been typed are cut off from its
start, if a character ends there, and they are compared with the bytes typed, where the
two cases of a letter count as one (`Text.sliceMatches`).  Characters take one to four
bytes, so the cut may fall behind another number of characters than have been typed.
A match is a match of characters all the same (`Suggestion.isMatch_charwise`).

* The bytes of a character outside of ASCII are all above those of ASCII.  So lowering
  the bytes of a text lowers its characters (`Text.map_lowerByte_encode`).
* The bytes of a character are never the start of the bytes of another one.  So texts
  whose bytes begin alike begin alike (`Text.encode_prefix_iff`).
* A letter takes one byte in either case.  So a label that begins with the characters
  of a text has a character that ends where the text ends (`Text.BeginsWith.isValid`).
-/

namespace SiddhiEditor

namespace Text

variable {c d : Char}

/-! ## The case of a letter -/

/-- The characters are equal, or they are a letter of ASCII in its two cases. -/
inductive SameUpToCase : Char → Char → Prop where
  | same (c : Char) : SameUpToCase c c
  | lower {c d : Char} : c.isUpper = true → d.toNat = c.toNat + 32 → SameUpToCase c d
  | upper {c d : Char} : d.isUpper = true → c.toNat = d.toNat + 32 → SameUpToCase c d

theorem toLower_of_toNat (hc : c.isUpper = true) (hd : d.toNat = c.toNat + 32) :
    c.toLower = d.toLower := by
  have hnot : d.isUpper = false := by
    rw [Bool.eq_false_iff]
    intro hd'
    have hge := (isUpper_iff.mp hc).1
    have hle := (isUpper_iff.mp hd').2
    omega
  rw [toLower_of_not_isUpper hnot, ← Char.toNat_inj, toNat_toLower hc, hd]

/-- Two characters are the same up to case exactly if their small forms are. -/
theorem sameUpToCase_iff : SameUpToCase c d ↔ c.toLower = d.toLower := by
  constructor
  · intro h
    cases h with
    | same => rfl
    | lower hc hd => exact toLower_of_toNat hc hd
    | upper hd hc => exact (toLower_of_toNat hd hc).symm
  · intro h
    cases hc : c.isUpper with
    | false =>
      rw [toLower_of_not_isUpper hc] at h
      cases hd : d.isUpper with
      | false =>
        rw [toLower_of_not_isUpper hd] at h
        rw [h]
        exact .same d
      | true => exact .upper hd (by rw [h, toNat_toLower hd])
    | true =>
      cases hd : d.isUpper with
      | false =>
        rw [toLower_of_not_isUpper hd] at h
        exact .lower hc (by rw [← h, toNat_toLower hc])
      | true =>
        have hsame : c = d := by
          have hnat := congrArg Char.toNat h
          rw [toNat_toLower hc, toNat_toLower hd] at hnat
          exact Char.toNat_inj.mp (Nat.add_right_cancel hnat)
        rw [hsame]
        exact .same d

/-! ## Bytes -/

/-- The bytes of the UTF-8 form of a text. -/
def bytes (text : String) : List UInt8 := text.toUTF8.data.toList

/-- The small letter of a byte that is a capital letter, and any other byte itself. -/
def lowerByte (b : UInt8) : UInt8 := if 65 ≤ b ∧ b ≤ 90 then b + 32 else b

/-- The bytes of a run of characters. -/
def encode (cs : List Char) : List UInt8 := cs.flatMap String.utf8EncodeChar

theorem bytes_eq_encode (text : String) : bytes text = encode text.toList := by
  show text.toByteArray.data.toList = _
  rw [← String.utf8Encode_toList]
  exact List.toList_data_toByteArray

theorem length_bytes (text : String) : (bytes text).length = text.utf8ByteSize := rfl

/-- A byte of a character that is not ASCII has no other case. -/
theorem lowerByte_of_ge {b : UInt8} (h : 128 ≤ b) : lowerByte b = b := by
  refine if_neg fun hb => ?_
  have hle := UInt8.le_trans h hb.2
  exact absurd hle (by decide)

theorem le_or_of_le {a b : UInt8} (h : 128 ≤ b) : 128 ≤ a ||| b := by
  rw [UInt8.le_iff_toNat_le] at h ⊢
  rw [UInt8.toNat_or]
  exact Nat.le_trans h Nat.right_le_or

/-- A character outside of ASCII has no byte in common with ASCII. -/
theorem le_of_mem_utf8EncodeChar (h : c.utf8Size ≠ 1) {b : UInt8}
    (hb : b ∈ String.utf8EncodeChar c) : 128 ≤ b := by
  rcases c.utf8Size_eq with h1 | h2 | h3 | h4
  · exact absurd h1 h
  · rw [String.utf8EncodeChar_eq_cons_cons h2] at hb
    simp only [List.mem_cons, List.not_mem_nil, or_false] at hb
    rcases hb with rfl | rfl <;> exact le_or_of_le (by decide)
  · rw [String.utf8EncodeChar_eq_cons_cons_cons h3] at hb
    simp only [List.mem_cons, List.not_mem_nil, or_false] at hb
    rcases hb with rfl | rfl | rfl <;> exact le_or_of_le (by decide)
  · rw [String.utf8EncodeChar_eq_cons_cons_cons_cons h4] at hb
    simp only [List.mem_cons, List.not_mem_nil, or_false] at hb
    rcases hb with rfl | rfl | rfl | rfl <;> exact le_or_of_le (by decide)

theorem lowerByte_of_ascii (h : c.utf8Size = 1) :
    lowerByte c.val.toUInt8 = c.toLower.val.toUInt8 := by
  have hle : c.val.toNat ≤ 127 := UInt32.le_iff_toNat_le.mp (Char.utf8Size_eq_one_iff.mp h)
  have hbyte : c.val.toUInt8.toNat = c.val.toNat := by
    rw [UInt32.toNat_toUInt8]
    omega
  have hcapital : 65 ≤ c.val.toUInt8 ∧ c.val.toUInt8 ≤ 90 ↔ c.isUpper = true := by
    rw [UInt8.le_iff_toNat_le, UInt8.le_iff_toNat_le, hbyte, isUpper_iff]
    rfl
  cases hc : c.isUpper with
  | true =>
    have hlower : c.toLower.val.toNat = c.val.toNat + 32 := toNat_toLower hc
    rw [lowerByte, if_pos (hcapital.mpr hc), ← UInt8.toNat_inj, UInt8.toNat_add, hbyte,
      UInt32.toNat_toUInt8, hlower]
    rfl
  | false =>
    rw [toLower_of_not_isUpper hc]
    refine if_neg fun hb => ?_
    rw [hcapital.mp hb] at hc
    cases hc

/-- The case of a character may be changed byte by byte. -/
theorem map_lowerByte_utf8EncodeChar (c : Char) :
    (String.utf8EncodeChar c).map lowerByte = String.utf8EncodeChar c.toLower := by
  by_cases h : c.utf8Size = 1
  · have hlower : c.toLower.utf8Size = 1 := (utf8Size_toLower c).trans h
    rw [String.utf8EncodeChar_eq_singleton h, String.utf8EncodeChar_eq_singleton hlower,
      List.map_singleton, lowerByte_of_ascii h]
  · have hnot : c.isUpper = false := by
      rw [Bool.eq_false_iff]
      intro hc
      exact h (utf8Size_eq_one ((isUpper_iff.mp hc).2.trans (by decide)))
    rw [toLower_of_not_isUpper hnot]
    have hall : ∀ b ∈ String.utf8EncodeChar c, lowerByte b = id b := fun b hb =>
      lowerByte_of_ge (le_of_mem_utf8EncodeChar h hb)
    rw [List.map_congr_left hall, List.map_id]

/-- Lowering the bytes of characters gives the bytes of the lowered characters. -/
theorem map_lowerByte_encode (cs : List Char) :
    (encode cs).map lowerByte = encode (cs.map Char.toLower) := by
  rw [encode, encode, List.map_flatMap, List.flatMap_map]
  simp only [map_lowerByte_utf8EncodeChar]

/-- No character's bytes begin those of another, so bytes that begin with the bytes of
characters come from characters that begin with these. -/
theorem encode_prefix_iff {cs ds : List Char} : encode cs <+: encode ds ↔ cs <+: ds := by
  constructor
  · rintro ⟨rest, hrest⟩
    refine List.isPrefix_of_utf8Encode_append_eq_utf8Encode rest.toByteArray ?_
    show (encode cs).toByteArray ++ rest.toByteArray = (encode ds).toByteArray
    rw [← List.toByteArray_append, hrest]
  · rintro ⟨rest, rfl⟩
    exact ⟨encode rest, List.flatMap_append.symm⟩

/-- A label begins with a text when its bytes begin with those of the text, up to the
case of letters. -/
theorem beginsWith_iff_bytes {label text : String} :
    BeginsWith label text ↔ (bytes text).map lowerByte <+: (bytes label).map lowerByte := by
  rw [bytes_eq_encode, bytes_eq_encode, map_lowerByte_encode, map_lowerByte_encode,
    encode_prefix_iff, BeginsWith]

/-- A label that begins with a text has a character that ends where the text ends. -/
theorem BeginsWith.isValid {label text : String} (h : BeginsWith label text) :
    String.Pos.Raw.IsValid label ⟨text.utf8ByteSize⟩ := by
  obtain ⟨rest, hrest⟩ := h
  obtain ⟨start, behind, hlabel, hsame, -⟩ := List.map_eq_append_iff.mp hrest.symm
  have hcount : byteCount start = text.utf8ByteSize := by
    rw [← byteCount_map_toLower, hsame, byteCount_map_toLower, byteCount_toList]
  rw [← hcount]
  exact Token.isValid_byteCount hlabel

/-! ## Matching -/

/-- The text matches as many bytes from the start of the label, and a character of the
label ends behind them. -/
def sliceMatches (label text : String) : Bool :=
  String.Pos.Raw.isValid label ⟨text.utf8ByteSize⟩ &&
    ((bytes label).take text.utf8ByteSize).map lowerByte == (bytes text).map lowerByte

/-- The slice matches exactly if the bytes do.  Equal bytes are those of equal
characters, so the place of the cut says nothing new. -/
theorem sliceMatches_iff {label text : String} :
    sliceMatches label text = true ↔ BeginsWith label text := by
  rw [sliceMatches, Bool.and_eq_true, String.Pos.Raw.isValid_eq_true_iff, beq_iff_eq]
  constructor
  · rintro ⟨-, hsame⟩
    rw [beginsWith_iff_bytes, ← hsame]
    exact (List.take_prefix _ _).map lowerByte
  · intro h
    refine ⟨h.isValid, ?_⟩
    have htake := List.prefix_iff_eq_take.mp (beginsWith_iff_bytes.mp h)
    rw [List.length_map, length_bytes, ← List.map_take] at htake
    exact htake.symm

/-- Matching compares the characters pair by pair. -/
theorem beginsWith_iff_forall₂ {label text : String} :
    BeginsWith label text ↔
      List.Forall₂ SameUpToCase (label.toList.take text.length) text.toList := by
  have hcases : SameUpToCase = fun c d => c.toLower = d.toLower := by
    funext c d
    exact propext sameUpToCase_iff
  rw [hcases, BeginsWith, List.prefix_iff_eq_take, List.length_map, String.length_toList,
    ← List.map_take, ← List.forall₂_map_right_iff, ← List.forall₂_map_left_iff,
    List.forall₂_eq_eq_eq]
  exact eq_comm

end Text

/-- The match that is decided on the bytes of the label and of the text is a match of
their characters, one by one and up to the case of ASCII letters.  So the empty text
matches every label, and a label that matches a text matches every beginning of it. -/
theorem Suggestion.isMatch_charwise (s : Suggestion) (first rest : String) :
    s.isMatch first = Text.sliceMatches s.label first ∧
      (s.isMatch first = true ↔
        List.Forall₂ Text.SameUpToCase (s.label.toList.take first.length) first.toList) ∧
      s.isMatch "" = true ∧ (s.isMatch (first ++ rest) = true → s.isMatch first = true) := by
  refine ⟨?_, ?_, s.isMatch_empty, ?_⟩
  · rw [Bool.eq_iff_iff, isMatch_iff, Text.sliceMatches_iff]
  · rw [isMatch_iff, Text.beginsWith_iff_forall₂]
  · rw [isMatch_iff, isMatch_iff]
    intro h
    apply h.of_shorter
    rw [String.toList_append]
    exact List.prefix_append _ _

/-- The last letter of the label has two bytes.  It is matched by itself and not by two
other letters. -/
theorem Suggestion.isMatch_charwise_accented :
    (keyword "Prié").isMatch ("pRi" ++ "é") = true ∧ (keyword "Prié").isMatch "pRi" = true ∧
      List.Forall₂ Text.SameUpToCase ("Prié".toList.take 3) "pRi".toList ∧
      Text.sliceMatches "Prié" "priab" = false := by
  have hwhole : (keyword "Prié").isMatch ("pRi" ++ "é") = true := by decide
  obtain ⟨-, hchars, -, hshorter⟩ := isMatch_charwise (keyword "Prié") "pRi" "é"
  have hfirst := hshorter hwhole
  refine ⟨hwhole, hfirst, hchars.mp hfirst, ?_⟩
  have hother : (keyword "Prié").isMatch "priab" = false := by decide
  exact (isMatch_charwise (keyword "Prié") "priab" "").1.symm.trans hother

end SiddhiEditor
