/-!
# Byte counts and byte cuts

Offsets into a document count the bytes of its UTF-8 form.  A cut at a byte
count is meaningful only between two characters, so `takeBytes?` has no answer
when the count falls inside a character or behind the end.
-/

namespace SiddhiEditor.Text

/-- The number of bytes of a run of characters. -/
def byteCount : List Char → Nat
  | [] => 0
  | c :: cs => c.utf8Size + byteCount cs

/-- The leading characters that take exactly `n` bytes together. -/
def takeBytes? : Nat → List Char → Option (List Char)
  | 0, _ => some []
  | _ + 1, [] => none
  | n + 1, c :: cs =>
    if c.utf8Size ≤ n + 1 then (takeBytes? (n + 1 - c.utf8Size) cs).map (c :: ·) else none

@[simp] theorem byteCount_nil : byteCount [] = 0 := rfl

@[simp] theorem byteCount_cons (c : Char) (cs : List Char) :
    byteCount (c :: cs) = c.utf8Size + byteCount cs := rfl

@[simp] theorem byteCount_append (cs ds : List Char) :
    byteCount (cs ++ ds) = byteCount cs + byteCount ds := by
  induction cs with
  | nil => simp
  | cons c cs ih => simp [ih, Nat.add_assoc]

theorem byteCount_eq_zero_iff {cs : List Char} : byteCount cs = 0 ↔ cs = [] := by
  cases cs with
  | nil => simp
  | cons c cs =>
    have hpos := Char.utf8Size_pos c
    simp only [byteCount_cons, List.cons_ne_nil, iff_false]
    omega

/-- A longer prefix takes more bytes. -/
theorem byteCount_lt_take {i y : List Char} {d : Char} {n : Nat} (h : i.length < n) :
    byteCount i < byteCount ((i ++ d :: y).take n) := by
  obtain ⟨k, rfl⟩ := Nat.exists_eq_add_of_lt h
  have hpos := Char.utf8Size_pos d
  rw [Nat.add_assoc, List.take_length_add_append, List.take_succ_cons, byteCount_append,
    byteCount_cons]
  omega

/-- The bytes of a text are the bytes of its characters. -/
theorem utf8ByteSize_ofList (cs : List Char) :
    (String.ofList cs).utf8ByteSize = byteCount cs := by
  induction cs with
  | nil => rfl
  | cons c cs ih =>
    rw [String.ofList_cons, String.utf8ByteSize_append, ih, byteCount_cons,
      String.utf8ByteSize_singleton]

theorem utf8ByteSize_pos {text : String} (h : text ≠ "") : 0 < text.utf8ByteSize :=
  Nat.pos_of_ne_zero (mt String.utf8ByteSize_eq_zero_iff.mp h)

/-- Bytes may be counted character by character. -/
theorem byteCount_toList (text : String) : byteCount text.toList = text.utf8ByteSize := by
  rw [← utf8ByteSize_ofList, String.ofList_toList]

end SiddhiEditor.Text
