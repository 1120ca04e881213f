/-!
# Blank characters

A character is *blank* when it has the Unicode property White_Space.  Blank
runs separate the words of a document and may frame the spelling of a type, so
the scanner, the catalog and the layout all ask the one predicate of this module.

The property holds of 25 characters.  They are the controls from U+0009 to
U+000D, the space, U+0085, U+00A0, U+1680, the widths from U+2000 to U+200A,
the separators U+2028 and U+2029, U+202F, U+205F and U+3000.
-/

namespace SiddhiEditor.Text

/-- The property White_Space. -/
def isBlank (c : Char) : Bool :=
  let n := c.toNat
  (9 ≤ n && n ≤ 13) || n == 0x20 || n == 0x85 || n == 0xA0 || n == 0x1680 ||
    (0x2000 ≤ n && n ≤ 0x200A) || n == 0x2028 || n == 0x2029 || n == 0x202F ||
    n == 0x205F || n == 0x3000

/-- A text without the blanks at its two ends. -/
def trim (s : String) : String :=
  String.ofList ((s.toList.dropWhile isBlank).reverse.dropWhile isBlank).reverse

end SiddhiEditor.Text
