/-!
# Text/Blank — the characters with the Unicode property `White_Space`

Twenty-five characters separate tokens. The information separators U+001C to U+001F, the zero width
space U+200B and the byte order mark U+FEFF are not among them.
-/

namespace FilterQuery.Text

/-- The ranges of the property, ends included. -/
def blankRanges : List (Nat × Nat) :=
  [(0x09, 0x0d), (0x20, 0x20), (0x85, 0x85), (0xa0, 0xa0), (0x1680, 0x1680), (0x2000, 0x200a),
    (0x2028, 0x2029), (0x202f, 0x202f), (0x205f, 0x205f), (0x3000, 0x3000)]

/-- Whether a character is white space. -/
def isBlank (c : Char) : Bool :=
  blankRanges.any fun range => range.1 ≤ c.toNat && c.toNat ≤ range.2

end FilterQuery.Text
