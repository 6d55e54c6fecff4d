/-!
# White space of the Unicode standard

Values typed by a user are trimmed, and the space after an opening tag is skipped, by the
`White_Space` property of the Unicode standard rather than by the blanks of
`Branding.Text.Char`. The zero-width space and the byte order mark do not have the property.

## Main definitions

* `isWhite` — the property
* `trimWhite` — a text without the white space at its two ends
-/

namespace Branding

/-- The ranges of the `White_Space` property. -/
def whiteRanges : List (Nat × Nat) := [
  (0x9, 0xd), (0x20, 0x20), (0x85, 0x85), (0xa0, 0xa0), (0x1680, 0x1680), (0x2000, 0x200a),
  (0x2028, 0x2029), (0x202f, 0x202f), (0x205f, 0x205f), (0x3000, 0x3000)]

/-- The `White_Space` property of the Unicode standard. -/
def isWhite (c : Char) : Bool := whiteRanges.any fun r => r.1 ≤ c.toNat && c.toNat ≤ r.2

/-- A text without the white space at its two ends. -/
def trimWhite (text : List Char) : List Char :=
  ((text.dropWhile isWhite).reverse.dropWhile isWhite).reverse

/-- A text that is empty or all white space. -/
def allWhite (text : String) : Bool := text.toList.all isWhite

end Branding
