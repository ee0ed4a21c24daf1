/-
MathMarkup/Text/Blank.lean

White space around keys, values and measures: the code points with the
Unicode property White_Space.  `trim` takes it off both ends of a text; bytes
that are not valid UTF-8 are no white space and stay.
-/
import MathMarkup.Text.Ranges
import MathMarkup.Text.Utf8

namespace MathMarkup

/-- The ranges of the property White_Space. -/
def blankRanges : Ranges :=
  [(0x9, 0xD), (0x20, 0x20), (0x85, 0x85), (0xA0, 0xA0), (0x1680, 0x1680), (0x2000, 0x200A),
   (0x2028, 0x2029), (0x202F, 0x202F), (0x205F, 0x205F), (0x3000, 0x3000)]

/-- Whether a code point is white space. -/
def isBlank (code : Nat) : Bool :=
  blankRanges.contains code

namespace Bytes

/-- Runes without the white space in front. -/
def trimRunes (rs : List Rune) : List Rune :=
  rs.dropWhile fun r => isBlank r.code

/-- A text without the white space around it. -/
def trim (s : Bytes) : Bytes :=
  Utf8.flatten (trimRunes (trimRunes (Utf8.runes s)).reverse).reverse

end Bytes

end MathMarkup
