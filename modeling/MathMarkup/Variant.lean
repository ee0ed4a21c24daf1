/-
MathMarkup/Variant.lean

The fonts an identifier can be set in.  Besides the named ones there may be a
number that names none; it calls itself normal and differs from all the
others.
-/
import MathMarkup.Text.Bytes

namespace MathMarkup

/-- A font variant of an identifier. -/
inductive Variant
  | italic
  | normal
  | bold
  | boldItalic
  | doubleStruck
  | boldFraktur
  | script
  | boldScript
  | fraktur
  | sansSerif
  | boldSansSerif
  | sansSerifItalic
  | sansSerifBoldItalic
  | monospace
  | unnamed (number : Int)
  deriving DecidableEq, Repr, Inhabited

namespace Variant

/-- The named variants, in the order of their numbers. -/
def named : List Variant :=
  [.italic, .normal, .bold, .boldItalic, .doubleStruck, .boldFraktur, .script, .boldScript,
    .fraktur, .sansSerif, .boldSansSerif, .sansSerifItalic, .sansSerifBoldItalic, .monospace]

/-- The variant with a number. -/
def ofNumber (n : Int) : Variant :=
  if n < 0 then .unnamed n else (named[n.toNat]?).getD (.unnamed n)

/-- The name by which markup refers to a variant. -/
def name : Variant → Bytes
  | .italic => utf8 "italic"
  | .normal => utf8 "normal"
  | .bold => utf8 "bold"
  | .boldItalic => utf8 "bold-italic"
  | .doubleStruck => utf8 "double-struck"
  | .boldFraktur => utf8 "bold-fraktur"
  | .script => utf8 "script"
  | .boldScript => utf8 "bold-script"
  | .fraktur => utf8 "fraktur"
  | .sansSerif => utf8 "sans-serif"
  | .boldSansSerif => utf8 "bold-sans-serif"
  | .sansSerifItalic => utf8 "sans-serif-italic"
  | .sansSerifBoldItalic => utf8 "sans-serif-bold-italic"
  | .monospace => utf8 "monospace"
  | .unnamed _ => utf8 "normal"

/-- The variant with a name. -/
def ofName? (s : Bytes) : Option Variant :=
  named.find? fun v => v.name == s

end Variant

end MathMarkup
