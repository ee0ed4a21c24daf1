/-
MathMarkup/Yaml/Place.lean

The characters of a YAML document and how a reader moves along them.  A document
is UTF-8 without control characters other than tabs and line breaks.  All ways
to end a line are one line feed here, except that the two Unicode separators
stay what they are.

A `Place` is a position: the characters still to come with the line and column
they start at.
-/
import MathMarkup.Text.Utf8

namespace MathMarkup

namespace Yaml

/-- The code of an ASCII character. -/
def code (c : Char) : Nat :=
  c.toNat

/-- A space or a tab. -/
def isBlank (c : Nat) : Bool :=
  c == 0x20 || c == 0x09

/-- A line feed or one of the Unicode line separators. -/
def isBreak (c : Nat) : Bool :=
  c == 0x0A || c == 0x2028 || c == 0x2029

/-- Characters that a document may hold. -/
def isAllowed (c : Nat) : Bool :=
  c == 0x09 || c == 0x0A || c == 0x0D || (0x20 ≤ c && c ≤ 0x7E) || c == 0x85
    || (0xA0 ≤ c && c ≤ 0xD7FF) || (0xE000 ≤ c && c ≤ 0xFFFD) || 0x10000 ≤ c

/-- Every line end as one line feed. -/
def unifyBreaks : List Nat → List Nat
  | [] => []
  | 0x0D :: 0x0A :: rest => 0x0A :: unifyBreaks rest
  | c :: rest => (if c == 0x0D || c == 0x85 then 0x0A else c) :: unifyBreaks rest

/-- The characters of a document, `none` if it holds one that it may not.  A byte
order mark in front does not count. -/
def characters? (s : Bytes) : Option (List Nat) :=
  let rs := Utf8.runes s
  if rs.all fun r => !r.isStray && isAllowed r.code then
    let cs := unifyBreaks (rs.map Rune.code)
    some (if cs.head? == some 0xFEFF then cs.drop 1 else cs)
  else none

/-- The bytes of characters. -/
def bytesOf (cs : List Nat) : Bytes :=
  cs.flatMap Utf8.encode

/-- A position in a document. -/
structure Place where
  rest : List Nat
  line : Nat
  column : Nat
  index : Nat
  deriving Repr, Inhabited

namespace Place

/-- The beginning of a document. -/
def start (cs : List Nat) : Place :=
  ⟨cs, 0, 0, 0⟩

/-- The character here; none at the end. -/
def here? (p : Place) : Option Nat :=
  p.rest.head?

/-- The character some way ahead. -/
def ahead? (p : Place) (n : Nat) : Option Nat :=
  p.rest[n]?

/-- Whether the character here is `c`. -/
def isAt (p : Place) (c : Char) : Bool :=
  p.here? == some (code c)

/-- Behind the character here. -/
def next (p : Place) : Place :=
  match p.rest with
  | [] => p
  | c :: rest =>
    if isBreak c then ⟨rest, p.line + 1, 0, p.index + 1⟩
    else ⟨rest, p.line, p.column + 1, p.index + 1⟩

/-- Behind the next `n` characters of the line. -/
def skip (p : Place) (n : Nat) : Place :=
  ⟨p.rest.drop n, p.line, p.column + n, p.index + n⟩

/-- Behind the characters of the line for which `f` holds. -/
def skipWhile (p : Place) (f : Nat → Bool) : Place :=
  p.skip (p.rest.takeWhile f).length

/-- Whether there is a blank, a line break or the end `n` characters ahead. -/
def endsWord (p : Place) (n : Nat) : Bool :=
  match p.ahead? n with
  | none => true
  | some c => isBlank c || isBreak c

/-- Whether there is a line break or the end here. -/
def endsLine (p : Place) : Bool :=
  match p.here? with
  | none => true
  | some c => isBreak c

/-- Whether a line starts here with three times `c` as a word of its own. -/
def isMarker (p : Place) (c : Char) : Bool :=
  p.column == 0 && p.rest.take 3 == List.replicate 3 (code c) && p.endsWord 3

/-- Whether a line that separates documents starts here. -/
def isDocumentMarker (p : Place) : Bool :=
  p.isMarker '-' || p.isMarker '.'

end Place

end Yaml

end MathMarkup
