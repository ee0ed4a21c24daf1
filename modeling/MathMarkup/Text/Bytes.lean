/-
MathMarkup/Text/Bytes.lean

Texts are lists of bytes.  A source may hold any bytes at all, offsets count
bytes, and nothing is assumed to be valid UTF-8; a text with characters in it
is written with `utf8`.  The classes below are the ASCII classes the notation
is made of, so they are predicates on single bytes.
-/
namespace MathMarkup

/-- A text: any sequence of bytes. -/
abbrev Bytes := List UInt8

/-- The UTF-8 bytes of a string. -/
def utf8 (s : String) : Bytes :=
  s.toList.flatMap String.utf8EncodeChar

/-- The byte of an ASCII character. -/
def ascii (c : Char) : UInt8 :=
  c.toNat.toUInt8

namespace Byte

/-- An ASCII letter. -/
def isLetter (b : UInt8) : Bool :=
  (ascii 'a' ≤ b && b ≤ ascii 'z') || (ascii 'A' ≤ b && b ≤ ascii 'Z')

/-- An ASCII digit. -/
def isDigit (b : UInt8) : Bool :=
  ascii '0' ≤ b && b ≤ ascii '9'

/-- A lower case ASCII letter. -/
def isLower (b : UInt8) : Bool :=
  ascii 'a' ≤ b && b ≤ ascii 'z'

/-- The white space that separates tokens: space, line feed, tab, carriage
return. -/
def isSpace (b : UInt8) : Bool :=
  b == ascii ' ' || b == ascii '\n' || b == ascii '\t' || b == ascii '\r'

/-- Below 128: a character of its own. -/
def isAscii (b : UInt8) : Bool :=
  b < 0x80

/-- The value of an ASCII digit. -/
def digitValue (b : UInt8) : Nat :=
  b.toNat - (ascii '0').toNat

/-- The value of a hexadecimal digit of either case. -/
def hexValue? (b : UInt8) : Option Nat :=
  if isDigit b then some (digitValue b)
  else if ascii 'a' ≤ b && b ≤ ascii 'f' then some (b.toNat - (ascii 'a').toNat + 10)
  else if ascii 'A' ≤ b && b ≤ ascii 'F' then some (b.toNat - (ascii 'A').toNat + 10)
  else none

/-- The lower case form of an ASCII letter; other bytes stay. -/
def toLower (b : UInt8) : UInt8 :=
  if ascii 'A' ≤ b && b ≤ ascii 'Z' then b + 32 else b

/-- The upper case form of an ASCII letter; other bytes stay. -/
def toUpper (b : UInt8) : UInt8 :=
  if ascii 'a' ≤ b && b ≤ ascii 'z' then b - 32 else b

end Byte

namespace Bytes

/-- The decimal digits of a natural number. -/
def ofNat (n : Nat) : Bytes :=
  (Nat.toDigits 10 n).map ascii

/-- A whole number in decimal, with a minus sign if it is negative. -/
def ofInt (n : Int) : Bytes :=
  if n < 0 then ascii '-' :: ofNat n.natAbs else ofNat n.natAbs

/-- `n` in hexadecimal, padded with zeros to at least `width` digits. -/
def hex (width n : Nat) : Bytes :=
  let digits := (Nat.toDigits 16 n).map ascii
  List.replicate (width - digits.length) (ascii '0') ++ digits

/-- The number that a run of decimal digits stands for. -/
def digitsValue (s : Bytes) : Nat :=
  s.foldl (fun n b => n * 10 + Byte.digitValue b) 0

/-- The pieces of a text between the occurrences of a byte; always at least
one. -/
def splitAt (sep : UInt8) : Bytes → List Bytes
  | [] => [[]]
  | b :: rest =>
    if b == sep then [] :: splitAt sep rest
    else
      match splitAt sep rest with
      | [] => [[b]]
      | piece :: pieces => (b :: piece) :: pieces

/-- The texts put together with `sep` between neighbours. -/
def joinWith (sep : Bytes) : List Bytes → Bytes
  | [] => []
  | [s] => s
  | s :: rest => s ++ sep ++ joinWith sep rest

end Bytes

end MathMarkup
