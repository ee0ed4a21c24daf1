/-
MathMarkup/Text/Quoted.lean

Texts in double quotes, as messages show them.  A quote and a backslash get a
backslash in front, printable characters stand as they are, the seven control
characters with a letter of their own are written with it, and everything else
by its number: two hexadecimal digits for a character below U+0080 or a byte
that is not valid UTF-8, four or eight for the rest.
-/
import MathMarkup.Text.Printable
import MathMarkup.Text.Utf8

namespace MathMarkup

namespace Quoted

/-- The letter that stands for a control character after a backslash. -/
def shortEscape? (code : Nat) : Option UInt8 :=
  match code with
  | 0x07 => some (ascii 'a')
  | 0x08 => some (ascii 'b')
  | 0x0C => some (ascii 'f')
  | 0x0A => some (ascii 'n')
  | 0x0D => some (ascii 'r')
  | 0x09 => some (ascii 't')
  | 0x0B => some (ascii 'v')
  | _ => none

/-- How one character is written between the quotes. -/
def escape (r : Rune) : Bytes :=
  if r.isStray then
    utf8 "\\x" ++ r.bytes.flatMap fun b => Bytes.hex 2 b.toNat
  else if r.code == 0x22 || r.code == 0x5C then
    ascii '\\' :: r.bytes
  else if isPrintable r.code then r.bytes
  else
    match shortEscape? r.code with
    | some letter => [ascii '\\', letter]
    | none =>
      if r.code < 0x20 || r.code == 0x7F then utf8 "\\x" ++ Bytes.hex 2 r.code
      else if r.code < 0x10000 then utf8 "\\u" ++ Bytes.hex 4 r.code
      else utf8 "\\U" ++ Bytes.hex 8 r.code

end Quoted

/-- The text in double quotes. -/
def quoted (s : Bytes) : Bytes :=
  utf8 "\"" ++ (Utf8.runes s).flatMap Quoted.escape ++ utf8 "\""

end MathMarkup
