/-
MathMarkup/Text/Utf8.lean

Reading bytes as characters.  Every text falls into runes, front to back: a
well-formed UTF-8 sequence is one rune, and a byte that starts none is a rune
of its own with the code of the replacement character U+FFFD.  The runes'
bytes put together are the text again (`flatten_runes`).

A sequence is well formed when it is the shortest form of a code point up to
U+10FFFF that is not a surrogate, so the second byte after E0, ED, F0 and F4
has a narrower range.
-/
import MathMarkup.Text.Bytes

namespace MathMarkup

/-- One character of a text with the bytes it takes up. -/
structure Rune where
  code : Nat
  bytes : Bytes
  deriving DecidableEq, Repr

namespace Utf8

/-- What a byte that belongs to no well-formed sequence reads as. -/
def replacement : Nat := 0xFFFD

/-- A continuation byte in the given range. -/
def follows (low high b : UInt8) : Bool :=
  low ≤ b && b ≤ high

/-- The low six bits of a continuation byte. -/
def payload (b : UInt8) : Nat :=
  b.toNat % 0x40

/-- The range of the second byte of a sequence that starts with `a`. -/
def secondRange (a : UInt8) : UInt8 × UInt8 :=
  if a = 0xE0 then (0xA0, 0xBF)
  else if a = 0xED then (0x80, 0x9F)
  else if a = 0xF0 then (0x90, 0xBF)
  else if a = 0xF4 then (0x80, 0x8F)
  else (0x80, 0xBF)

/-- The code of the character that starts with byte `a` before the bytes
`rest`, and how many bytes of `rest` belong to it. -/
def decode (a : UInt8) (rest : Bytes) : Nat × Nat :=
  let (low, high) := secondRange a
  if a < 0x80 then (a.toNat, 0)
  else if 0xC2 ≤ a && a ≤ 0xDF then
    match rest with
    | b :: _ =>
      if follows low high b then (a.toNat % 0x20 * 0x40 + payload b, 1)
      else (replacement, 0)
    | _ => (replacement, 0)
  else if 0xE0 ≤ a && a ≤ 0xEF then
    match rest with
    | b :: c :: _ =>
      if follows low high b && follows 0x80 0xBF c then
        (a.toNat % 0x10 * 0x1000 + payload b * 0x40 + payload c, 2)
      else (replacement, 0)
    | _ => (replacement, 0)
  else if 0xF0 ≤ a && a ≤ 0xF4 then
    match rest with
    | b :: c :: d :: _ =>
      if follows low high b && follows 0x80 0xBF c && follows 0x80 0xBF d then
        (a.toNat % 0x08 * 0x40000 + payload b * 0x1000 + payload c * 0x40 + payload d, 3)
      else (replacement, 0)
    | _ => (replacement, 0)
  else (replacement, 0)

/-- The bytes of a code point. -/
def encode (code : Nat) : Bytes :=
  String.utf8EncodeChar (Char.ofNat code)

/-- The rune in front of the bytes `a :: rest`. -/
def first (a : UInt8) (rest : Bytes) : Rune :=
  let (code, extra) := decode a rest
  ⟨code, a :: rest.take extra⟩

/-- The runes of a text, front to back. -/
def runes : Bytes → List Rune
  | [] => []
  | a :: rest => first a rest :: runes (rest.drop (decode a rest).2)
termination_by s => s.length
decreasing_by
  simp only [List.length_drop, List.length_cons]
  omega

/-- The bytes of runes put together. -/
def flatten (rs : List Rune) : Bytes :=
  rs.flatMap Rune.bytes

/-- Reading a text as runes loses nothing. -/
theorem flatten_runes (s : Bytes) : flatten (runes s) = s := by
  fun_induction runes s with
  | case1 => rfl
  | case2 a rest ih =>
    simp only [flatten, List.flatMap_cons] at ih ⊢
    rw [ih]
    simp [first]

end Utf8

/-- A byte that starts no well-formed sequence. -/
def Rune.isStray (r : Rune) : Bool :=
  r.code == Utf8.replacement && r.bytes.length == 1

/-- How many characters a text has, stray bytes counted. -/
def runeCount (s : Bytes) : Nat :=
  (Utf8.runes s).length

end MathMarkup
