/-
MathMarkup/Number/Binary32.lean

Single precision numbers, the widths of spaces.  A finite number is its
sign, significand and exponent, so that arithmetic is exact arithmetic on
natural numbers followed by one rounding, and its text is the shortest decimal
that reads back as the same number.
-/
import MathMarkup.Number.Decimal

namespace MathMarkup

/-- A single precision number; a finite one is `significand * 2 ^ exponent`. -/
inductive Binary32
  | nan
  | infinite (negative : Bool)
  | finite (negative : Bool) (significand : Nat) (exponent : Int)
  deriving DecidableEq, Repr

namespace Binary32

/-- Positive zero. -/
def zero : Binary32 :=
  .finite false 0 BinaryFormat.binary32.minExponent

instance : Inhabited Binary32 := ⟨zero⟩

/-- The nearest number to a fraction, infinite above the range. -/
def ofRatio (negative : Bool) (num den : Nat) : Binary32 :=
  match BinaryFormat.binary32.round num den with
  | some (m, e) => .finite negative m e
  | none => .infinite negative

/-- The nearest number to a decimal, `none` above the range. -/
def ofDecimal? (negative : Bool) (d : Decimal) : Option Binary32 :=
  (d.round .binary32).map fun (m, e) => .finite negative m e

/-- The nearest number to a decimal, infinite above the range. -/
def ofDecimal (negative : Bool) (d : Decimal) : Binary32 :=
  (ofDecimal? negative d).getD (.infinite negative)

/-- The nearest number to a thousandth of `n`. -/
def ofThousandths (n : Int) : Binary32 :=
  ofDecimal (n < 0) ⟨n.natAbs, -3⟩

/-- The nearest number to `m * 2 ^ e`. -/
def ofScaled (negative : Bool) (m : Nat) (e : Int) : Binary32 :=
  if 0 ≤ e then ofRatio negative (m * Nat.pow 2 e.toNat) 1
  else ofRatio negative m (Nat.pow 2 (-e).toNat)

/-- The product, rounded once. -/
def mul : Binary32 → Binary32 → Binary32
  | .nan, _ | _, .nan => .nan
  | .infinite s, .infinite t => .infinite (s != t)
  | .infinite s, .finite t m _ | .finite s m _, .infinite t =>
    if m == 0 then .nan else .infinite (s != t)
  | .finite s m e, .finite t n f => ofScaled (s != t) (m * n) (e + f)

/-- A number divided by a positive whole number, rounded once. -/
def divNat : Binary32 → Nat → Binary32
  | .nan, _ => .nan
  | .infinite s, _ => .infinite s
  | .finite s m e, n =>
    if 0 ≤ e then ofRatio s (m * Nat.pow 2 e.toNat) n else ofRatio s m (n * Nat.pow 2 (-e).toNat)

/-- The text of a number, given how a decimal is written. -/
def textWith (write : Decimal → Bytes) : Binary32 → Bytes
  | .nan => utf8 "NaN"
  | .infinite s => utf8 (if s then "-Inf" else "+Inf")
  | .finite s m e =>
    let d := if m == 0 then ⟨0, 0⟩ else Decimal.shortest .binary32 m e
    if s then ascii '-' :: write d else write d

/-- The shortest text that reads back as the number, without an exponent. -/
def text (x : Binary32) : Bytes :=
  x.textWith Decimal.plain

/-- The shortest text that reads back as the number, with an exponent where it
is very large or very small. -/
def generalText (x : Binary32) : Bytes :=
  x.textWith Decimal.general

/-- Reads an optional sign and a decimal number, `Inf` or `NaN`. -/
def parse? (s : Bytes) : Option Binary32 :=
  let (negative, t) :=
    match s with
    | 0x2D :: u => (true, u)
    | 0x2B :: u => (false, u)
    | _ => (false, s)
  if t == utf8 "NaN" then some .nan
  else if t == utf8 "Inf" then some (.infinite negative)
  else (Decimal.parse? t).map (ofDecimal negative)

end Binary32

end MathMarkup
