/-
MathMarkup/Number/Binary64.lean

Double precision numbers.  Numbers in documents are read in double precision
first and taken to single precision afterwards, so a width is rounded twice.
-/
import MathMarkup.Number.Binary32

namespace MathMarkup

/-- A double precision number; a finite one is `significand * 2 ^ exponent`. -/
inductive Binary64
  | nan
  | infinite (negative : Bool)
  | finite (negative : Bool) (significand : Nat) (exponent : Int)
  deriving DecidableEq, Repr

namespace Binary64

/-- The nearest number to a decimal, `none` above the range. -/
def ofDecimal? (negative : Bool) (d : Decimal) : Option Binary64 :=
  (d.round .binary64).map fun (m, e) => .finite negative m e

/-- The nearest number to a whole number, infinite above the range. -/
def ofInt (n : Int) : Binary64 :=
  (ofDecimal? (n < 0) ⟨n.natAbs, 0⟩).getD (.infinite (n < 0))

/-- The nearest number in single precision. -/
def toBinary32 : Binary64 → Binary32
  | .nan => .nan
  | .infinite negative => .infinite negative
  | .finite negative m e => .ofScaled negative m e

/-- The shortest text that reads back as the number, without an exponent. -/
def text : Binary64 → Bytes
  | .nan => utf8 "NaN"
  | .infinite negative => utf8 (if negative then "-Inf" else "+Inf")
  | .finite negative m e =>
    let d := if m == 0 then ⟨0, 0⟩ else Decimal.shortest .binary64 m e
    if negative then ascii '-' :: d.plain else d.plain

end Binary64

end MathMarkup
