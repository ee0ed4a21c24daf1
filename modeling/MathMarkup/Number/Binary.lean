/-
MathMarkup/Number/Binary.lean

Rounding fractions to binary floating point, in natural number arithmetic
throughout.  A format fixes how many bits a significand has and which
exponents there are; `BinaryFormat.round` takes a fraction to the nearest
significand and exponent of the format, a tie to the even significand, and has
no answer when that lies above the format's range.
-/
namespace MathMarkup

/-- The quotient rounded to the nearest whole number, a half to the even one. -/
def roundDiv (num den : Nat) : Nat :=
  let q := num / den
  let r := num % den
  if den < 2 * r || (den == 2 * r && q % 2 == 1) then q + 1 else q

/-- The fraction `num / den` times two to the power `-e`, as a fraction. -/
def scaleDown (num den : Nat) (e : Int) : Nat × Nat :=
  if 0 ≤ e then (num, den * Nat.pow 2 e.toNat) else (num * Nat.pow 2 (-e).toNat, den)

/-- A binary floating point format: numbers are `m * 2 ^ e` with `m` below
`2 ^ precision` and `e` between the two exponents. -/
structure BinaryFormat where
  precision : Nat
  minExponent : Int
  maxExponent : Int

namespace BinaryFormat

/-- Single precision. -/
def binary32 : BinaryFormat := ⟨24, -149, 104⟩

/-- Double precision. -/
def binary64 : BinaryFormat := ⟨53, -1074, 971⟩

/-- The exponent at which a positive fraction has a significand of full
precision, or the least exponent if that is larger. -/
def exponentFor (f : BinaryFormat) (num den : Nat) : Int :=
  let e : Int := (Nat.log2 num : Int) - Nat.log2 den - f.precision
  let (n, d) := scaleDown num den e
  max (if Nat.pow 2 f.precision ≤ n / d then e + 1 else e) f.minExponent

/-- The significand and exponent nearest to a fraction, `none` above the
format's range. -/
def round (f : BinaryFormat) (num den : Nat) : Option (Nat × Int) :=
  if num == 0 then some (0, f.minExponent)
  else
    let e := f.exponentFor num den
    let (n, d) := scaleDown num den e
    let m := roundDiv n d
    let (m, e) :=
      if m == Nat.pow 2 f.precision then (Nat.pow 2 (f.precision - 1), e + 1) else (m, e)
    if f.maxExponent < e then none else some (m, e)

end BinaryFormat

end MathMarkup
