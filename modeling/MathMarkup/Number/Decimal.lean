/-
MathMarkup/Number/Decimal.lean

Decimal numbers: `digits * 10 ^ exponent`.  This module reads them from text,
writes them with or without an exponent, rounds them to a binary format, and
finds the shortest decimal that a binary number is the nearest one to.

The shortest decimal is searched on coarser and coarser grids turned around:
one digit, two digits and so on.  On each grid the only candidates are the
number's two neighbours, since a grid point inside the rounding interval
implies that a neighbour is inside too.  Of two hits on one grid the nearer is
taken, and of two equally near ones that with the even last digit.
-/
import MathMarkup.Number.Binary
import MathMarkup.Text.Bytes

namespace MathMarkup

/-- An unsigned decimal number `digits * 10 ^ exponent`. -/
structure Decimal where
  digits : Nat
  exponent : Int
  deriving DecidableEq, Repr

namespace Decimal

/-! ### Rounding to binary -/

/-- The number as a fraction. -/
def ratio (d : Decimal) : Nat × Nat :=
  if 0 ≤ d.exponent then (d.digits * Nat.pow 10 d.exponent.toNat, 1)
  else (d.digits, Nat.pow 10 (-d.exponent).toNat)

/-- How many digits a natural number has in decimal. -/
def digitCount (n : Nat) : Nat :=
  (Nat.toDigits 10 n).length

/-- The nearest number of a binary format, `none` above its range.  Far outside
the range of every format the answer is known without the power of ten. -/
def round (f : BinaryFormat) (d : Decimal) : Option (Nat × Int) :=
  let magnitude := (digitCount d.digits : Int) + d.exponent
  if d.digits == 0 || magnitude < -400 then some (0, f.minExponent)
  else if 400 < magnitude then none
  else f.round d.ratio.1 d.ratio.2

/-! ### The shortest decimal of a binary number -/

/-- The decimal exponent of the leading digit of a positive fraction. -/
def leadingExponent (num den : Nat) : Int :=
  if den ≤ num then (digitCount (num / den) : Int) - 1
  else
    let t := digitCount (den / num)
    if den == num * Nat.pow 10 (t - 1) then 1 - (t : Int) else -(t : Int)

/-- The fraction `num / den` in units of `10 ^ x`, as a fraction. -/
def inUnits (num den : Nat) (x : Int) : Nat × Nat :=
  if 0 ≤ x then (num, den * Nat.pow 10 x.toNat) else (num * Nat.pow 10 (-x).toNat, den)

/-- A number without its trailing zeros, which the exponent takes up. -/
def trimZeros : Nat → Decimal → Decimal
  | 0, d => d
  | fuel + 1, d =>
    if d.digits != 0 && d.digits % 10 == 0 then
      trimZeros fuel ⟨d.digits / 10, d.exponent + 1⟩
    else d

/-- The reals that round to a number: all over one denominator, the ends
belonging to it exactly when the significand is even. -/
structure Interval where
  low : Nat
  value : Nat
  high : Nat
  den : Nat
  closed : Bool

/-- The rounding interval of `m * 2 ^ e`.  Below a power of two the numbers lie
twice as close, so there the interval reaches only half as far down. -/
def Interval.around (f : BinaryFormat) (m : Nat) (e : Int) : Interval :=
  let below := if m == Nat.pow 2 (f.precision - 1) && f.minExponent < e then 1 else 2
  let (up, den) := if 2 ≤ e then (Nat.pow 2 (e - 2).toNat, 1) else (1, Nat.pow 2 (2 - e).toNat)
  ⟨(4 * m - below) * up, 4 * m * up, (4 * m + 2) * up, den, m % 2 == 0⟩

/-- Whether `n * 10 ^ x` lies in the interval. -/
def Interval.holds (i : Interval) (n : Nat) (x : Int) : Bool :=
  let (p, q) := (Decimal.mk n x).ratio
  let l := i.low * q
  let h := i.high * q
  let v := p * i.den
  if i.closed then l ≤ v && v ≤ h else l < v && v < h

/-- The neighbours of the interval's value on the grid `10 ^ x` that lie in the
interval, the better one if both do. -/
def Interval.onGrid (i : Interval) (x : Int) : Option Nat :=
  let (p, q) := inUnits i.value i.den x
  let n := p / q
  let r := p % q
  match i.holds n x, i.holds (n + 1) x with
  | true, true =>
    if 2 * r < q then some n
    else if q < 2 * r then some (n + 1)
    else if n % 2 == 0 then some n else some (n + 1)
  | true, false => some n
  | false, true => some (n + 1)
  | false, false => none

/-- Grids with one more digit each, until one has a point in the interval. -/
def Interval.search (i : Interval) : Nat → Int → Decimal
  | 0, x => ⟨(inUnits i.value i.den x).1 / (inUnits i.value i.den x).2, x⟩
  | more + 1, x =>
    match i.onGrid x with
    | some n => ⟨n, x⟩
    | none => search i more (x - 1)

/-- The shortest decimal that rounds to `m * 2 ^ e`, for positive `m`. -/
def shortest (f : BinaryFormat) (m : Nat) (e : Int) : Decimal :=
  let i := Interval.around f m e
  trimZeros 20 (i.search 18 (leadingExponent i.value i.den))

/-! ### Text -/

/-- Without an exponent: `1500`, `0.25`. -/
def plain (d : Decimal) : Bytes :=
  let s := Bytes.ofNat d.digits
  if d.digits == 0 then s
  else if 0 ≤ d.exponent then s ++ List.replicate d.exponent.toNat (ascii '0')
  else
    let places := (-d.exponent).toNat
    if places < s.length then
      s.take (s.length - places) ++ ascii '.' :: s.drop (s.length - places)
    else utf8 "0." ++ List.replicate (places - s.length) (ascii '0') ++ s

/-- With an exponent of at least two digits: `1.5e+07`. -/
def scientific (d : Decimal) : Bytes :=
  let s := Bytes.ofNat d.digits
  let x := d.exponent + s.length - 1
  let exponent := Bytes.ofNat x.natAbs
  s.take 1 ++ (if s.length ≤ 1 then [] else ascii '.' :: s.drop 1)
    ++ utf8 (if x < 0 then "e-" else "e+")
    ++ (if exponent.length < 2 then ascii '0' :: exponent else exponent)

/-- Plain for magnitudes from `0.0001` up to a million, else scientific. -/
def general (d : Decimal) : Bytes :=
  let x := d.exponent + digitCount d.digits - 1
  if d.digits != 0 && (x < -4 || 6 ≤ x) then d.scientific else d.plain

/-- The number of digits followed, after a point, by more digits. -/
def ofParts (whole fraction : Bytes) : Decimal :=
  ⟨Bytes.digitsValue (whole ++ fraction), -(fraction.length : Int)⟩

/-- Reads digits with at most one point among or around them and, after them,
an optional exponent; there must be a digit before the exponent. -/
def parse? (s : Bytes) : Option Decimal :=
  let whole := s.takeWhile Byte.isDigit
  let s := s.drop whole.length
  let (fraction, s) :=
    match s with
    | 0x2E :: t => (t.takeWhile Byte.isDigit, t.dropWhile Byte.isDigit)
    | _ => ([], s)
  if whole.isEmpty && fraction.isEmpty then none
  else
    let d := ofParts whole fraction
    match s with
    | [] => some d
    | b :: t =>
      if Byte.toLower b == ascii 'e' then
        let (negative, t) :=
          match t with
          | 0x2D :: u => (true, u)
          | 0x2B :: u => (false, u)
          | _ => (false, t)
        if t.isEmpty || !t.all Byte.isDigit then none
        else
          let x : Int := Bytes.digitsValue t
          some { d with exponent := d.exponent + (if negative then -x else x) }
      else none

end Decimal

end MathMarkup
