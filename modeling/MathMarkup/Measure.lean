/-
MathMarkup/Measure.lean

Lengths such as `5.1cm` or `-3mu`: a decimal number and a unit.  After the
white space around it is taken off, a length is an optional minus sign, digits,
optionally a point and digits, white space and a run of lower case letters;
there has to be a digit, and a point is followed by one.

Lengths are converted to em by single precision arithmetic, one rounding for
every operation, with 10 points to an em.
-/
import MathMarkup.Number.Binary32
import MathMarkup.Text.Blank
import MathMarkup.Text.Quoted

namespace MathMarkup

namespace Measure

/-- Why a text is no usable length. -/
inductive Fault
  | unreadable
  | outOfRange (number : Bytes)
  | unknownUnit (unit : Bytes)
  deriving DecidableEq, Repr

/-- What is said about a length that cannot be used. -/
def Fault.message : Fault → Bytes
  | .unreadable => utf8 "unable to parse measurement"
  | .outOfRange number =>
    utf8 "strconv.ParseFloat: parsing " ++ quoted number ++ utf8 ": value out of range"
  | .unknownUnit unit => utf8 "measurement unit " ++ quoted unit ++ utf8 " is not supported"

/-- The parts of a written length. -/
structure Parts where
  negative : Bool
  whole : Bytes
  fraction : Bytes
  unit : Bytes
  deriving DecidableEq, Repr

/-- White space between number and unit. -/
def isGap (b : UInt8) : Bool :=
  b == 0x09 || b == 0x0A || b == 0x0C || b == 0x0D || b == 0x20

/-- A point and the digits after it, and the rest; no digits if there is no
point with a digit after it. -/
def readFraction (s : Bytes) : Bytes × Bytes :=
  match s with
  | 0x2E :: d :: t =>
    if Byte.isDigit d then ((d :: t).takeWhile Byte.isDigit, (d :: t).dropWhile Byte.isDigit)
    else ([], s)
  | _ => ([], s)

/-- Reads a length from a text without white space around it. -/
def read? (s : Bytes) : Option Parts :=
  let (negative, t) :=
    match s with
    | 0x2D :: t => (true, t)
    | _ => (false, s)
  let whole := t.takeWhile Byte.isDigit
  let (fraction, t) := readFraction (t.dropWhile Byte.isDigit)
  let unit := t.dropWhile isGap
  if (whole.isEmpty && fraction.isEmpty) || !unit.all Byte.isLower then none
  else some ⟨negative, whole, fraction, unit⟩

/-- The number of a length as it was written. -/
def Parts.number (p : Parts) : Bytes :=
  (if p.negative then utf8 "-" else []) ++ p.whole
    ++ (if p.fraction.isEmpty then [] else ascii '.' :: p.fraction)

/-- The number and the unit of a length. -/
def parse (raw : Bytes) : Except Fault (Binary32 × Bytes) :=
  match read? raw.trim with
  | none => .error .unreadable
  | some p =>
    match Binary32.ofDecimal? p.negative (.ofParts p.whole p.fraction) with
    | none => .error (.outOfRange p.number)
    | some x => .ok (x, p.unit)

/-- A number of the given unit in em. -/
def toEm (x : Binary32) (unit : Bytes) : Except Fault Binary32 :=
  let times (digits : Nat) (places : Int) := x.mul (.ofDecimal false ⟨digits, -places⟩)
  if unit == utf8 "em" then .ok x
  else if unit == utf8 "ex" then .ok (times 43 2)
  else if unit == utf8 "mu" then .ok (x.divNat 18)
  else if unit == utf8 "pt" then .ok (x.divNat 10)
  else if unit == utf8 "bp" then .ok ((times 100375 5).divNat 10)
  else if unit == utf8 "mm" then .ok ((times 284527 5).divNat 10)
  else if unit == utf8 "cm" then .ok ((times 284527 4).divNat 10)
  else if unit == utf8 "in" then .ok ((times 7227 2).divNat 10)
  else if unit == utf8 "px" then .ok (x.divNat 16)
  else .error (.unknownUnit unit)

/-- A written length in em. -/
def parseEm (raw : Bytes) : Except Fault Binary32 :=
  match parse raw with
  | .error e => .error e
  | .ok (x, unit) => toEm x unit

end Measure

end MathMarkup
