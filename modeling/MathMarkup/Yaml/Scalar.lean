/-
MathMarkup/Yaml/Scalar.lean

What a scalar stands for.  A scalar with quotes or block marks is a text.  A bare
one may stand for nothing, a truth value, a number or a date, which its first
character narrows down: letters for the words, a sign or digit for numbers and
dates, a point for fractions.  Everything else is a text too.

Whole numbers may have underscores between their digits and may be written in
base 2, 8 or 16 as well.  A leading zero alone means base 8, and a number that is
not one in that base, as `08`, is a fraction in base 10.
-/
import MathMarkup.Number.Binary64
import MathMarkup.Yaml.Node

namespace MathMarkup

namespace Yaml

/-- What a scalar stands for. -/
inductive Value
  | nothing
  | bool (b : Bool)
  | int (n : Int)
  | float (x : Binary64)
  | date
  | merge
  | text
  deriving DecidableEq, Repr

namespace Value

/-- The tag of what a scalar stands for. -/
def tag : Value → Bytes
  | .nothing => utf8 "!!null"
  | .bool _ => utf8 "!!bool"
  | .int _ => utf8 "!!int"
  | .float _ => utf8 "!!float"
  | .date => utf8 "!!timestamp"
  | .merge => utf8 "!!merge"
  | .text => utf8 "!!str"

/-- The words with a meaning. -/
def ofWord? (s : Bytes) : Option Value :=
  let oneOf (ws : List String) : Bool := ws.any (utf8 · == s)
  if oneOf ["", "~", "null", "Null", "NULL"] then some .nothing
  else if oneOf ["true", "True", "TRUE"] then some (.bool true)
  else if oneOf ["false", "False", "FALSE"] then some (.bool false)
  else if oneOf [".nan", ".NaN", ".NAN"] then some (.float .nan)
  else if oneOf [".inf", ".Inf", ".INF", "+.inf", "+.Inf", "+.INF"] then
    some (.float (.infinite false))
  else if oneOf ["-.inf", "-.Inf", "-.INF"] then some (.float (.infinite true))
  else if oneOf ["<<"] then some .merge
  else none

/-- A text without its sign, and whether that was a minus. -/
def splitSign (s : Bytes) : Bool × Bytes :=
  match s with
  | 0x2D :: rest => (true, rest)
  | 0x2B :: rest => (false, rest)
  | _ => (false, s)

/-- The number that a run of digits stands for in a base. -/
def digits? (base : Nat) (s : Bytes) : Option Nat :=
  s.foldl (fun n b =>
    match n, Byte.hexValue? b with
    | some n, some d => if d < base then some (n * base + d) else none
    | _, _ => none) (some 0)

/-- The number that unsigned digits stand for, whose base is written in front. -/
def natural? (s : Bytes) : Option Nat :=
  match s with
  | [] => none
  | 0x30 :: c :: d :: rest =>
    if Byte.toLower c == ascii 'x' then digits? 16 (d :: rest)
    else if Byte.toLower c == ascii 'b' then digits? 2 (d :: rest)
    else if Byte.toLower c == ascii 'o' then digits? 8 (d :: rest)
    else digits? 8 (c :: d :: rest)
  | 0x30 :: rest => digits? 8 rest
  | _ => digits? 10 s

/-- A whole number of 64 bits; one without a sign may use them all. -/
def int? (s : Bytes) : Option Int :=
  let (negative, digits) := splitSign s
  match natural? digits with
  | none => none
  | some n =>
    if negative then (if n ≤ Nat.pow 2 63 then some (-(n : Int)) else none)
    else if n < Nat.pow 2 63 || (n < Nat.pow 2 64 && digits.length == s.length) then some n
    else none

/-- A decimal fraction in the range of double precision. -/
def float? (s : Bytes) : Option Binary64 :=
  let (negative, digits) := splitSign s
  match Decimal.parse? digits with
  | some d => Binary64.ofDecimal? negative d
  | none => none

/-- How many days a month has. -/
def daysIn (year month : Nat) : Nat :=
  if month == 2 then (if year % 4 == 0 && (year % 100 != 0 || year % 400 == 0) then 29 else 28)
  else if [4, 6, 9, 11].contains month then 30
  else 31

/-- Whether a text is a day of the calendar: four digits, and one or two for month
and day. -/
def isDate (s : Bytes) : Bool :=
  match Bytes.splitAt (ascii '-') s with
  | [year, month, day] =>
    let short (n : Bytes) : Bool := n.length == 1 || n.length == 2
    let m := Bytes.digitsValue month
    let d := Bytes.digitsValue day
    year.length == 4 && short month && short day
      && year.all Byte.isDigit && month.all Byte.isDigit && day.all Byte.isDigit
      && 1 ≤ m && m ≤ 12 && 1 ≤ d && d ≤ daysIn (Bytes.digitsValue year) m
  | _ => false

/-- What a text that starts with a sign or digit stands for. -/
def ofNumeral (s : Bytes) : Value :=
  if isDate s then .date
  else
    let plain := s.filter (· != ascii '_')
    match int? plain with
    | some n => .int n
    | none =>
      match float? plain with
      | some x => .float x
      | none => .text

/-- What a bare scalar stands for. -/
def ofBare (s : Bytes) : Value :=
  match ofWord? s with
  | some v => v
  | none =>
    match s with
    | [] => .nothing
    | c :: _ =>
      if Byte.isDigit c || c == ascii '+' || c == ascii '-' then ofNumeral s
      else if c == ascii '.' then
        match float? s with
        | some x => .float x
        | none => .text
      else .text

/-- What a scalar stands for.  A tag may ask for a text, or for a fraction where a
whole number is written; a tag that does not fit is an error. -/
def ofScalar? (tag : Option Bytes) (style : Style) (s : Bytes) : Option Value :=
  match tag with
  | none => some (if style == .bare then ofBare s else .text)
  | some t =>
    if t == utf8 "!" then some (if style == .bare then ofBare s else .text)
    else if t == utf8 "!!str" then some .text
    else
      let v := ofBare s
      match v with
      | .int n =>
        if t == utf8 "!!float" then some (.float (.ofInt n))
        else if t == v.tag then some v
        else none
      | _ => if t == v.tag then some v else none

end Value

end Yaml

end MathMarkup
