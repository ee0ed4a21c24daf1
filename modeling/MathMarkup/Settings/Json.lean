/-
MathMarkup/Settings/Json.lean

Settings in JSON.  A configuration is one object; its members are the settings.
What is wrong with a malformed text is reported with the first character that
cannot stand where it does.
-/
import MathMarkup.Number.Binary64
import MathMarkup.Settings.Basic
import MathMarkup.Text.Quoted

namespace MathMarkup

namespace Json

/-- A JSON value. -/
inductive Value
  | null
  | bool (b : Bool)
  | number (negative : Bool) (d : Decimal)
  | string (s : Bytes)
  | array (items : List Value)
  | object (members : List (Bytes × Value))

/-- What can be wrong with a JSON text. -/
inductive Fault
  | ended
  | unexpected (b : UInt8) (place : Bytes)
  | notAnObject (kind : Bytes)
  deriving DecidableEq, Repr

/-- A byte in single quotes. -/
def quotedByte (b : UInt8) : Bytes :=
  if b == ascii '\'' then utf8 "'\\''"
  else if b == ascii '"' then utf8 "'\"'"
  else utf8 "'" ++ Quoted.escape ⟨b.toNat, Utf8.encode b.toNat⟩ ++ utf8 "'"

/-- What is said about a fault. -/
def Fault.message : Fault → Bytes
  | .ended => utf8 "unexpected end of JSON input"
  | .unexpected b place => utf8 "invalid character " ++ quotedByte b ++ utf8 " " ++ place
  | .notAnObject kind =>
    utf8 "json: cannot unmarshal " ++ kind
      ++ utf8 " into Go value of type map[string]interface \x7b\x7d"

/-- Reads a part of a text and gives what is behind it. -/
abbrev Reading (α : Type) := Bytes → Except Fault (α × Bytes)

/-- Behind white space. -/
def skipBlanks (s : Bytes) : Bytes :=
  s.dropWhile Byte.isSpace

/-- The fault of a text that cannot go on as it does. -/
def stuck {α : Type} (place : String) : Bytes → Except Fault α
  | [] => .error .ended
  | b :: _ => .error (.unexpected b (utf8 place))

/-- Reads a word letter by letter. -/
def word (whole : String) : Bytes → Reading Unit
  | [], s => .ok ((), s)
  | w :: ws, s =>
    match s with
    | [] => .error .ended
    | b :: rest =>
      if b == w then word whole ws rest
      else
        .error (.unexpected b (utf8 "in literal " ++ utf8 whole ++ utf8 " (expecting "
          ++ quotedByte w ++ utf8 ")"))

/-- The code in four hexadecimal digits. -/
def hex4 : Nat → Nat → Reading Nat
  | 0, n, s => .ok (n, s)
  | k + 1, n, s =>
    match s with
    | [] => .error .ended
    | b :: rest =>
      match Byte.hexValue? b with
      | some d => hex4 k (n * 16 + d) rest
      | none => stuck "in \\u hexadecimal character escape" s

/-- The character of a code unit and of the one escaped behind it, if the two belong
together; a unit that belongs to none is the replacement character. -/
def joinUnits (unit : Nat) (s : Bytes) : Nat × Bytes :=
  if 0xD800 ≤ unit && unit < 0xDC00 then
    match s with
    | 0x5C :: 0x75 :: rest =>
      match hex4 4 0 rest with
      | .ok (low, rest) =>
        if 0xDC00 ≤ low && low < 0xE000 then
          (0x10000 + (unit - 0xD800) * 0x400 + (low - 0xDC00), rest)
        else (Utf8.replacement, s)
      | .error _ => (Utf8.replacement, s)
    | _ => (Utf8.replacement, s)
  else if 0xDC00 ≤ unit && unit < 0xE000 then (Utf8.replacement, s)
  else (unit, s)

/-- What a letter behind a backslash stands for. -/
def escape? (b : UInt8) : Option UInt8 :=
  match Char.ofNat b.toNat with
  | '"' => some (ascii '"')
  | '\\' => some (ascii '\\')
  | '/' => some (ascii '/')
  | 'b' => some 0x08
  | 'f' => some 0x0C
  | 'n' => some 0x0A
  | 'r' => some 0x0D
  | 't' => some 0x09
  | _ => none

/-- Reads a string on, behind its opening quote and the text so far. -/
def stringFrom : Nat → Bytes → Reading Bytes
  | 0, _, _ => .error .ended
  | steps + 1, text, s =>
    match s with
    | [] => .error .ended
    | b :: rest =>
      if b == ascii '"' then .ok (text, rest)
      else if b < 0x20 then stuck "in string literal" s
      else if b == ascii '\\' then
        match rest with
        | [] => .error .ended
        | e :: behind =>
          if e == ascii 'u' then
            match hex4 4 0 behind with
            | .error f => .error f
            | .ok (unit, behind) =>
              let (c, behind) := joinUnits unit behind
              stringFrom steps (text ++ Utf8.encode c) behind
          else
            match escape? e with
            | some c => stringFrom steps (text ++ [c]) behind
            | none => stuck "in string escape code" rest
      else
        let r := Utf8.first b rest
        let bytes := if r.isStray then Utf8.encode Utf8.replacement else r.bytes
        stringFrom steps (text ++ bytes) (s.drop r.bytes.length)

/-- Reads a string behind its opening quote. -/
def string (s : Bytes) : Except Fault (Bytes × Bytes) :=
  stringFrom (s.length + 1) [] s

/-- Reads the digits of which there must be one. -/
def digits (place : String) (s : Bytes) : Except Fault (Bytes × Bytes) :=
  let ds := s.takeWhile Byte.isDigit
  if ds.isEmpty then stuck place s else .ok (ds, s.drop ds.length)

/-- Reads the exponent of a number, if there is one. -/
def exponent (s : Bytes) : Except Fault (Int × Bytes) :=
  match s with
  | b :: rest =>
    if Byte.toLower b == ascii 'e' then
      let negative := rest.head? == some (ascii '-')
      let rest := if negative || rest.head? == some (ascii '+') then rest.drop 1 else rest
      match digits "in exponent of numeric literal" rest with
      | .error f => .error f
      | .ok (ds, rest) =>
        let n : Int := Bytes.digitsValue ds
        .ok (if negative then -n else n, rest)
    else .ok (0, s)
  | [] => .ok (0, s)

/-- Reads a number. -/
def number (s : Bytes) : Except Fault (Value × Bytes) :=
  let negative := s.head? == some (ascii '-')
  let s := if negative then s.drop 1 else s
  match digits "in numeric literal" s with
  | .error f => .error f
  | .ok (whole, behind) =>
    let (whole, s) :=
      if whole.head? == some (ascii '0') then (whole.take 1, s.drop 1) else (whole, behind)
    let fraction : Except Fault (Bytes × Bytes) :=
      if s.head? == some (ascii '.') then digits "after decimal point in numeric literal" (s.drop 1)
      else .ok ([], s)
    match fraction with
    | .error f => .error f
    | .ok (fraction, s) =>
      match exponent s with
      | .error f => .error f
      | .ok (x, s) =>
        let d := Decimal.ofParts whole fraction
        .ok (.number negative { d with exponent := d.exponent + x }, s)

mutual

/-- Reads a value. -/
def value : Nat → Reading Value
  | 0, _ => .error .ended
  | depth + 1, s =>
    match skipBlanks s with
    | [] => .error .ended
    | b :: rest =>
      if b == ascii '"' then (string rest).map fun (t, s) => (.string t, s)
      else if b == ascii '\x7b' then
        let rest := skipBlanks rest
        if rest.head? == some (ascii '\x7d') then .ok (.object [], rest.drop 1)
        else (members depth rest).map fun (ms, s) => (.object ms, s)
      else if b == ascii '[' then
        let rest := skipBlanks rest
        if rest.head? == some (ascii ']') then .ok (.array [], rest.drop 1)
        else (items depth rest).map fun (vs, s) => (.array vs, s)
      else if b == ascii '-' || Byte.isDigit b then number (b :: rest)
      else if b == ascii 't' then (word "true" (utf8 "rue") rest).map fun (_, s) => (.bool true, s)
      else if b == ascii 'f' then
        (word "false" (utf8 "alse") rest).map fun (_, s) => (.bool false, s)
      else if b == ascii 'n' then (word "null" (utf8 "ull") rest).map fun (_, s) => (.null, s)
      else stuck "looking for beginning of value" (b :: rest)

/-- Reads the items of an array up to its end. -/
def items : Nat → Reading (List Value)
  | 0, _ => .error .ended
  | depth + 1, s =>
    match value depth s with
    | .error f => .error f
    | .ok (v, s) =>
      let s := skipBlanks s
      if s.head? == some (ascii ',') then (items depth (s.drop 1)).map fun (vs, s) => (v :: vs, s)
      else if s.head? == some (ascii ']') then .ok ([v], s.drop 1)
      else stuck "after array element" s

/-- Reads the members of an object up to its end. -/
def members : Nat → Reading (List (Bytes × Value))
  | 0, _ => .error .ended
  | depth + 1, s =>
    let s := skipBlanks s
    if s.head? == some (ascii '"') then
      match string (s.drop 1) with
      | .error f => .error f
      | .ok (key, s) =>
        let s := skipBlanks s
        if s.head? == some (ascii ':') then
          match value depth (s.drop 1) with
          | .error f => .error f
          | .ok (v, s) =>
            let s := skipBlanks s
            if s.head? == some (ascii ',') then
              (members depth (s.drop 1)).map fun (ms, s) => ((key, v) :: ms, s)
            else if s.head? == some (ascii '\x7d') then .ok ([(key, v)], s.drop 1)
            else stuck "after object key:value pair" s
        else stuck "after object key" s
    else stuck "looking for beginning of object key string" s

end

/-- Reads a text that is one value. -/
def parse (s : Bytes) : Except Fault Value :=
  match value (2 * s.length + 2) s with
  | .error f => .error f
  | .ok (v, s) =>
    let s := skipBlanks s
    if s.isEmpty then .ok v else stuck "after top-level value" s

namespace Value

/-- A value as a setting.  A number is not true, whatever it is. -/
def setting? : Value → Option Setting
  | .null => none
  | .bool b => some (.ofBool b)
  | .string s => some (.ofText s)
  | .number negative d =>
    some ⟨((Binary64.ofDecimal? negative d).getD (.infinite negative)).text, false⟩
  | .array _ | .object _ => some .composite

/-- The settings of an object; of nothing there are none. -/
def settings : Value → Except Fault (List (Bytes × Option Setting))
  | .object ms => .ok (ms.map fun (k, v) => (k, v.setting?))
  | .null => .ok []
  | .bool _ => .error (.notAnObject (utf8 "bool"))
  | .number _ _ => .error (.notAnObject (utf8 "number"))
  | .string _ => .error (.notAnObject (utf8 "string"))
  | .array _ => .error (.notAnObject (utf8 "array"))

end Value

end Json

end MathMarkup
