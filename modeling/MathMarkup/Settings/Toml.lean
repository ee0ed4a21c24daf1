/-
MathMarkup/Settings/Toml.lean

Settings in TOML.  A configuration is lines of `key = value`, the settings, and
tables behind headers in brackets, which hold no settings of their own: to the
settings a table is just a composite value under its name.
-/
import MathMarkup.Settings.Basic
import MathMarkup.Yaml.Scalar

namespace MathMarkup

namespace Toml

/-- Reads a part of a text and gives what is behind it, `none` if it is
malformed. -/
abbrev Reading (α : Type) := Bytes → Option (α × Bytes)

/-- A space or a tab. -/
def isBlank (b : UInt8) : Bool :=
  b == ascii ' ' || b == ascii '\t'

/-- Behind spaces and tabs. -/
def skipBlanks (s : Bytes) : Bytes :=
  s.dropWhile isBlank

/-- Behind white space, line ends and comments. -/
def skipLayout : Nat → Bytes → Bytes
  | 0, s => s
  | steps + 1, s =>
    let s := s.dropWhile Byte.isSpace
    if s.head? == some (ascii '#') then skipLayout steps (s.dropWhile (· != ascii '\n')) else s

/-- Behind the rest of a line, which may hold only a comment. -/
def skipLineEnd (s : Bytes) : Option Bytes :=
  let s := skipBlanks s
  let s := if s.head? == some (ascii '#') then s.dropWhile (· != ascii '\n') else s
  match s with
  | [] => some []
  | 0x0A :: rest | 0x0D :: 0x0A :: rest => some rest
  | _ => none

/-! ### Strings -/

/-- What a letter behind a backslash stands for. -/
def escape? (b : UInt8) : Option UInt8 :=
  match Char.ofNat b.toNat with
  | '"' => some (ascii '"')
  | '\\' => some (ascii '\\')
  | 'b' => some 0x08
  | 'f' => some 0x0C
  | 'n' => some 0x0A
  | 'r' => some 0x0D
  | 't' => some 0x09
  | _ => none

/-- The character of a given number of hexadecimal digits. -/
def hexCharacter (width : Nat) (s : Bytes) : Option (Bytes × Bytes) :=
  let ds := s.take width
  match Yaml.Value.digits? 16 ds with
  | some n =>
    if ds.length < width || (0xD800 ≤ n && n ≤ 0xDFFF) || 0x10FFFF < n then none
    else some (Utf8.encode n, s.drop width)
  | none => none

/-- Whether a text begins with three times a quote. -/
def isTriple (quote : UInt8) (s : Bytes) : Bool :=
  s.take 3 == [quote, quote, quote]

/-- Reads a string on, behind its opening quotes and the text so far. -/
def stringFrom (quote : UInt8) (multiline : Bool) : Nat → Bytes → Reading Bytes
  | 0, _, _ => none
  | steps + 1, text, s =>
    match s with
    | [] => none
    | b :: rest =>
      if multiline && isTriple quote s then
        -- up to two quotes may stand right before the closing ones
        let more := ((s.drop 3).takeWhile (· == quote)).take 2
        some (text ++ more, s.drop (3 + more.length))
      else if !multiline && b == quote then some (text, rest)
      else if !multiline && b == ascii '\n' then none
      else if quote == ascii '"' && b == ascii '\\' then
        match rest with
        | [] => none
        | e :: behind =>
          if e == ascii 'u' || e == ascii 'U' then
            match hexCharacter (if e == ascii 'u' then 4 else 8) behind with
            | some (c, behind) => stringFrom quote multiline steps (text ++ c) behind
            | none => none
          else if multiline && (skipBlanks rest).head? == some (ascii '\n') then
            stringFrom quote multiline steps text (rest.dropWhile Byte.isSpace)
          else
            match escape? e with
            | some c => stringFrom quote multiline steps (text ++ [c]) behind
            | none => none
      else stringFrom quote multiline steps (text ++ [b]) rest

/-- Reads a string from its opening quote on. -/
def string (quote : UInt8) (s : Bytes) : Option (Bytes × Bytes) :=
  if isTriple quote s then
    let s := s.drop 3
    -- a line end right behind the opening quotes does not count
    let s :=
      match s with
      | 0x0A :: rest | 0x0D :: 0x0A :: rest => rest
      | _ => s
    stringFrom quote true (s.length + 1) [] s
  else stringFrom quote false (s.length + 1) [] (s.drop 1)

/-! ### Keys -/

/-- Characters of a key without quotes. -/
def isKeyByte (b : UInt8) : Bool :=
  Byte.isLetter b || Byte.isDigit b || b == ascii '_' || b == ascii '-'

/-- Reads one name of a key. -/
def keyName (s : Bytes) : Option (Bytes × Bytes) :=
  match s with
  | [] => none
  | b :: _ =>
    if b == ascii '"' || b == ascii '\'' then
      if isTriple b s then none else string b s
    else
      let name := s.takeWhile isKeyByte
      if name.isEmpty then none else some (name, s.drop name.length)

/-- Reads a key: names with points between them. -/
def key : Nat → Reading (List Bytes)
  | 0, _ => none
  | steps + 1, s =>
    match keyName (skipBlanks s) with
    | none => none
    | some (name, s) =>
      let s := skipBlanks s
      if s.head? == some (ascii '.') then
        (key steps (s.drop 1)).map fun (names, s) => (name :: names, s)
      else some ([name], s)

/-! ### Values -/

/-- A value without quotes or brackets: a truth value, a number or a date. -/
def ofWord? (w : Bytes) : Option Setting :=
  let (negative, unsigned) := Yaml.Value.splitSign w
  let plain := w.filter (· != ascii '_')
  if w == utf8 "true" then some (.ofBool true)
  else if w == utf8 "false" then some (.ofBool false)
  else if unsigned == utf8 "inf" then some ⟨utf8 (if negative then "-Inf" else "+Inf"), false⟩
  else if unsigned == utf8 "nan" then some ⟨utf8 "NaN", false⟩
  else
    match Yaml.Value.int? plain with
    | some n => some ⟨Bytes.ofInt n, false⟩
    | none =>
      match Yaml.Value.float? plain with
      | some x => some ⟨x.text, false⟩
      | none =>
        if w.head?.any Byte.isDigit && w.any (fun b => b == ascii '-' || b == ascii ':') then
          some ⟨w, false⟩
        else none

/-- Whether a byte ends a value without quotes. -/
def endsWord (b : UInt8) : Bool :=
  Byte.isSpace b || b == ascii ',' || b == ascii ']' || b == ascii '\x7d' || b == ascii '#'

mutual

/-- Reads a value. -/
def value : Nat → Reading Setting
  | 0, _ => none
  | depth + 1, s =>
    match s with
    | [] => none
    | b :: rest =>
      if b == ascii '"' || b == ascii '\'' then
        (string b s).map fun (t, s) => (.ofText t, s)
      else if b == ascii '[' then (items depth rest).map fun (_, s) => (.composite, s)
      else if b == ascii '\x7b' then
        let rest := skipBlanks rest
        if rest.head? == some (ascii '\x7d') then some (.composite, rest.drop 1)
        else (members depth rest).map fun (_, s) => (.composite, s)
      else
        let w := s.takeWhile (!endsWord ·)
        (ofWord? w).map fun v => (v, s.drop w.length)

/-- Reads the items of an array up to its end. -/
def items : Nat → Reading Unit
  | 0, _ => none
  | depth + 1, s =>
    let s := skipLayout (s.length + 1) s
    if s.head? == some (ascii ']') then some ((), s.drop 1)
    else
      match value depth s with
      | none => none
      | some (_, s) =>
        let s := skipLayout (s.length + 1) s
        if s.head? == some (ascii ',') then items depth (s.drop 1)
        else if s.head? == some (ascii ']') then some ((), s.drop 1)
        else none

/-- Reads the members of a table in braces up to its end. -/
def members : Nat → Reading Unit
  | 0, _ => none
  | depth + 1, s =>
    match key (s.length + 1) s with
    | none => none
    | some (_, s) =>
      if s.head? != some (ascii '=') then none
      else
        match value depth (skipBlanks (s.drop 1)) with
        | none => none
        | some (_, s) =>
          let s := skipBlanks s
          if s.head? == some (ascii ',') then members depth (s.drop 1)
          else if s.head? == some (ascii '\x7d') then some ((), s.drop 1)
          else none

end

/-! ### Documents -/

/-- Reads the header of a table behind its opening bracket and gives the first of
its names. -/
def header (s : Bytes) : Option (Bytes × Bytes) :=
  let array := s.head? == some (ascii '[')
  match key (s.length + 1) (if array then s.drop 1 else s) with
  | some (name :: _, s) =>
    let closing := utf8 (if array then "]]" else "]")
    if s.take closing.length == closing then some (name, s.drop closing.length) else none
  | _ => none

/-- Reads lines, inside a table or not. -/
def lines (inTable : Bool) : Nat → Bytes → Option (List (Bytes × Setting))
  | 0, _ => none
  | steps + 1, s =>
    match skipLayout (s.length + 1) s with
    | [] => some []
    | b :: rest =>
      if b == ascii '[' then
        match header rest with
        | none => none
        | some (name, s) =>
          match skipLineEnd s with
          | none => none
          | some s => (lines true steps s).map ((name, .composite) :: ·)
      else
        match key (rest.length + 2) (b :: rest) with
        | none => none
        | some (names, s) =>
          if s.head? != some (ascii '=') then none
          else
            match value (s.length + 1) (skipBlanks (s.drop 1)) with
            | none => none
            | some (v, s) =>
              match skipLineEnd s with
              | none => none
              | some s =>
                let found :=
                  match names with
                  | [name] => [(name, v)]
                  | name :: _ => [(name, .composite)]
                  | [] => []
                (lines inTable steps s).map ((if inTable then [] else found) ++ ·)

/-- The settings of a document, `none` if it is malformed. -/
def settings? (s : Bytes) : Option (List (Bytes × Setting)) :=
  lines false (s.length + 1) s

end Toml

end MathMarkup
