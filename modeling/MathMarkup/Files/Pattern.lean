/-
MathMarkup/Files/Pattern.lean

Patterns for names of files.  In a name `*` stands for any text, `?` for one
character, a class in brackets for one of its characters or, after `!` or `^`,
for one that is not in it.  A backslash takes the special meaning from the
character after it.

`matchesName` decides whether a name is as a pattern says; the pattern is read into
its parts first.
-/
import MathMarkup.Text.Utf8

namespace MathMarkup

namespace Pattern

/-- The parts of a pattern for a name. -/
inductive Part
  | literal (code : Nat)
  | one
  | many
  | set (negated : Bool) (ranges : List (Nat × Nat))
  deriving DecidableEq, Repr

/-- The code of an ASCII character. -/
def code (c : Char) : Nat :=
  c.toNat

/-- Reads the characters and ranges of a class up to its end.  `last` is the
character that may begin a range. -/
def readSet : Nat → Option Nat → List Nat → List (Nat × Nat) × List Nat
  | 0, _, cs => ([], cs)
  | _, _, [] => ([], [])
  | steps + 1, last, c :: rest =>
    if c == code ']' then ([], rest)
    else
      let add (r : Nat × Nat) (last : Option Nat) (rest : List Nat) :=
        let (ranges, rest) := readSet steps last rest
        (r :: ranges, rest)
      match last, rest with
      | some low, d :: rest' =>
        if c == code '-' && d != code ']' then
          if d == code '\\' then
            match rest' with
            | high :: rest'' => add (low, high) none rest''
            | [] => ([], [])
          else add (low, d) none rest'
        else if c == code '\\' then add (d, d) (some d) rest'
        else add (c, c) (some c) rest
      | none, d :: rest' =>
        if c == code '\\' then add (d, d) (some d) rest' else add (c, c) (some c) rest
      | _, [] => ([(c, c)], [])

/-- Reads a pattern for a name into its parts. -/
def readParts : Nat → List Nat → List Part
  | 0, _ => []
  | _, [] => []
  | steps + 1, c :: rest =>
    if c == code '*' then .many :: readParts steps rest
    else if c == code '?' then .one :: readParts steps rest
    else if c == code '[' then
      let negated := rest.head?.any fun d => d == code '!' || d == code '^'
      let (ranges, rest) := readSet rest.length none (if negated then rest.drop 1 else rest)
      .set negated ranges :: readParts steps rest
    else if c == code '\\' then
      match rest with
      | d :: rest => .literal d :: readParts steps rest
      | [] => []
    else .literal c :: readParts steps rest

/-- Whether a single character is as a part says. -/
def Part.admits (c : Nat) : Part → Bool
  | .literal d => c == d
  | .one => true
  | .many => false
  | .set negated ranges => (ranges.any fun (low, high) => low ≤ c && c ≤ high) != negated

/-- Whether characters are as the parts say, from front to back. -/
def matchesParts : List Part → List Nat → Bool
  | [], [] => true
  | [], _ :: _ => false
  | .many :: ps, cs => matchesMany (matchesParts ps) cs
  | _ :: _, [] => false
  | p :: ps, c :: cs => p.admits c && matchesParts ps cs
where
  /-- Whether some end of a text is as `rest` says. -/
  matchesMany (rest : List Nat → Bool) : List Nat → Bool
  | [] => rest []
  | c :: cs => rest (c :: cs) || matchesMany rest cs

/-- The characters of a text. -/
def codes (s : Bytes) : List Nat :=
  (Utf8.runes s).map Rune.code

/-- Whether a name is as a pattern says. -/
def matchesName (pattern name : Bytes) : Bool :=
  let cs := codes pattern
  matchesParts (readParts cs.length cs) (codes name)

/-! ### Patterns for paths -/

/-- Behind a class in brackets that begins with the text given; `none` if it has no
end or nothing in it. -/
def behindSet (s : Bytes) : Option Bytes :=
  let s := if s.head?.any (fun b => b == ascii '!' || b == ascii '^') then s.drop 1 else s
  match s with
  | [] => none
  | b :: _ => if b == ascii ']' then none else go s
where
  /-- Behind the bracket that ends a class. -/
  go : Bytes → Option Bytes
  | [] => none
  | [b] => if b == ascii ']' then some [] else none
  | b :: c :: rest =>
    if b == ascii '\\' then go rest
    else if b == ascii ']' then some (c :: rest)
    else go (c :: rest)

/-- Whether all brackets and braces of a pattern are closed, from a depth of braces
on, and no backslash stands at its end. -/
def isValidFrom : Nat → Nat → Bytes → Bool
  | _, depth, [] => depth == 0
  | 0, _, _ :: _ => false
  | steps + 1, depth, b :: rest =>
    if b == ascii '\\' then !rest.isEmpty && isValidFrom steps depth (rest.drop 1)
    else if b == ascii '[' then
      match behindSet rest with
      | none => false
      | some rest => isValidFrom steps depth rest
    else if b == ascii '\x7b' then isValidFrom steps (depth + 1) rest
    else if b == ascii '\x7d' then depth != 0 && isValidFrom steps (depth - 1) rest
    else isValidFrom steps depth rest

/-- Whether a pattern is well formed. -/
def isValid (pattern : Bytes) : Bool :=
  isValidFrom pattern.length 0 pattern

/-- Whether a byte has a special meaning. -/
def isSpecial (b : UInt8) : Bool :=
  b == ascii '*' || b == ascii '?' || b == ascii '[' || b == ascii '\x7b'

/-- The position of the first special byte. -/
def firstSpecial? : Bytes → Option Nat
  | [] => none
  | [b] => if isSpecial b then some 0 else none
  | b :: c :: rest =>
    if isSpecial b then some 0
    else if b == ascii '\\' then (firstSpecial? rest).map (· + 2)
    else (firstSpecial? (c :: rest)).map (· + 1)

/-- A text without the backslashes that take a special meaning away. -/
def unescape : Bytes → Bytes
  | [] => []
  | [b] => [b]
  | b :: c :: rest => if b == ascii '\\' then c :: unescape rest else b :: unescape (c :: rest)

/-- The position of the last byte for which `f` holds and before which there is no
backslash. -/
def lastWhere? (f : UInt8 → Bool) (s : Bytes) : Option Nat :=
  ((List.range s.length).filter fun i =>
    s[i]?.any f && (i == 0 || s[i - 1]? != some (ascii '\\'))).getLast?

/-- The position of the brace that a closing brace behind the text belongs to. -/
def openingBrace? (s : Bytes) : Option Nat :=
  go s.length 1
where
  /-- Looks for it among the first bytes, with a number of braces to be opened. -/
  go : Nat → Nat → Option Nat
  | 0, _ => none
  | i + 1, depth =>
    let plain := i == 0 || s[i - 1]? != some (ascii '\\')
    if plain && s[i]? == some (ascii '\x7d') then go i (depth + 1)
    else if plain && s[i]? == some (ascii '\x7b') then
      if depth == 1 then some i else go i (depth - 1)
    else go i depth

/-- The alternatives between two braces: the pieces between commas that stand in no
further braces.  There is none behind a comma at the end. -/
def alternatives (s : Bytes) : List Bytes :=
  go s.length 0 [] s
where
  /-- Reads on, inside some depth of braces and behind the piece so far. -/
  go : Nat → Nat → Bytes → Bytes → List Bytes
  | _, _, piece, [] => if piece.isEmpty then [] else [piece]
  | 0, _, _, _ :: _ => []
  | steps + 1, depth, piece, b :: rest =>
    if b == ascii '\\' then go steps depth (piece ++ b :: rest.take 1) (rest.drop 1)
    else if b == ascii '\x7b' then go steps (depth + 1) (piece ++ [b]) rest
    else if b == ascii '\x7d' then go steps (depth - 1) (piece ++ [b]) rest
    else if b == ascii ',' && depth == 0 then piece :: go steps depth [] rest
    else go steps depth (piece ++ [b]) rest

/-- The shortest path that says the same: without `.`, without empty names, and
with `..` only in front. -/
def clean (path : Bytes) : Bytes :=
  let rooted := path.head? == some (ascii '/')
  let ns := (Bytes.splitAt (ascii '/') path).foldl (fun ns name =>
    if name.isEmpty || name == utf8 "." then ns
    else if name == utf8 ".." then
      match ns with
      | [] => if rooted then [] else [name]
      | last :: rest => if last == utf8 ".." then name :: ns else rest
    else name :: ns) []
  let text := Bytes.joinWith (utf8 "/") ns.reverse
  if rooted then ascii '/' :: text else if text.isEmpty then utf8 "." else text

end Pattern

end MathMarkup
