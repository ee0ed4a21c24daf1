/-
MathMarkup/Column.lean

The column specification of an array, such as `c|lr`.  Each of the letters `c`,
`l` and `r` is a column with its alignment; a bar next to the letter is a line
at that side of the column.  White space is taken out first, and anything else
means nothing but keeps a bar and a letter apart.
-/
import MathMarkup.Text.Bytes

namespace MathMarkup

/-- Where the content of a column stands. -/
inductive Align
  | left
  | center
  | right
  deriving DecidableEq, Repr, Inhabited

namespace Align

/-- The alignment that a letter stands for. -/
def ofLetter? (b : UInt8) : Option Align :=
  if b == ascii 'l' then some .left
  else if b == ascii 'c' then some .center
  else if b == ascii 'r' then some .right
  else none

/-- The letter of an alignment. -/
def letter : Align → Bytes
  | .left => utf8 "l"
  | .center => utf8 "c"
  | .right => utf8 "r"

/-- The name by which markup refers to an alignment. -/
def name : Align → Bytes
  | .left => utf8 "left"
  | .center => utf8 "center"
  | .right => utf8 "right"

end Align

/-- A column with the lines beside it. -/
structure Column where
  align : Align
  lineLeft : Bool
  lineRight : Bool
  deriving DecidableEq, Repr, Inhabited

namespace Column

/-- The byte of a line. -/
def bar : UInt8 := ascii '|'

/-- The columns of a specification without white space, given the byte before
it. -/
def parseAfter : Option UInt8 → Bytes → List Column
  | _, [] => []
  | before, b :: rest =>
    match Align.ofLetter? b with
    | some align => ⟨align, before == some bar, rest.head? == some bar⟩ :: parseAfter (some b) rest
    | none => parseAfter (some b) rest

/-- The columns of a specification. -/
def parse (s : Bytes) : List Column :=
  parseAfter none (s.filter (!Byte.isSpace ·))

/-- The alignments of columns, as markup names them. -/
def alignment (cs : List Column) : Bytes :=
  Bytes.joinWith (utf8 " ") (cs.map fun c => c.align.name)

/-- For every two neighbours, whether there is a line between them. -/
def between : List Column → List Bool
  | c :: d :: cs => (c.lineRight || d.lineLeft) :: between (d :: cs)
  | _ => []

/-- The lines between columns, as markup names them; nothing if there are
none. -/
def lines (cs : List Column) : Bytes :=
  let ls := between cs
  if ls.any id then
    Bytes.joinWith (utf8 " ") (ls.map fun l => utf8 (if l then "solid" else "none"))
  else []

end Column

end MathMarkup
