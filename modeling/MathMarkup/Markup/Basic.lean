/-
MathMarkup/Markup/Basic.lean

Math markup as a tree: what a source means, before it is written as elements.
The cells of a table are one flat stream, in which a cell break ends a cell and
a line break ends a row; `rows` splits the stream, and `joinRows` puts it
together again.
-/
import MathMarkup.Number.Binary32
import MathMarkup.Variant

namespace MathMarkup

/-- Whether math stands in a line of text or in a block of its own. -/
inductive Display
  | inline
  | block
  deriving DecidableEq, Repr, Inhabited

/-- The bar of a fraction: there, or absent as in a binomial. -/
inductive Thickness
  | medium
  | zero
  deriving DecidableEq, Repr, Inhabited

/-- What is said of an operator besides its text; `size` is the height of a
sized delimiter, empty for others. -/
structure OperatorForm where
  fence : Bool := false
  separator : Bool := false
  largeOp : Bool := false
  stretchy : Bool := false
  size : Bytes := []
  deriving DecidableEq, Repr, Inhabited

/-- A math markup tree. -/
inductive Markup
  | missing
  | root (display : Display) (children : List Markup)
  /-- Siblings; `bracket` says that they were written in braces. -/
  | row (children : List Markup) (bracket : Bool)
  | identifier (text : Bytes) (variant : Variant)
  | number (text : Bytes)
  | operator (text : Bytes) (form : OperatorForm)
  | function (name : Bytes) (args : List Markup)
  /-- A horizontal space, its width in em. -/
  | space (width : Binary32)
  | text (text : Bytes)
  | superscript (base sup : Markup)
  | subscript (base sub : Markup)
  | subSup (base sub sup : Markup)
  | overscript (base above : Markup) (accent : Bool)
  | underscript (base below : Markup) (accent : Bool)
  | underOverscript (base below above : Markup) (accentUnder accentOver : Bool)
  /-- A root; its index is missing for a square root. -/
  | radical (base index : Markup)
  | fraction (numerator denominator : Markup) (thickness : Thickness)
  /-- Content between two delimiters, of which an empty one is invisible. -/
  | fenced (opening closing : Bytes) (content : Markup)
  | table (cells : List Markup) (align columnLines : Bytes)
  | styled (display : Display) (content : Markup)
  | lineBreak
  | cellBreak
  deriving Repr, Inhabited

namespace Markup

/-- Splits a stream of cells into rows of cells.  There is always a row, and
every row has a cell. -/
def rows : List Markup → List (List (List Markup))
  | [] => [[[]]]
  | n :: ns =>
    match n, rows ns with
    | .cellBreak, cells :: more => ([] :: cells) :: more
    | .lineBreak, more => [[]] :: more
    | n, (cell :: cells) :: more => ((n :: cell) :: cells) :: more
    | n, more => [[n]] :: more

/-- The stream of one row. -/
def joinCells : List (List Markup) → List Markup
  | [] => []
  | [cell] => cell
  | cell :: cells => cell ++ .cellBreak :: joinCells cells

/-- The stream of rows. -/
def joinRows : List (List (List Markup)) → List Markup
  | [] => []
  | [cells] => joinCells cells
  | cells :: more => joinCells cells ++ .lineBreak :: joinRows more

mutual

/-- The text of a tree: that of its identifiers, numbers, operators, functions
and texts, in order.  The index of a root comes before its base. -/
def plainText : Markup → Bytes
  | .missing | .space _ | .lineBreak | .cellBreak => []
  | .identifier s _ | .number s | .operator s _ | .text s => s
  | .function name args => name ++ plainTextAll args
  | .root _ children | .row children _ => plainTextAll children
  | .table cells _ _ => plainTextAll cells
  | .superscript base sup => base.plainText ++ sup.plainText
  | .subscript base sub => base.plainText ++ sub.plainText
  | .subSup base sub sup => base.plainText ++ sub.plainText ++ sup.plainText
  | .overscript base above _ => base.plainText ++ above.plainText
  | .underscript base below _ => base.plainText ++ below.plainText
  | .underOverscript base below above _ _ => base.plainText ++ below.plainText ++ above.plainText
  | .radical base index => index.plainText ++ base.plainText
  | .fraction numerator denominator _ => numerator.plainText ++ denominator.plainText
  | .fenced opening closing content => opening ++ content.plainText ++ closing
  | .styled _ content => content.plainText

/-- The text of several trees. -/
def plainTextAll : List Markup → Bytes
  | [] => []
  | n :: ns => n.plainText ++ plainTextAll ns

end

end Markup

end MathMarkup
