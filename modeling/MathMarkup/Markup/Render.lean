/-
MathMarkup/Markup/Render.lean

Writing markup as MathML elements.  The writer is a list of pieces, each of
them handed over as a whole, so that writing to something with limited room is
a matter of how many pieces fit (`renderWithin`); a text is all pieces put
together (`render`).
-/
import MathMarkup.Markup.Basic
import MathMarkup.Text.Cluster

namespace MathMarkup

/-- A byte of text as it stands between tags. -/
def escapeByte (b : UInt8) : Bytes :=
  if b == ascii '&' then utf8 "&amp;"
  else if b == ascii '<' then utf8 "&lt;"
  else if b == ascii '>' then utf8 "&gt;"
  else if b == ascii '"' then utf8 "&quot;"
  else [b]

/-- Text as it stands between tags. -/
def escapeText (s : Bytes) : Bytes :=
  s.flatMap escapeByte

namespace Markup

/-! ### Attributes -/

/-- An attribute, with a blank in front. -/
def attr (name : String) (value : Bytes) : Bytes :=
  utf8 " " ++ utf8 name ++ utf8 "=\"" ++ value ++ utf8 "\""

/-- An attribute that is there or not. -/
def flag (name : String) (value : Bool) : Bytes :=
  if value then attr name (utf8 "true") else []

/-- The variant of an identifier, left out where it is the default: italic for a
single character, normal for longer names. -/
def variantAttribute (text : Bytes) (v : Variant) : Bytes :=
  if v = (if Cluster.count text = 1 then .italic else .normal) then []
  else attr "mathvariant" v.name

/-- The attributes of an operator. -/
def operatorAttributes (f : OperatorForm) : Bytes :=
  flag "fence" f.fence ++ flag "separator" f.separator ++ flag "largeop" f.largeOp
    ++ flag "stretchy" f.stretchy
    ++ if f.size.isEmpty then [] else attr "maxsize" f.size ++ attr "minsize" f.size

/-- The attributes of a table; columns are centred unless said otherwise. -/
def tableAttributes (align columnLines : Bytes) : Bytes :=
  (if align.isEmpty || align == utf8 "center" then [] else attr "columnalign" align)
    ++ if columnLines.isEmpty then [] else attr "columnlines" columnLines

/-- The attribute of a fraction without a bar. -/
def thicknessAttribute : Thickness → Bytes
  | .zero => attr "linethickness" (utf8 "0")
  | .medium => []

/-- The attributes of the outermost element. -/
def rootAttributes (display : Display) : Bytes :=
  attr "xmlns" (utf8 "http://www.w3.org/1998/Math/MathML")
    ++ if display = .block then attr "display" (utf8 "block") else []

/-! ### Elements -/

/-- A start tag. -/
def startTag (name : String) (attributes : Bytes) : Bytes :=
  utf8 "<" ++ utf8 name ++ attributes ++ utf8 ">"

/-- An end tag. -/
def endTag (name : String) : Bytes :=
  utf8 "</" ++ utf8 name ++ utf8 ">"

/-- An element without content. -/
def emptyTag (name : String) (attributes : Bytes) : Bytes :=
  utf8 "<" ++ utf8 name ++ attributes ++ utf8 "/>"

/-- An element around pieces. -/
def wrap (name : String) (attributes : Bytes) (content : List Bytes) : List Bytes :=
  startTag name attributes :: (content ++ [endTag name])

/-- An element around text, all one piece. -/
def textElement (name : String) (attributes text : Bytes) : Bytes :=
  startTag name attributes ++ escapeText text ++ endTag name

/-- The operator that stands for the application of a function. -/
def applyFunction : Bytes :=
  utf8 "<mo>&#x2061;</mo>"

/-- A delimiter of a fence. -/
def fenceOperator (form : String) (glyph : Bytes) : Bytes :=
  textElement "mo" (flag "stretchy" true ++ attr "form" (utf8 form)) glyph

mutual

/-- The pieces of a tree, in order. -/
def pieces : Markup → List Bytes
  | .missing | .cellBreak => []
  | .root display children => wrap "math" (rootAttributes display) (piecesAll children)
  | .row children _ => wrap "mrow" [] (piecesAll children)
  | .identifier s v => [textElement "mi" (variantAttribute s v) s]
  | .number s => [textElement "mn" [] s]
  | .operator s form => [textElement "mo" (operatorAttributes form) s]
  | .text s => [textElement "mtext" [] s]
  | .space width => [emptyTag "mspace" (attr "width" (width.text ++ utf8 "em"))]
  | .lineBreak => [emptyTag "mspace" (attr "linebreak" (utf8 "newline"))]
  | .function name args =>
    textElement "mi" [] name ::
      match args with
      | [] => []
      | [arg] => applyFunction :: arg.pieces
      | args => applyFunction :: wrap "mrow" [] (piecesAll args)
  | .superscript base sup => wrap "msup" [] (base.pieces ++ sup.pieces)
  | .subscript base sub => wrap "msub" [] (base.pieces ++ sub.pieces)
  | .subSup base sub sup => wrap "msubsup" [] (base.pieces ++ sub.pieces ++ sup.pieces)
  | .overscript base above accent =>
    wrap "mover" (flag "accent" accent) (base.pieces ++ above.pieces)
  | .underscript base below accent =>
    wrap "munder" (flag "accentunder" accent) (base.pieces ++ below.pieces)
  | .underOverscript base below above accentUnder accentOver =>
    wrap "munderover" (flag "accentunder" accentUnder ++ flag "accent" accentOver)
      (base.pieces ++ below.pieces ++ above.pieces)
  | .radical base .missing => wrap "msqrt" [] base.pieces
  | .radical base index => wrap "mroot" [] (base.pieces ++ index.pieces)
  | .fraction numerator denominator thickness =>
    wrap "mfrac" (thicknessAttribute thickness) (numerator.pieces ++ denominator.pieces)
  | .fenced opening closing content =>
    (startTag "mrow" [] ++ fenceOperator "prefix" opening) ::
      (content.pieces ++ [fenceOperator "postfix" closing ++ endTag "mrow"])
  | .table cells align columnLines =>
    startTag "mtable" (tableAttributes align columnLines) :: startTag "mtr" [] :: startTag "mtd" []
      :: (piecesOfCells cells ++ [endTag "mtd", endTag "mtr", endTag "mtable"])
  | .styled display content =>
    wrap "mstyle" (attr "displaystyle" (utf8 (if display = .block then "true" else "false")))
      content.pieces

/-- The pieces of several trees. -/
def piecesAll : List Markup → List Bytes
  | [] => []
  | n :: ns => n.pieces ++ piecesAll ns

/-- The pieces of a stream of cells inside its first cell: a cell break goes on
to the next cell, a line break to the first cell of the next row. -/
def piecesOfCells : List Markup → List Bytes
  | [] => []
  | .cellBreak :: ns => endTag "mtd" :: startTag "mtd" [] :: piecesOfCells ns
  | .lineBreak :: ns =>
    endTag "mtd" :: endTag "mtr" :: startTag "mtr" [] :: startTag "mtd" [] :: piecesOfCells ns
  | n :: ns => n.pieces ++ piecesOfCells ns

end

/-- A tree as MathML. -/
def render (m : Markup) : Bytes :=
  m.pieces.flatten

/-! ### Limited room -/

/-- Hands pieces over until one does not fit into the room that is left: all
that was taken, and whether it was everything. -/
def takeWithin : (room : Nat) → List Bytes → Bytes × Bool
  | _, [] => ([], true)
  | room, p :: ps =>
    if p.length ≤ room then
      let (taken, all) := takeWithin (room - p.length) ps
      (p ++ taken, all)
    else ([], false)

/-- A tree as MathML with room for so many bytes: what was taken, and whether it
was all of it. -/
def renderWithin (room : Nat) (m : Markup) : Bytes × Bool :=
  takeWithin room m.pieces

end Markup

end MathMarkup
