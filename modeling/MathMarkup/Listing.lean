/-
MathMarkup/Listing.lean

Lines with cells in columns.  In a text, tabs end cells and line feeds end lines.
A column is as wide as its widest cell and two spaces more; the last cell of a line
belongs to no column.  Lines that have a column share its width only as long as
they follow each other, and a form feed, which ends a line as well, parts what
stands before it from what stands behind.

Widths count characters.
-/
import MathMarkup.Text.Utf8

namespace MathMarkup

namespace Listing

/-- A line as its cells. -/
abbrev Line := List Bytes

/-- How far apart columns stand at least. -/
def padding : Nat := 2

/-- A cell filled up with spaces to a width. -/
def fill (width : Nat) (cell : Bytes) : Bytes :=
  cell ++ List.replicate (width - runeCount cell) (ascii ' ')

/-- Whether a line has a first column. -/
def hasColumn (l : Line) : Bool :=
  2 ≤ l.length

/-- The width of the first column of lines that share it. -/
def columnWidth (ls : List Line) : Nat :=
  ls.foldl (fun w l => max w (runeCount (l.headD []) + padding)) 0

/-- The lines in front that have a first column, and those from the first one on
that has none. -/
def splitBlock (ls : List Line) : List Line × List Line :=
  (ls.takeWhile hasColumn, ls.dropWhile hasColumn)

/-- Lines with their columns aligned.  The bound is on the number of cells and
lines. -/
def align : Nat → List Line → List Bytes
  | 0, ls => ls.map List.flatten
  | _, [] => []
  | steps + 1, l :: ls =>
    if hasColumn l then
      let (block, rest) := splitBlock (l :: ls)
      let width := columnWidth block
      let behind := align steps (block.map List.tail)
      List.zipWith (fun l text => fill width (l.headD []) ++ text) block behind ++ align steps rest
    else l.flatten :: align steps ls

/-- A text as lines of cells. -/
def lines (s : Bytes) : List Line :=
  (Bytes.splitAt (ascii '\n') s).map fun l =>
    Bytes.splitAt (ascii '\t') (l.map fun b => if b == 0x0B then ascii '\t' else b)

/-- A text with its columns aligned. -/
def format (s : Bytes) : Bytes :=
  let sections := Bytes.splitAt 0x0C s
  Bytes.joinWith (utf8 "\n") (sections.map fun t =>
    Bytes.joinWith (utf8 "\n") (align (2 * t.length + 2) (lines t)))

end Listing

end MathMarkup
