/-
MathMarkup/Compile.lean

Compiling sources: parsing and lowering in one, for one source or for several.
Of several sources all compile or none; the error tells the position of the
first source that fails.
-/
import MathMarkup.Lowering
import MathMarkup.Tree.Parser

namespace MathMarkup

/-- The markup of a source. -/
def compile (table : Table) (source : Bytes) : Except Error Markup :=
  match (parse source).tree with
  | .ok tree => lowerTree table tree
  | .error e => .error e

/-- The markup of sources that are counted from `index` on. -/
def compileFrom (table : Table) : (index : Nat) → List Bytes → Except Error (List Markup)
  | _, [] => .ok []
  | index, source :: sources =>
    match compile table source with
    | .error e => .error (.source index e)
    | .ok m =>
      match compileFrom table (index + 1) sources with
      | .error e => .error e
      | .ok ms => .ok (m :: ms)

/-- The markup of several sources, in their order. -/
def compileAll (table : Table) (sources : List Bytes) : Except Error (List Markup) :=
  compileFrom table 0 sources

/-- The markup of several sources, if this is not called off before it begins;
without sources there is nothing to call off. -/
def compileUnless (canceled : Bool) (table : Table) (sources : List Bytes) :
    Except Error (List Markup) :=
  if canceled && !sources.isEmpty then .error .canceled else compileAll table sources

/-- Markup to be shown as a block or in a line. -/
def Markup.withDisplay (display : Display) : Markup → Markup
  | .root _ children => .root display children
  | m => m

end MathMarkup
