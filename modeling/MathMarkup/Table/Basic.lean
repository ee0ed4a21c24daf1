/-
MathMarkup/Table/Basic.lean

What commands stand for.  A table gives a name at most one definition; adding a
name again replaces it, whatever it was before.
-/
import MathMarkup.Dictionary
import MathMarkup.Number.Binary32

namespace MathMarkup

/-- The kinds of definitions. -/
inductive Category
  | function
  | operator
  | letter
  | space
  deriving DecidableEq, Repr, Inhabited

namespace Category

/-- The name of a category. -/
def name : Category → Bytes
  | .function => utf8 "function"
  | .operator => utf8 "operator"
  | .letter => utf8 "letter"
  | .space => utf8 "space"

/-- The category with a number; they count from one. -/
def ofNumber? : Int → Option Category
  | 1 => some .function
  | 2 => some .operator
  | 3 => some .letter
  | 4 => some .space
  | _ => none

/-- How a number is called as a category. -/
def nameOfNumber (n : Int) : Bytes :=
  match ofNumber? n with
  | some c => c.name
  | none => utf8 "Category(" ++ Bytes.ofInt n ++ utf8 ")"

end Category

/-- What a command stands for: a function of some name, the glyph of an operator
or letter, or a space of some width in em. -/
inductive Definition
  | function (text : Bytes)
  | operator (text : Bytes)
  | letter (text : Bytes)
  | space (width : Binary32)
  deriving DecidableEq, Repr, Inhabited

namespace Definition

/-- The kind of a definition. -/
def category : Definition → Category
  | .function _ => .function
  | .operator _ => .operator
  | .letter _ => .letter
  | .space _ => .space

/-- The text of a definition; a space has none. -/
def text : Definition → Bytes
  | .function s | .operator s | .letter s => s
  | .space _ => []

/-- The width of a definition; only a space has one. -/
def width : Definition → Binary32
  | .space w => w
  | _ => .zero

end Definition

/-- The definitions of commands, by their names without the backslash. -/
abbrev Table := Dictionary Definition

namespace Table

/-- A table without definitions. -/
def empty : Table :=
  Dictionary.empty

/-- The definition of a command. -/
def lookup (t : Table) (name : Bytes) : Option Definition :=
  t.find? name

/-- Defines a command as a function. -/
def addFunction (t : Table) (name text : Bytes) : Table :=
  t.insert name (.function text)

/-- Defines a command as an operator. -/
def addOperator (t : Table) (name text : Bytes) : Table :=
  t.insert name (.operator text)

/-- Defines a command as a letter. -/
def addLetter (t : Table) (name text : Bytes) : Table :=
  t.insert name (.letter text)

/-- Defines a command as a space. -/
def addSpace (t : Table) (name : Bytes) (width : Binary32) : Table :=
  t.insert name (.space width)

/-- The name of a function. -/
def function? (t : Table) (name : Bytes) : Option Bytes :=
  match t.lookup name with
  | some (.function s) => some s
  | _ => none

/-- The glyph of an operator. -/
def operator? (t : Table) (name : Bytes) : Option Bytes :=
  match t.lookup name with
  | some (.operator s) => some s
  | _ => none

/-- The glyph of a letter. -/
def letter? (t : Table) (name : Bytes) : Option Bytes :=
  match t.lookup name with
  | some (.letter s) => some s
  | _ => none

/-- The width of a space. -/
def space? (t : Table) (name : Bytes) : Option Binary32 :=
  match t.lookup name with
  | some (.space w) => some w
  | _ => none

/-- Visits definitions one after another, as long as `visit` asks for more. -/
def scanFrom {σ : Type} (visit : σ → Bytes → Definition → σ × Bool) :
    σ → List (Bytes × Definition) → σ
  | s, [] => s
  | s, (name, d) :: rest =>
    match visit s name d with
    | (s, true) => scanFrom visit s rest
    | (s, false) => s

/-- Visits the definitions in byte order of their names until `visit` asks for no
more. -/
def scan {σ : Type} (t : Table) (visit : σ → Bytes → Definition → σ × Bool) (s : σ) : σ :=
  scanFrom visit s t.entries

end Table

end MathMarkup
