/-
MathMarkup/Tree/Basic.lean

The tree of a source.  A node has a kind, a text, the token that introduced it,
parameters and children.  The type is loose on purpose: scripts keep their base
as first child followed by the scripts, commands their arguments, and nothing
here says how many there are; a node may even be missing.  Trees that come from
parsing are well formed, and lowering reports the ones that are not.
-/
import MathMarkup.Token.Basic

namespace MathMarkup

/-- The kinds of nodes. -/
inductive Kind
  | root
  | row
  | command
  | environment
  | letter
  | number
  | operator
  | text
  | superscript
  | subscript
  | subSup
  | underscript
  | overscript
  | underOverscript
  | lineBreak
  | cellBreak
  | unknown (number : Int)
  deriving DecidableEq, Repr, Inhabited

namespace Kind

/-- The known kinds, in the order of their numbers. -/
def known : List Kind :=
  [.root, .row, .command, .environment, .letter, .number, .operator, .text, .superscript,
    .subscript, .subSup, .underscript, .overscript, .underOverscript, .lineBreak, .cellBreak]

/-- The kind with a number. -/
def ofNumber (n : Int) : Kind :=
  if n < 0 then .unknown n else (known[n.toNat]?).getD (.unknown n)

/-- Whether the text of a node is its data. -/
def isLeaf : Kind → Bool
  | .letter | .number | .operator | .text => true
  | _ => false

end Kind

/-- The parameters of commands and environments. -/
structure Params where
  /-- Width of a space, as written. -/
  width : Option Bytes := none
  /-- Column specification of an array. -/
  columns : Option Bytes := none
  /-- Glyph of a sized or middle delimiter. -/
  delimiter : Option Bytes := none
  /-- Glyph on the left of a fence. -/
  opening : Option Bytes := none
  /-- Glyph on the right of a fence. -/
  closing : Option Bytes := none
  deriving DecidableEq, Repr, Inhabited

/-- A node of the tree of a source. -/
inductive Node
  | missing
  | mk (kind : Kind) (data : Bytes) (tag : Option Token) (params : Params)
      (children : List Node)
  deriving Repr, Inhabited

namespace Node

/-- A node without text, tag and parameters. -/
def branch (kind : Kind) (children : List Node) : Node :=
  .mk kind [] none {} children

/-- A node with a text. -/
def leaf (kind : Kind) (data : Bytes) (tag : Option Token) : Node :=
  .mk kind data tag {} []

/-- A command with its arguments. -/
def command (tag : Token) (args : List Node) : Node :=
  .mk .command [] (some tag) {} args

/-- What the data of a row says that was written in braces. -/
def braced : Bytes :=
  utf8 "\x7b\x7d"

/-- The row of a brace group. -/
def group (children : List Node) : Node :=
  .mk .row braced none {} children

/-- Nodes as one node: a single one is that node. -/
def collapse : List Node → Node
  | [n] => n
  | ns => group ns

/-- A node with the scripts it has. -/
def scripted (base : Node) (sub sup : Option Node) : Node :=
  match sub, sup with
  | some sub, some sup => .branch .subSup [base, sub, sup]
  | some sub, none => .branch .subscript [base, sub]
  | none, some sup => .branch .superscript [base, sup]
  | none, none => base

/-- A node with one script. -/
def attach (base : Node) (op : Script) (script : Node) : Node :=
  match op with
  | .sub => base.scripted (some script) none
  | .sup => base.scripted none (some script)

/-- A node with limits under and over it. -/
def stacked (base : Node) (below above : Option Node) : Node :=
  match below, above with
  | some below, some above => .branch .underOverscript [base, below, above]
  | some below, none => .branch .underscript [base, below]
  | none, some above => .branch .overscript [base, above]
  | none, none => base

/-- The glyph for a run of primes. -/
def primeGlyph : Nat → Bytes
  | 1 => utf8 "′"
  | 2 => utf8 "″"
  | 3 => utf8 "‴"
  | 4 => utf8 "⁗"
  | n => (List.replicate n (utf8 "′")).flatten

/-- The node of a run of primes. -/
def prime (count : Nat) : Node :=
  .leaf .operator (primeGlyph count) (some (.prime count))

/-- A node with primes. -/
def primed (base : Node) (count : Nat) : Node :=
  base.attach .sup (prime count)

/-! ### Text -/

mutual

/-- The texts of the leaves, in order. -/
def text : Node → Bytes
  | .missing => []
  | .mk kind data _ _ children => if kind.isLeaf then data else textAll children

/-- The texts of nodes, in order. -/
def textAll : List Node → Bytes
  | [] => []
  | n :: ns => n.text ++ textAll ns

end

mutual

/-- The text of a node made of leaves and rows only. -/
def plainText? : Node → Option Bytes
  | .missing => none
  | .mk kind data _ _ children =>
    if kind.isLeaf then some data
    else if kind = .row then plainTextAll? children
    else none

/-- The text of nodes made of leaves and rows only. -/
def plainTextAll? : List Node → Option Bytes
  | [] => some []
  | n :: ns =>
    match n.plainText?, plainTextAll? ns with
    | some s, some t => some (s ++ t)
    | _, _ => none

end

/-- Whether the node ends a line. -/
def isLineBreak : Node → Bool
  | .mk .lineBreak _ _ _ _ => true
  | _ => false

end Node

end MathMarkup
