/-
MathMarkup/Lowering.lean

From the tree of a source to markup.  Commands without a structure of their own
are looked up in a table.  A style switch sets the variant of the identifiers
below it, and the innermost one wins.

Lowering goes through a tree from the top down and from left to right, and its
error is the first one that it meets: a construct is checked before its
children.
-/
import MathMarkup.Column
import MathMarkup.Error
import MathMarkup.Markup.Basic
import MathMarkup.Table.Basic
import MathMarkup.Tree.Basic

namespace MathMarkup

namespace Lowering

/-! ### Constructs -/

/-- What a command that is not structural stands for. -/
def resolve (table : Table) (variant : Variant) (name : Bytes) : Except Error Markup :=
  match table.lookup name with
  | none => .error (.unknownCommand name)
  | some (.function text) => .ok (.function text [])
  | some (.operator text) => .ok (.operator text {})
  | some (.letter text) => .ok (.identifier text variant)
  | some (.space width) => .ok (.space width)

/-- A space of a written width. -/
def hspace (width : Bytes) : Except Error Markup :=
  match Measure.parseEm width with
  | .ok em => .ok (.space em)
  | .error cause => .error (.spaceWidth width cause)

/-- The error of a command with a wrong number of arguments. -/
def arity (command : Bytes) (want : Nat) (args : List Node) : Error :=
  .arity command want args.length

/-- Whether a fraction is a binomial, by the name of its command. -/
def isBinomial (kind : Bytes) : Bool :=
  kind == utf8 "binom" || kind == utf8 "dbinom" || kind == utf8 "tbinom"

/-- The style in which a fraction is set whatever is around it, by the name of
its command. -/
def fractionDisplay? (kind : Bytes) : Option Display :=
  if kind == utf8 "dfrac" || kind == utf8 "dbinom" then some .block
  else if kind == utf8 "tfrac" || kind == utf8 "tbinom" then some .inline
  else none

/-- A fraction or binomial. -/
def fractionOf (kind : Bytes) (numerator denominator : Markup) : Markup :=
  let plain :=
    if isBinomial kind then
      .fenced (utf8 "(") (utf8 ")") (.fraction numerator denominator .zero)
    else .fraction numerator denominator .medium
  match fractionDisplay? kind with
  | some display => .styled display plain
  | none => plain

/-- A fraction with its arguments; those after the second follow it in a row. -/
def fraction (kind : Bytes) : List Markup → Except Error Markup
  | [numerator, denominator] => .ok (fractionOf kind numerator denominator)
  | numerator :: denominator :: more =>
    .ok (.row (fractionOf kind numerator denominator :: more) false)
  | _ => .error .missingNode

/-- A root of its arguments, base and index. -/
def radical : List Markup → Except Error Markup
  | [base] => .ok (.radical base .missing)
  | base :: index :: _ => .ok (.radical base index)
  | [] => .error .missingNode

/-- A brace over its first argument; with two arguments the second is a label on
the brace. -/
def overbrace (glyph : Bytes) : List Markup → Except Error Markup
  | [] => .error .missingNode
  | [base, label] =>
    .ok (.overscript base (.overscript (.operator glyph { stretchy := true }) label false) true)
  | base :: _ => .ok (.overscript base (.operator glyph { stretchy := true }) true)

/-- A brace under its first argument; with two arguments the second is a label
on the brace. -/
def underbrace (glyph : Bytes) : List Markup → Except Error Markup
  | [] => .error .missingNode
  | [base, label] =>
    .ok (.underscript base (.underscript (.operator glyph { stretchy := true }) label false) true)
  | base :: _ => .ok (.underscript base (.operator glyph { stretchy := true }) true)

/-- The mark that a slash puts over the character before it. -/
def slash : Bytes :=
  utf8 "̸"

/-- An identifier or operator with a slash through it; other markup stays. -/
def slashed : Markup → Markup
  | .identifier text variant => .identifier (text ++ slash) variant
  | .operator text form => .operator (text ++ slash) form
  | m => m

/-- Scripts and limits on the first of the children. -/
def scripts : Kind → List Markup → Except Error Markup
  | .superscript, base :: sup :: _ => .ok (.superscript base sup)
  | .subscript, base :: sub :: _ => .ok (.subscript base sub)
  | .subSup, base :: sub :: sup :: _ => .ok (.subSup base sub sup)
  | .underscript, base :: below :: _ => .ok (.underscript base below false)
  | .overscript, base :: above :: _ => .ok (.overscript base above false)
  | .underOverscript, base :: below :: above :: _ =>
    .ok (.underOverscript base below above false false)
  | _, _ => .error .missingNode

/-! ### Environments -/

/-- What an environment looks like. -/
inductive Environment
  /-- A table with centred columns. -/
  | plain
  /-- A table with centred columns in the style of running text. -/
  | small
  /-- A table with columns on the left. -/
  | aligned
  /-- A table whose columns are specified. -/
  | array
  /-- A table with centred columns between delimiters. -/
  | fenced (opening closing : Bytes)
  /-- A table with columns on the left behind a brace. -/
  | cases

/-- The environments there are. -/
def environment? (name : Bytes) : Option Environment :=
  let known : List (Bytes × Environment) :=
    [(utf8 "matrix", .plain), (utf8 "smallmatrix", .small), (utf8 "align", .aligned),
      (utf8 "align*", .aligned), (utf8 "aligned", .aligned), (utf8 "array", .array),
      (utf8 "pmatrix", .fenced (utf8 "(") (utf8 ")")),
      (utf8 "bmatrix", .fenced (utf8 "[") (utf8 "]")),
      (utf8 "Bmatrix", .fenced (utf8 "\x7b") (utf8 "\x7d")),
      (utf8 "vmatrix", .fenced (utf8 "|") (utf8 "|")),
      (utf8 "Vmatrix", .fenced (utf8 "‖") (utf8 "‖")), (utf8 "cases", .cases)]
  known.lookup name

/-- The cells of an environment: a line break at the very end starts no row. -/
def cells (content : List Node) (lowered : List Markup) : List Markup :=
  match content.getLast? with
  | some n => if n.isLineBreak then lowered.dropLast else lowered
  | none => lowered

/-- An environment around its cells. -/
def Environment.markup (e : Environment) (columns : Bytes) (cells : List Markup) : Markup :=
  let center := utf8 "center"
  let left := utf8 "left"
  match e with
  | .plain => .table cells center []
  | .small => .styled .inline (.table cells center [])
  | .aligned => .table cells left []
  | .array =>
    match Column.parse columns with
    | [] => .table cells center []
    | cs => .table cells (Column.alignment cs) (Column.lines cs)
  | .fenced opening closing => .fenced opening closing (.table cells center [])
  | .cases => .fenced (utf8 "\x7b") [] (.table cells left [])

/-! ### Commands -/

/-- The markup of a row: a single element stands for itself. -/
def rowOf : List Markup → Markup
  | [m] => m
  | ms => .row ms false

/-- The markup of one argument. -/
def one : List Markup → Except Error Markup
  | [m] => .ok m
  | _ => .error .missingNode

/-- The markup of two arguments. -/
def two : List Markup → Except Error (Markup × Markup)
  | [m, n] => .ok (m, n)
  | _ => .error .missingNode

/-- The markup of a command, by the token that introduced it.  Its arguments are
counted before they are lowered; `all` lowers them in some variant, `rest` all
but the first. -/
def command (table : Table) (variant : Variant) (tag : Option Token) (params : Params)
    (args : List Node) (all rest : Variant → Except Error (List Markup)) : Except Error Markup :=
  match tag with
  | some (.command name) => resolve table variant name
  | some (.verbatim _ _) => hspace (params.width.getD [])
  | some (.fraction kind) | some (.binomial kind) =>
    if args.length < 2 then .error (arity (utf8 "\\" ++ kind) 2 args)
    else do fraction kind (← all variant)
  | some .radical =>
    if args.isEmpty then .error (arity Token.radical.describe 1 args)
    else do radical (← all variant)
  | some (.markOver glyph accent) =>
    if args.length ≠ 1 then .error (arity (utf8 "accent " ++ glyph) 1 args)
    else do return .overscript (← one (← all variant)) (.operator glyph {}) accent
  | some (.markUnder glyph accent) =>
    if args.length ≠ 1 then .error (arity (utf8 "accent " ++ glyph) 1 args)
    else do return .underscript (← one (← all variant)) (.operator glyph {}) accent
  | some .overset =>
    if args.length ≠ 2 then .error (arity Token.overset.describe 2 args)
    else do
      let (script, base) ← two (← all variant)
      return .overscript base script false
  | some .underset =>
    if args.length ≠ 2 then .error (arity Token.underset.describe 2 args)
    else do
      let (script, base) ← two (← all variant)
      return .underscript base script false
  | some (.overbrace glyph) =>
    if args.isEmpty then .error (arity (Token.overbrace glyph).describe 1 args)
    else do overbrace glyph (← all variant)
  | some (.underbrace glyph) =>
    if args.isEmpty then .error (arity (Token.underbrace glyph).describe 1 args)
    else do underbrace glyph (← all variant)
  | some (.bigOperator glyph) | some (.integral glyph) =>
    .ok (.operator glyph { largeOp := true })
  | some (.limit name) => .ok (.function name [])
  | some (.big size) =>
    .ok (.operator (params.delimiter.getD []) { stretchy := true, size := size })
  | some (.style v) =>
    if args.length ≠ 1 then .error (arity (Token.style v).describe 1 args)
    else do one (← all v)
  | some .left => do
    return .fenced (params.opening.getD []) (params.closing.getD []) (rowOf (← all variant))
  | some .middle => .ok (.operator (params.delimiter.getD []) { stretchy := true })
  | some .operatorName =>
    match args with
    | [] => .error (arity Token.operatorName.describe 1 args)
    | name :: _ => do return .function (name.plainText?.getD []) (← rest variant)
  | some .slashed =>
    if args.length ≠ 1 then .error (arity Token.slashed.describe 1 args)
    else do return slashed (← one (← all variant))
  | tag => .error (.notACommand tag)

/-- What an operator says of itself: a delimiter is a fence, a comma
separates. -/
def operatorForm (tag : Option Token) : OperatorForm where
  fence := match tag with | some (.delimiter _) => true | _ => false
  separator := tag == some (.operator (utf8 ","))

/-! ### Trees -/

mutual

/-- The markup of a node, in the variant set by the style switches around it. -/
def lower (table : Table) (variant : Variant) : Node → Except Error Markup
  | .missing => .error .missingNode
  | .mk kind data tag params children =>
    match kind with
    | .root | .row => do return .row (← lowerAll table variant children) (data == Node.braced)
    | .letter => .ok (.identifier data variant)
    | .number => .ok (.number data)
    | .operator => .ok (.operator data (operatorForm tag))
    | .text => .ok (.text data)
    | .lineBreak => .ok .lineBreak
    | .cellBreak => .ok .cellBreak
    | .superscript | .subscript | .subSup | .underscript | .overscript | .underOverscript => do
      scripts kind (← lowerAll table variant children)
    | .command =>
      command table variant tag params children (fun v => lowerAll table v children)
        (fun v => lowerRest table v children)
    | .environment =>
      match environment? data with
      | none => .error (.unknownEnvironment data)
      | some e => do
        let markup ← lowerAll table variant children
        return e.markup (params.columns.getD []) (cells children markup)
    | .unknown number => .error (.unknownKind number)
termination_by structural n => n

/-- The markup of nodes, in order. -/
def lowerAll (table : Table) (variant : Variant) : List Node → Except Error (List Markup)
  | [] => .ok []
  | n :: ns => do
    let m ← lower table variant n
    let ms ← lowerAll table variant ns
    return m :: ms
termination_by structural ns => ns

/-- The markup of nodes without the first. -/
def lowerRest (table : Table) (variant : Variant) : List Node → Except Error (List Markup)
  | [] => .ok []
  | _ :: ns => lowerAll table variant ns
termination_by structural ns => ns

end

end Lowering

/-- The markup of a tree: its children under one root.  Identifiers are italic
unless a style switch says otherwise. -/
def lowerTree (table : Table) : Node → Except Error Markup
  | .missing => .error .missingNode
  | .mk _ _ _ _ children => do
    return .root .inline (← Lowering.lowerAll table .italic children)

end MathMarkup
