/-
MathMarkup/Tree/Descent.lean

Parsing by recursive descent.  One function for each construct takes tokens from
a cursor, and where a construct may go on, looks at the next token first and
takes it only if it belongs there.

What comes next may also be the end of input or a fault of the source.  A
function that takes it reports a fault (`next`), and so does one that looks at
it in order to go on (`look`).  Where a part of a construct may be absent, a
fault is passed over as if nothing followed (`glance`), and the construct is
finished without the part.  The cursor keeps what it has found, so that a fault
is still there for the functions around.

Constructs stand in constructs.  A function that meets one inside its own has it
read by `inner`, a function that it is given; `atomic` puts the two together.  Each
construct inside another one and each turn of a loop takes a token, and a source
has no more tokens than bytes, so that its length bounds both.  Where the bound
would not be enough there is no result.
-/
import MathMarkup.Token.Cursor
import MathMarkup.Tree.Parser

namespace MathMarkup

/-- How far a descent has come: the cursor, and the warnings so far. -/
structure Descent.Progress where
  cursor : Cursor
  warnings : List Warning

/-- A part of a descent.  It may fail, and what it was warned about is kept then.  It has no
result if a bound is reached. -/
abbrev Descent := ExceptT Error (StateT Descent.Progress Option)

namespace Descent

/-- A bound is reached. -/
def unfinished {α : Type} : Descent α :=
  liftM (none : Option α)

/-! ### The cursor -/

/-- Takes what comes next. -/
def take : Descent Found :=
  modifyGet fun p => (p.cursor.take.1, { p with cursor := p.cursor.take.2 })

/-- Looks at what comes next. -/
def peek : Descent Found :=
  modifyGet fun p => (p.cursor.peek.1, { p with cursor := p.cursor.peek.2 })

/-- The offset of the token taken last. -/
def offset : Descent Nat :=
  return (← get).cursor.offset

/-- Takes the next token, if the input has not ended. -/
def next : Descent (Option Token) := do
  match ← take with
  | .token t => return some t
  | .finished => return none
  | .fault e => throw e

/-- Looks at the next token, if the input has not ended. -/
def look : Descent (Option Token) := do
  match ← peek with
  | .token t => return some t
  | .finished => return none
  | .fault e => throw e

/-- Looks for a token that may be absent.  A fault is not reported here. -/
def glance : Descent (Option Token) := do
  match ← peek with
  | .token t => return some t
  | .finished | .fault _ => return none

/-- Warns about the end of an environment that began under another name. -/
def warnAbout (name : Bytes) : Option Token → Descent Unit
  | some (.environmentEnd endName) =>
    if endName == name then return ()
    else modify fun p => { p with warnings := p.warnings ++ [⟨name, endName, p.cursor.offset⟩] }
  | _ => return ()

/-! ### Constructs without parts -/

/-- A node with the primes behind it. -/
def prime (n : Node) : Descent Node := do
  match ← look with
  | some (.prime count) =>
    let _ ← next
    return n.primed count
  | _ => return n

/-- The delimiter behind `\left`, `\right` or `\middle`. -/
def delimiter (side : Token) : Descent Bytes := do
  let t ← next
  match t.bind State.fenceGlyph? with
  | some glyph => return glyph
  | none => throw (State.noDelimiter side t (← offset))

/-- A sized delimiter. -/
def sized (tag : Token) : Descent Node := do
  match ← next with
  | some (.delimiter glyph) => return State.sizedNode tag glyph
  | t => throw (State.noSized t (← offset))

/-- A raw argument as a node. -/
def verbatim (kind data : Bytes) : Node :=
  let tag := some (.verbatim kind data)
  if kind == utf8 "hspace" then .mk .command kind tag { width := some data.trim } []
  else .leaf .text data tag

/-! ### Constructs with parts -/

section

variable (inner : Token → Descent Node)

/-- The operand of a script operator with its primes. -/
def operand (op : Script) : Descent Node := do
  match ← next with
  | none => throw (State.noOperand op none (← offset))
  | some t =>
    if t.isCloser then throw (State.noOperand op (some t) (← offset))
    else
      let arg ← inner t
      prime arg

/-- The argument of a script operator.  The same operator behind it nests into it. -/
def script : Nat → Script → Descent Node
  | 0, _ => unfinished
  | steps + 1, op => do
    let arg ← operand inner op
    if (← glance) = some (.script op) then
      let _ ← next
      let rest ← script steps op
      return arg.attach op rest
    else return arg

/-- A node with the scripts behind it.  Two of them that differ make a pair. -/
def scripts : Nat → Node → Descent Node
  | 0, _ => unfinished
  | steps + 1, base => do
    match ← look with
    | some (.script op) =>
      let _ ← next
      let first ← script inner steps op
      if (← glance) = some (.script op.other) then
        let _ ← next
        let second ← script inner steps op.other
        match op with
        | .sub => scripts steps (base.scripted (some first) (some second))
        | .sup => scripts steps (base.scripted (some second) (some first))
      else scripts steps (base.attach op first)
    | _ => return base

/-- The element that starts with a token, with the primes and scripts behind it. -/
def node (steps : Nat) (t : Token) : Descent Node := do
  let base ← inner t
  let base ← prime base
  scripts inner steps base

/-- The elements of a row behind those that are done, up to the token that ends it, which is
given too.  Without an enclosure the row ends with the input. -/
def row (e : Option Enclosure) : Nat → List Node → Descent (List Node × Option Token)
  | 0, _ => unfinished
  | steps + 1, done => do
    match ← next with
    | none =>
      match e with
      | none => return (done, none)
      | some e => throw (.unexpected e.closer endOfInput (← offset))
    | some t =>
      if e.any (·.closedBy t) then return (done, some t)
      else
        let n ← node inner steps t
        row e steps (done ++ [n])

/-- The nodes of an enclosure as one node. -/
def group (steps : Nat) (e : Enclosure) : Descent Node := do
  let (children, _) ← row inner (some e) steps []
  return .collapse children

/-- An argument of a command; nothing if the construct around or the input ends. -/
def parameter : Descent (Option Node) := do
  match ← look with
  | none => return none
  | some t =>
    if t.isCloser then return none
    else
      let _ ← next
      let arg ← inner t
      return some arg

/-- Arguments and the brace groups behind them. -/
def groups : Nat → List Node → Descent (List Node)
  | 0, _ => unfinished
  | steps + 1, args => do
    if (← glance) = some .groupBegin then
      let _ ← next
      let arg ← group inner steps .group
      groups steps (args ++ [arg])
    else return args

/-- The column specification of an environment. -/
def columns (steps : Nat) (name : Bytes) : Descent Bytes := do
  match ← next with
  | some .groupBegin =>
    let n ← group inner steps (.columns name)
    match n.plainText? with
    | some text => return text
    | none => throw .columnSpecification
  | t => throw (State.noColumns t (← offset))

/-- What stands in an environment, up to its end. -/
def content (steps : Nat) (name : Bytes) (columns : Option Bytes) : Descent Node := do
  let (children, last) ← row inner (some (.environment name columns)) steps []
  warnAbout name last
  return .mk .environment name (some (.environmentBegin name)) { columns := columns } children

/-- An environment.  Its rows and cells stay flat. -/
def environment (steps : Nat) (name : Bytes) : Descent Node := do
  if name == utf8 "array" then
    let specification ← columns inner steps name
    content inner steps name (some specification)
  else content inner steps name none

/-- A command with two arguments and brace groups. -/
def fraction (steps : Nat) (t : Token) : Descent Node := do
  match ← parameter inner with
  | none => return .command t []
  | some numerator =>
    match ← parameter inner with
    | none => return .command t [numerator]
    | some denominator =>
      let args ← groups inner steps [numerator, denominator]
      return .command t args

/-- The base of a radical.  Without it the index is lost. -/
def radicand (index : Option Node) : Descent Node := do
  match ← parameter inner with
  | none => return .command .radical []
  | some base => return .command .radical (base :: index.toList)

/-- A radical with its base, and its index if there is one. -/
def radical (steps : Nat) : Descent Node := do
  if (← glance) = some (.delimiter (utf8 "[")) then
    let _ ← next
    let index ← group inner steps .index
    radicand inner (some index)
  else radicand inner none

/-- A command with one argument. -/
def unary (t : Token) : Descent Node := do
  let arg ← parameter inner
  return .command t arg.toList

/-- A command with two arguments. -/
def binary (t : Token) : Descent Node := do
  match ← parameter inner with
  | none => return .command t []
  | some first =>
    let second ← parameter inner
    return .command t (first :: second.toList)

/-- A brace with its argument, and its label behind a script operator. -/
def brace (t : Token) (op : Script) : Descent Node := do
  match ← parameter inner with
  | none => return .command t []
  | some arg =>
    if (← glance) = some (.script op) then
      let _ ← next
      let label ← operand inner op
      return .command t [arg, label]
    else return .command t [arg]

/-- An operator with the limits it has so far and those behind it. -/
def limits : Nat → Limits → Descent Node
  | 0, _ => unfinished
  | steps + 1, l =>
    if l.isFull then return l.node
    else do
      match ← glance with
      | some (.command name) =>
        if name == utf8 "limits" then
          let _ ← next
          limits steps { l with isStacked := true }
        else if name == utf8 "nolimits" then
          let _ ← next
          limits steps { l with isStacked := false }
        else return l.node
      | some (.script op) =>
        if l.has op then return l.node
        else
          let _ ← next
          let n ← operand inner op
          limits steps (l.set op n)
      | _ => return l.node

/-- A fence with its delimiters. -/
def fence (steps : Nat) : Descent Node := do
  let opening ← delimiter .left
  let (children, _) ← row inner (some (.fence opening)) steps []
  let closing ← delimiter .right
  return State.fenceNode opening closing children

/-- A function name with brace groups. -/
def operatorName (steps : Nat) : Descent Node := do
  match ← parameter inner with
  | none => return .command .operatorName []
  | some name =>
    let args ← groups inner steps [name]
    return .command .operatorName args

/-- The construct that starts with a token. -/
def construct (steps : Nat) (t : Token) : Descent Node :=
  match t with
  | .letter text => return .leaf .letter text none
  | .number text => return .leaf .number text none
  | .operator text => return .leaf .operator text (some t)
  | .delimiter glyph => return .leaf .operator glyph (some t)
  | .prime count => return .prime count
  | .cellBreak => return .leaf .cellBreak [] none
  | .lineBreak => return .leaf .lineBreak [] none
  | .groupBegin => group inner steps .group
  | .script op => do
    -- A script without a base.
    let n ← script inner steps op
    return (Node.group []).attach op n
  | .verbatim kind data => return verbatim kind data
  | .command name => return .leaf .command name (some t)
  | .environmentBegin name => environment inner steps name
  | .fraction _ | .binomial _ => fraction inner steps t
  | .radical => radical inner steps
  | .markOver _ _ | .markUnder _ _ | .style _ | .slashed => unary inner t
  | .overset | .underset => binary inner t
  | .overbrace _ => brace inner t .sup
  | .underbrace _ => brace inner t .sub
  | .bigOperator _ | .integral _ | .limit _ => limits inner steps (.start t)
  | .big _ => sized t
  | .left => fence inner steps
  | .middle => do
    let glyph ← delimiter .middle
    return State.sizedNode .middle glyph
  | .operatorName => operatorName inner steps
  | .groupEnd | .environmentEnd _ | .right => do
    throw (.unexpected (utf8 "expression") t.describe (← offset))

end

/-- The construct that starts with a token, up to a depth. -/
def atomic : Nat → Token → Descent Node
  | 0, _ => unfinished
  | depth + 1, t => construct (atomic depth) depth t

/-- Parses a source. -/
def parse (source : Bytes) : Option Parsed :=
  let bound := source.length + 1
  ((row (atomic bound) none bound []).run.run ⟨.start source, []⟩).map fun (result, p) =>
    ⟨p.warnings, result.map fun (children, _) => .branch .root children⟩

end Descent

end MathMarkup
