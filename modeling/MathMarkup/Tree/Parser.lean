/-
MathMarkup/Tree/Parser.lean

Parsing: a source's tokens, one after another, drive a state to the tree.

The state knows the rows that are open around the current place (`Rows`), the
constructs that were begun in the innermost row and wait for a node
(`List Frame`), and what is expected at the place itself (`Focus`).  A node
that has just been read stays in focus until the next token is known, since
that token may extend it: a prime, a script, a further argument.  `feed` offers
the node and the token to the waiting frames from the inside out.  A frame that
has a use for the token takes it (`Frame.shift`); otherwise it closes over the
node (`Frame.close`), and the result goes to the frame around it.  A node that
no frame holds back is an element of the innermost row.

No step looks further than one token, an error is raised by the token it is
about, and the end of input only closes what is open.  So the state after some
tokens does not depend on what follows them.
-/
import MathMarkup.Text.Blank
import MathMarkup.Token.Lexer
import MathMarkup.Tree.Basic

namespace MathMarkup

/-! ### Commands and their arguments -/

namespace Token

/-- How many arguments a command has for certain. -/
def arity : Token → Nat
  | .fraction _ | .binomial _ | .overset | .underset => 2
  | _ => 1

end Token

/-- What may follow the arguments that a command has for certain. -/
inductive Extra
  | none
  /-- Brace groups, each one more argument. -/
  | groups
  /-- A label behind a script operator. -/
  | label (op : Script)

/-- What may follow the arguments of a command. -/
def Token.extra : Token → Extra
  | .fraction _ | .binomial _ | .operatorName => .groups
  | .overbrace _ => .label .sup
  | .underbrace _ => .label .sub
  | _ => .none

/-- A command with the arguments it has so far; a radical may have an index. -/
structure Application where
  tag : Token
  args : List Node
  index : Option Node

namespace Application

/-- A command without arguments. -/
def start (tag : Token) : Application :=
  ⟨tag, [], none⟩

/-- One more argument. -/
def push (a : Application) (arg : Node) : Application :=
  { a with args := a.args ++ [arg] }

/-- The node of a command with no further arguments.  An index without a base is
lost. -/
def node (a : Application) : Node :=
  if a.args.isEmpty then .command a.tag []
  else .command a.tag (a.args ++ a.index.toList)

end Application

/-! ### Limits -/

/-- A large operator or function with the limits it has so far, placed under and
over it or as scripts. -/
structure Limits where
  tag : Token
  isStacked : Bool
  sub : Option Node
  sup : Option Node

namespace Limits

/-- An operator without limits; those of an integral are scripts. -/
def start (tag : Token) : Limits :=
  ⟨tag, match tag with | .integral _ => false | _ => true, none, none⟩

/-- Whether there is a limit for a script operator. -/
def has (l : Limits) : Script → Bool
  | .sub => l.sub.isSome
  | .sup => l.sup.isSome

/-- Sets the limit for a script operator. -/
def set (l : Limits) (op : Script) (n : Node) : Limits :=
  match op with
  | .sub => { l with sub := some n }
  | .sup => { l with sup := some n }

/-- Whether both limits are set. -/
def isFull (l : Limits) : Bool :=
  l.sub.isSome && l.sup.isSome

/-- The operator with its limits. -/
def node (l : Limits) : Node :=
  let name := match l.tag with | .limit name => name | _ => []
  let base := Node.mk .command name (some l.tag) {} []
  if l.isStacked then base.stacked l.sub l.sup else base.scripted l.sub l.sup

end Limits

/-! ### States -/

/-- A construct that waits for a node. -/
inductive Frame
  /-- The node may have primes. -/
  | prime
  /-- The node may have scripts. -/
  | scripts
  /-- The node is the first script of a base. -/
  | first (base : Node) (op : Script)
  /-- The node is the script that goes with the first one. -/
  | second (base : Node) (op : Script) (script : Node)
  /-- The node is an operand, behind which its operator may be repeated. -/
  | chain (op : Script)
  /-- The node is the only script of a base. -/
  | nest (base : Node) (op : Script)
  /-- The node is the index of a radical. -/
  | index
  /-- The node is the next argument of a command. -/
  | argument (a : Application)
  /-- The node is a limit. -/
  | limit (op : Script) (l : Limits)

/-- What encloses a row. -/
inductive Enclosure
  | group
  | index
  /-- The column specification in front of an environment's content. -/
  | columns (name : Bytes)
  | environment (name : Bytes) (columns : Option Bytes)
  | fence (opening : Bytes)

namespace Enclosure

/-- Whether a token ends the row. -/
def closedBy : Enclosure → Token → Bool
  | .group, .groupEnd | .columns _, .groupEnd => true
  | .index, .delimiter glyph => glyph == utf8 "]"
  | .environment _ _, .environmentEnd _ => true
  | .fence _, .right => true
  | _, _ => false

/-- How messages call the token that ends the row. -/
def closer : Enclosure → Bytes
  | .group | .columns _ => Token.groupEnd.describe
  | .index => (Token.delimiter (utf8 "]")).describe
  | .environment name _ => (Token.environmentEnd name).describe
  | .fence _ => Token.right.describe

end Enclosure

/-- The open rows, each with its finished elements: the innermost one and what
encloses it, the frames that wait outside for the row, and the rows around. -/
inductive Rows
  | root (done : List Node)
  | inner (e : Enclosure) (done : List Node) (waiting : List Frame) (outer : Rows)

/-- Adds an element to the innermost row. -/
def Rows.push : Rows → Node → Rows
  | .root done, n => .root (done ++ [n])
  | .inner e done waiting outer, n => .inner e (done ++ [n]) waiting outer

/-- What is expected next. -/
inductive Focus
  /-- Whatever follows a node just read. -/
  | value (n : Node)
  /-- An element of the innermost row, or its end. -/
  | element
  /-- The operand of a script operator. -/
  | operand (op : Script)
  /-- An argument, if there is one. -/
  | argument (a : Application)
  /-- The index or the base of a radical. -/
  | radical
  /-- Limits, or a switch between their places. -/
  | limits (l : Limits)
  /-- The column specification of an environment. -/
  | columns (name : Bytes)
  /-- The delimiter of a sizing command. -/
  | sized (tag : Token)
  /-- The delimiter behind `\left`. -/
  | opening
  /-- The delimiter behind `\right`, which ends a fence with this content. -/
  | closing (opening : Bytes) (content : List Node)
  /-- The delimiter behind `\middle`. -/
  | middle

/-- An environment that ends under another name than it began with. -/
structure Warning where
  beginName : Bytes
  endName : Bytes
  offset : Nat
  deriving DecidableEq, Repr

/-- A state of parsing. -/
structure State where
  focus : Focus
  waiting : List Frame
  rows : Rows
  warnings : List Warning

/-- How a token moves a state on: another focus in the same row, with the frames
that now wait there, or a row inside it. -/
inductive Move
  | focus (f : Focus) (waiting : List Frame)
  | enclose (e : Enclosure) (waiting : List Frame)

/-! ### Beginning a construct -/

/-- What a token begins, with `waiting` to receive the node; nothing if it ends
the construct around it. -/
def Token.begin? (t : Token) (waiting : List Frame) : Option Move :=
  let leaf (kind : Kind) (data : Bytes) (tag : Option Token) : Option Move :=
    some (.focus (.value (.leaf kind data tag)) waiting)
  match t with
  | .letter text => leaf .letter text none
  | .number text => leaf .number text none
  | .operator text => leaf .operator text (some t)
  | .delimiter glyph => leaf .operator glyph (some t)
  | .prime count => leaf .operator (Node.primeGlyph count) (some t)
  | .cellBreak => leaf .cellBreak [] none
  | .lineBreak => leaf .lineBreak [] none
  | .command name => leaf .command name (some t)
  | .verbatim kind data =>
    if kind == utf8 "hspace" then
      some (.focus (.value (.mk .command kind (some t) { width := some data.trim } [])) waiting)
    else leaf .text data (some t)
  | .groupBegin => some (.enclose .group waiting)
  | .script op => some (.focus (.operand op) (.chain op :: .nest (.group []) op :: waiting))
  | .environmentBegin name =>
    if name == utf8 "array" then some (.focus (.columns name) waiting)
    else some (.enclose (.environment name none) waiting)
  | .radical => some (.focus .radical waiting)
  | .fraction _ | .binomial _ | .markOver _ _ | .markUnder _ _ | .style _ | .slashed | .overset
  | .underset | .overbrace _ | .underbrace _ | .operatorName =>
    some (.focus (.argument (.start t)) waiting)
  | .bigOperator _ | .integral _ | .limit _ => some (.focus (.limits (.start t)) waiting)
  | .big _ => some (.focus (.sized t) waiting)
  | .left => some (.focus .opening waiting)
  | .middle => some (.focus .middle waiting)
  | .groupEnd | .environmentEnd _ | .right => none

/-! ### Extending a node -/

/-- What a token adds to an operator that still has room for limits. -/
def Limits.move? (l : Limits) (t : Token) (waiting : List Frame) : Option Move :=
  match t with
  | .command name =>
    if name == utf8 "limits" then some (.focus (.limits { l with isStacked := true }) waiting)
    else if name == utf8 "nolimits" then
      some (.focus (.limits { l with isStacked := false }) waiting)
    else none
  | .script op => if l.has op then none else some (.focus (.operand op) (.limit op l :: waiting))
  | _ => none

namespace Frame

/-- What a frame makes of the node it waited for, when nothing extends it. -/
def close : Frame → Node → Node
  | .prime, n | .scripts, n | .chain _, n => n
  | .first base op, n | .nest base op, n => base.attach op n
  | .second base .sub script, n => base.scripted (some script) (some n)
  | .second base .sup script, n => base.scripted (some n) (some script)
  | .index, _ => .command .radical []
  | .argument a, n => (a.push n).node
  | .limit op l, n => (l.set op n).node

/-- The first script of a base is expected. -/
def script (base : Node) (op : Script) (waiting : List Frame) : Move :=
  .focus (.operand op) (.chain op :: .first base op :: waiting)

/-- How a frame goes on with the token behind the node it waited for, if it has
a use for it; `waiting` is what waits around the frame. -/
def shift (f : Frame) (n : Node) (t : Token) (waiting : List Frame) : Option Move :=
  match f, t with
  | .prime, .prime count => some (.focus (.value (n.primed count)) waiting)
  | .scripts, .script op => some (script n op waiting)
  | .first base op, .script op' =>
    if op' = op.other then
      some (.focus (.operand op') (.chain op' :: .second base op n :: waiting))
    else some (script (close f n) op' waiting)
  | .second _ _ _, .script op => some (script (close f n) op waiting)
  | .chain op, .script op' =>
    if op' = op then some (.focus (.operand op) (.chain op :: .nest n op :: waiting)) else none
  | .index, t => t.begin? (.argument { Application.start .radical with index := some n } :: waiting)
  | .argument a, t =>
    let a := a.push n
    if a.args.length < a.tag.arity then t.begin? (.argument a :: waiting)
    else
      match a.tag.extra, t with
      | .groups, .groupBegin => some (.enclose .group (.argument a :: waiting))
      | .label op, .script op' =>
        if op' = op ∧ a.args.length = a.tag.arity then
          some (.focus (.operand op) (.argument a :: waiting))
        else none
      | _, _ => none
  | .limit op l, t =>
    let l := l.set op n
    if l.isFull then none else l.move? t waiting
  | _, _ => none

end Frame

/-- Where a node ends up when a token follows it: extended by a frame, or an
element of the row. -/
inductive Fed
  | move (m : Move)
  | element (n : Node)

/-- Offers a node and the token behind it to the waiting frames. -/
def feed : List Frame → Node → Token → Fed
  | [], n, _ => .element n
  | f :: waiting, n, t =>
    match f.shift n t waiting with
    | some m => .move m
    | none => feed waiting (f.close n) t

/-! ### Steps -/

namespace State

/-- The start of a source. -/
def start : State :=
  ⟨.element, [], .root [], []⟩

/-- The state after a move. -/
def apply (s : State) : Move → State
  | .focus f waiting => { s with focus := f, waiting := waiting }
  | .enclose e waiting =>
    { s with focus := .element, waiting := [], rows := .inner e [] waiting s.rows }

/-- The state with a node in focus. -/
def withValue (s : State) (n : Node) : State :=
  { s with focus := .value n }

/-- The state after the innermost row has ended with a token. -/
def close (s : State) (e : Enclosure) (done : List Node) (waiting : List Frame) (outer : Rows)
    (t : Token) (offset : Nat) : Except Error State :=
  let s := { s with waiting := waiting, rows := outer }
  match e with
  | .group | .index => .ok (s.withValue (.collapse done))
  | .columns name =>
    match (Node.collapse done).plainText? with
    | none => .error .columnSpecification
    | some columns => .ok (s.apply (.enclose (.environment name (some columns)) waiting))
  | .environment name columns =>
    let n := .mk .environment name (some (.environmentBegin name)) { columns := columns } done
    let endName := match t with | .environmentEnd endName => endName | _ => name
    let warnings := if endName == name then [] else [⟨name, endName, offset⟩]
    .ok { s.withValue n with warnings := s.warnings ++ warnings }
  | .fence opening => .ok { s with focus := .closing opening done }

/-- A token where an element or the end of the row is expected. -/
def element (s : State) (t : Token) (offset : Nat) : Except Error State :=
  let begun : Except Error State :=
    match t.begin? [.prime, .scripts] with
    | some m => .ok (s.apply m)
    | none => .error (.unexpected (utf8 "expression") t.describe offset)
  match s.rows with
  | .root _ => begun
  | .inner e done waiting outer =>
    if e.closedBy t then s.close e done waiting outer t offset else begun

/-- A token behind a node. -/
def value (s : State) (n : Node) (t : Token) (offset : Nat) : Except Error State :=
  match feed s.waiting n t with
  | .move m => .ok (s.apply m)
  | .element n => { s with rows := s.rows.push n }.element t offset

/-- A token where an argument may stand. -/
def argument (s : State) (a : Application) (t : Token) (offset : Nat) : Except Error State :=
  match t.begin? (.argument a :: s.waiting) with
  | some m => .ok (s.apply m)
  | none => s.value a.node t offset

/-- The glyph of a token as the delimiter of a fence; a point is an invisible
one. -/
def fenceGlyph? : Token → Option Bytes
  | .delimiter glyph => some glyph
  | .operator text => if text == utf8 "." then some [] else none
  | _ => none

/-- The error that an operand is missing. -/
def noOperand (op : Script) (t : Option Token) (offset : Nat) : Error :=
  .unexpected (utf8 "argument of " ++ (Token.script op).describe) (Token.describe? t) offset

/-- The error that a column specification is missing. -/
def noColumns (t : Option Token) (offset : Nat) : Error :=
  .unexpected (utf8 "column specification") (Token.describe? t) offset

/-- The error that the delimiter of a sizing command is missing. -/
def noSized (t : Option Token) (offset : Nat) : Error :=
  .unexpected (utf8 "delimiter after sized command") (Token.describe? t) offset

/-- The error that the delimiter of a fence is missing. -/
def noDelimiter (side : Token) (t : Option Token) (offset : Nat) : Error :=
  .delimiter side.describe (Token.describe? t) offset

/-- A sized delimiter. -/
def sizedNode (tag : Token) (glyph : Bytes) : Node :=
  .mk .command [] (some tag) { delimiter := some glyph } []

/-- A fence with its content. -/
def fenceNode (opening closing : Bytes) (content : List Node) : Node :=
  .mk .command [] (some .left) { opening := some opening, closing := some closing } content

/-- The state after one more token. -/
def step (s : State) (t : Token) (offset : Nat) : Except Error State :=
  match s.focus with
  | .value n => s.value n t offset
  | .element => s.element t offset
  | .operand op =>
    match t.begin? (.prime :: s.waiting) with
    | some m => .ok (s.apply m)
    | none => .error (noOperand op (some t) offset)
  | .argument a => s.argument a t offset
  | .radical =>
    if t = .delimiter (utf8 "[") then .ok (s.apply (.enclose .index (.index :: s.waiting)))
    else s.argument (.start .radical) t offset
  | .limits l =>
    match l.move? t s.waiting with
    | some m => .ok (s.apply m)
    | none => s.value l.node t offset
  | .columns name =>
    if t = .groupBegin then .ok (s.apply (.enclose (.columns name) s.waiting))
    else .error (noColumns (some t) offset)
  | .sized tag =>
    match t with
    | .delimiter glyph => .ok (s.withValue (sizedNode tag glyph))
    | _ => .error (noSized (some t) offset)
  | .opening =>
    match fenceGlyph? t with
    | some glyph => .ok (s.apply (.enclose (.fence glyph) s.waiting))
    | none => .error (noDelimiter .left (some t) offset)
  | .closing opening content =>
    match fenceGlyph? t with
    | some glyph => .ok (s.withValue (fenceNode opening glyph content))
    | none => .error (noDelimiter .right (some t) offset)
  | .middle =>
    match fenceGlyph? t with
    | some glyph => .ok (s.withValue (sizedNode .middle glyph))
    | none => .error (noDelimiter .middle (some t) offset)

/-! ### The end of input -/

/-- What the waiting frames make of a node when nothing follows it. -/
def closeAll (waiting : List Frame) (n : Node) : Node :=
  waiting.foldl (fun n f => f.close n) n

/-- The tree of the rows that are open at the end of input. -/
def finishRows (offset : Nat) : Rows → Except Error Node
  | .root done => .ok (.branch .root done)
  | .inner e _ _ _ => .error (.unexpected e.closer endOfInput offset)

/-- The tree when the input ends at an offset. -/
def finish (s : State) (offset : Nat) : Except Error Node :=
  let value (n : Node) := finishRows offset (s.rows.push (closeAll s.waiting n))
  match s.focus with
  | .value n => value n
  | .element => finishRows offset s.rows
  | .operand op => .error (noOperand op none offset)
  | .argument a => value a.node
  | .radical => value (Application.start .radical).node
  | .limits l => value l.node
  | .columns _ => .error (noColumns none offset)
  | .sized _ => .error (noSized none offset)
  | .opening => .error (noDelimiter .left none offset)
  | .closing _ _ => .error (noDelimiter .right none offset)
  | .middle => .error (noDelimiter .middle none offset)

end State

/-! ### Sources -/

/-- The state after some tokens; with an error, the state that it arose in. -/
def State.run : State → List Lexeme → State × Option Error
  | s, [] => (s, none)
  | s, l :: ls =>
    match s.step l.token l.offset with
    | .ok s' => run s' ls
    | .error e => (s, some e)

/-- The outcome of parsing: warnings, and a tree or an error. -/
structure Parsed where
  warnings : List Warning
  tree : Except Error Node

/-- Parses tokens.  An error in the middle of the tokens comes before the one
that ended them. -/
def Lexemes.parse (ls : Lexemes) : Parsed :=
  let (s, error) := State.start.run ls.list
  ⟨s.warnings,
    match error, ls.fault with
    | some e, _ => .error e
    | none, some e => .error e
    | none, none => s.finish ls.offset⟩

/-- Parses a source. -/
def parse (source : Bytes) : Parsed :=
  (Lexemes.ofSource source).parse

end MathMarkup
