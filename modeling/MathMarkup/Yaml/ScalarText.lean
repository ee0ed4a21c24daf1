/-
MathMarkup/Yaml/ScalarText.lean

The texts of YAML scalars: bare ones, quoted ones and block scalars.  They share
one rule for line breaks: a single break between two pieces of text reads as a
space, and of more than one the first is dropped.  Every reader returns the text
and the place behind it, or `none` if the scalar is malformed.

The loops take a bound on their number of steps; the number of characters left
is always enough, since each step goes past one.
-/
import MathMarkup.Yaml.Place

namespace MathMarkup

namespace Yaml

/-! ### Gaps -/

/-- Blanks and line breaks between two pieces of a scalar. -/
structure Gap where
  blanks : List Nat := []
  broken : Bool := false
  first : List Nat := []
  more : List Nat := []

namespace Gap

/-- What a gap between two pieces reads as. -/
def text (g : Gap) : List Nat :=
  if g.broken then
    if g.first == [0x0A] then (if g.more.isEmpty then [0x20] else g.more)
    else g.first ++ g.more
  else g.blanks

/-- Reads a gap on.  Behind a line break there may be no tab left of column
`indent`. -/
def read (indent : Nat) : Nat → Gap → Place → Option (Gap × Place)
  | 0, g, p => some (g, p)
  | steps + 1, g, p =>
    match p.here? with
    | none => some (g, p)
    | some c =>
      if isBlank c then
        if g.broken then
          if c == 0x09 && p.column < indent then none else read indent steps g p.next
        else read indent steps { g with blanks := g.blanks ++ [c] } p.next
      else if isBreak c then
        if g.broken then read indent steps { g with more := g.more ++ [c] } p.next
        else read indent steps { g with blanks := [], broken := true, first := [c] } p.next
      else some (g, p)

end Gap

/-! ### Bare scalars -/

/-- Whether a character ends a bare scalar inside of brackets. -/
def isFlowIndicator (c : Nat) : Bool :=
  [',', '?', '[', ']', '\x7b', '\x7d'].any (code · == c)

/-- The characters of a bare scalar up to a blank, a line break, a colon before
one of these, or, inside of brackets, an indicator. -/
def bareWord (flow : Bool) : List Nat → List Nat
  | [] => []
  | c :: rest =>
    if isBlank c || isBreak c then []
    else if c == code ':' &&
        (match rest with | [] => true | d :: _ => isBlank d || isBreak d) then []
    else if flow && isFlowIndicator c then []
    else c :: bareWord flow rest

/-- A bare scalar's text, whether a line break follows it, and the place of the
next thing. -/
structure Bare where
  text : List Nat
  broken : Bool
  place : Place

/-- Reads a bare scalar on, behind the text so far and a gap.  In block context
its lines lie right of column `indent`. -/
def readBareFrom (flow : Bool) (indent : Nat) : Nat → List Nat → Gap → Place → Option Bare
  | 0, text, gap, p => some ⟨text, gap.broken, p⟩
  | steps + 1, text, gap, p =>
    if p.isDocumentMarker || p.isAt '#' then some ⟨text, gap.broken, p⟩
    else
      let word := bareWord flow p.rest
      let p := p.skip word.length
      let (text, gap) := if word.isEmpty then (text, gap) else (text ++ gap.text ++ word, {})
      if p.here?.any fun c => isBlank c || isBreak c then
        match Gap.read indent p.rest.length gap p with
        | none => none
        | some (gap, p) =>
          if !flow && p.column < indent then some ⟨text, gap.broken, p⟩
          else readBareFrom flow indent steps text gap p
      else some ⟨text, gap.broken, p⟩

/-- Reads a bare scalar. -/
def readBare (flow : Bool) (indent : Nat) (p : Place) : Option Bare :=
  readBareFrom flow indent (p.rest.length + 1) [] {} p

/-! ### Quoted scalars -/

/-- What a letter after a backslash stands for. -/
def escape? (c : Nat) : Option Nat :=
  match Char.ofNat c with
  | '0' => some 0x00
  | 'a' => some 0x07
  | 'b' => some 0x08
  | 't' | '\t' => some 0x09
  | 'n' => some 0x0A
  | 'v' => some 0x0B
  | 'f' => some 0x0C
  | 'r' => some 0x0D
  | 'e' => some 0x1B
  | ' ' => some 0x20
  | '"' => some 0x22
  | '\'' => some 0x27
  | '\\' => some 0x5C
  | 'N' => some 0x85
  | '_' => some 0xA0
  | 'L' => some 0x2028
  | 'P' => some 0x2029
  | _ => none

/-- How many hexadecimal digits follow a letter after a backslash. -/
def hexLength? (c : Nat) : Option Nat :=
  match Char.ofNat c with
  | 'x' => some 2
  | 'u' => some 4
  | 'U' => some 8
  | _ => none

/-- The number written in hexadecimal digits. -/
def hexNumber? (cs : List Nat) : Option Nat :=
  cs.foldl (fun n c =>
    match n, (if c < 0x80 then Byte.hexValue? c.toUInt8 else none) with
    | some n, some d => some (n * 16 + d)
    | _, _ => none) (some 0)

/-- The character of an escape sequence and how many characters it takes after
the backslash. -/
def readEscape (rest : List Nat) : Option (Nat × Nat) :=
  match rest with
  | [] => none
  | c :: rest =>
    match hexLength? c with
    | none => (escape? c).map fun e => (e, 1)
    | some n =>
      let digits := rest.take n
      if digits.length < n then none
      else
        match hexNumber? digits with
        | none => none
        | some e =>
          if (0xD800 ≤ e && e ≤ 0xDFFF) || 0x10FFFF < e then none else some (e, n + 1)

/-- Reads a quoted scalar on, behind its opening quote and the text so far. -/
def readQuotedFrom (double : Bool) : Nat → List Nat → Place → Option (List Nat × Place)
  | 0, _, _ => none
  | steps + 1, text, p =>
    if p.isDocumentMarker then none
    else
      match p.rest with
      | [] => none
      | c :: rest =>
        if isBlank c || isBreak c then
          match Gap.read 0 p.rest.length {} p with
          | none => none
          | some (gap, p) => readQuotedFrom double steps (text ++ gap.text) p
        else if double then
          if c == code '"' then some (text, p.next)
          else if c == code '\\' then
            if rest.head?.any isBreak then
              -- an escaped line break and the blanks behind it read as nothing
              let p := (p.skip 1).next
              match Gap.read 0 p.rest.length { broken := true } p with
              | none => none
              | some (gap, p) => readQuotedFrom double steps (text ++ gap.more) p
            else
              match readEscape rest with
              | none => none
              | some (e, n) => readQuotedFrom double steps (text ++ [e]) (p.skip (n + 1))
          else readQuotedFrom double steps (text ++ [c]) p.next
        else if c == code '\'' then
          if rest.head? == some (code '\'') then
            readQuotedFrom double steps (text ++ [c]) (p.skip 2)
          else some (text, p.next)
        else readQuotedFrom double steps (text ++ [c]) p.next

/-- Reads a quoted scalar from its opening quote on. -/
def readQuoted (double : Bool) (p : Place) : Option (List Nat × Place) :=
  readQuotedFrom double (p.rest.length + 1) [] p.next

/-! ### Block scalars -/

/-- What is done with the line breaks at the end of a block scalar. -/
inductive Chomping
  | strip
  | clip
  | keep
  deriving DecidableEq, Repr

/-- Reads the marks behind the indicator: at most one sign and one digit from 1
to 9 in either order. -/
def readBlockMarks (p : Place) : Option (Chomping × Option Nat × Place) :=
  let sign (p : Place) : Chomping × Place :=
    if p.isAt '+' then (.keep, p.next) else if p.isAt '-' then (.strip, p.next) else (.clip, p)
  let digit (p : Place) : Option (Option Nat × Place) :=
    match p.here? with
    | some c =>
      if c == code '0' then none
      else if code '1' ≤ c && c ≤ code '9' then some (some (c - code '0'), p.next)
      else some (none, p)
    | none => some (none, p)
  if p.isAt '+' || p.isAt '-' then
    let (chomping, p) := sign p
    (digit p).map fun (n, p) => (chomping, n, p)
  else
    match digit p with
    | none => none
    | some (none, p) => some (.clip, none, p)
    | some (some n, p) =>
      let (chomping, p) := sign p
      some (chomping, some n, p)

/-- Reads empty lines and the indentation of the line behind them, at most
`indent` columns if that is known.  Gives the breaks and the largest column
seen. -/
def readEmptyLines (indent : Option Nat) :
    Nat → List Nat → Nat → Place → Option (List Nat × Nat × Place)
  | 0, breaks, widest, p => some (breaks, widest, p)
  | steps + 1, breaks, widest, p =>
    let spaces := (p.rest.takeWhile (· == 0x20)).length
    let p := p.skip (match indent with | none => spaces | some n => min spaces (n - p.column))
    let widest := max widest p.column
    let inside := match indent with | none => true | some n => p.column < n
    if inside && p.isAt '\t' then none
    else
      match p.here? with
      | some c =>
        if isBreak c then readEmptyLines indent steps (breaks ++ [c]) widest p.next
        else some (breaks, widest, p)
      | none => some (breaks, widest, p)

/-- The state of a block scalar between two of its lines. -/
structure BlockText where
  text : List Nat := []
  /-- The break behind the last line. -/
  last : List Nat := []
  /-- The empty lines behind it. -/
  empty : List Nat := []
  /-- Whether the last line starts with a blank. -/
  blank : Bool := false

/-- Reads the lines of a block scalar at column `indent`. -/
def readBlockLines (folded : Bool) (indent : Nat) :
    Nat → BlockText → Place → Option (BlockText × Place)
  | 0, b, p => some (b, p)
  | steps + 1, b, p =>
    if p.column == indent && !p.rest.isEmpty then
      let blank := p.here?.any isBlank
      let joint :=
        if folded && !b.blank && !blank && b.last == [0x0A] then
          (if b.empty.isEmpty then [0x20] else [])
        else b.last
      let line := p.rest.takeWhile (!isBreak ·)
      let p := p.skip line.length
      let last := p.here?.toList
      let p := p.next
      match readEmptyLines (some indent) (p.rest.length + 1) [] 0 p with
      | none => none
      | some (empty, _, p) =>
        readBlockLines folded indent steps
          { text := b.text ++ joint ++ b.empty ++ line, last, empty, blank } p
    else some (b, p)

/-- Reads a block scalar from its indicator on, inside a block collection at
column `parent` if there is one. -/
def readBlock (folded : Bool) (parent : Option Nat) (p : Place) : Option (List Nat × Place) :=
  match readBlockMarks p.next with
  | none => none
  | some (chomping, increment, p) =>
    let p := p.skipWhile isBlank
    let p := if p.isAt '#' then p.skipWhile (!isBreak ·) else p
    if !p.endsLine then none
    else
      let p := p.next
      let given := increment.map (parent.getD 0 + ·)
      match readEmptyLines given (p.rest.length + 1) [] 0 p with
      | none => none
      | some (empty, widest, p) =>
        let least := match parent with | none => 1 | some n => n + 1
        let indent := given.getD (max widest least)
        match readBlockLines folded indent (p.rest.length + 1) { empty } p with
        | none => none
        | some (b, p) =>
          let tail :=
            match chomping with
            | .strip => []
            | .clip => b.last
            | .keep => b.last ++ b.empty
          some (b.text ++ tail, p)

end Yaml

end MathMarkup
