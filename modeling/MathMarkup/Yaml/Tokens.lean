/-
MathMarkup/Yaml/Tokens.lean

Reading the tokens of a YAML document.  Three things make the reading depend on
what came before:

* the columns of the open block collections: a line further left closes them;
* how deep in brackets the place is, since there indentation means nothing;
* for each bracket, the last place where a key may have begun.  A key is known as
  such only by the colon after it, so its token goes in front of tokens that are
  already there.

A step reads one token; `none` is a malformed document.
-/
import MathMarkup.Yaml.ScalarText
import MathMarkup.Yaml.Token

namespace MathMarkup

namespace Yaml

/-- A place where a key may have begun: how many tokens came before it, and
whether nothing but a key can stand there. -/
structure KeyStart where
  before : Nat
  required : Bool
  place : Place

/-- The state of reading tokens. -/
structure Reader where
  place : Place
  /-- The tokens so far, the newest first. -/
  read : List Placed := []
  /-- The columns of the open block collections, the innermost first. -/
  indents : List Nat := []
  /-- How many brackets are open. -/
  flow : Nat := 0
  /-- Whether a key may begin here. -/
  keyAllowed : Bool := true
  /-- For every open bracket and outside of all, where a key may have begun. -/
  keys : List (Option KeyStart) := [none]

namespace Reader

/-! ### Bookkeeping -/

/-- Adds a token that starts at the given line. -/
def add (r : Reader) (t : Token) (line : Nat) : Reader :=
  { r with read := ⟨t, line + 1⟩ :: r.read }

/-- Adds a token of `width` characters. -/
def take (r : Reader) (t : Token) (width : Nat) : Reader :=
  { r.add t r.place.line with place := r.place.skip width }

/-- Puts a token behind the first `before` tokens. -/
def insert (r : Reader) (before : Nat) (t : Token) (line : Nat) : Reader :=
  let newer := r.read.length - before
  { r with read := r.read.take newer ++ ⟨t, line + 1⟩ :: r.read.drop newer }

/-- Closes the block collections that lie right of a column. -/
def closeTo (r : Reader) (column : Nat) : Reader :=
  if 0 < r.flow then r
  else
    let closed := r.indents.takeWhile (column < ·)
    { r with
      indents := r.indents.drop closed.length
      read := List.replicate closed.length ⟨.blockEnd, r.place.line + 1⟩ ++ r.read }

/-- Closes all block collections. -/
def closeAll (r : Reader) : Reader :=
  if 0 < r.flow then r
  else
    { r with
      indents := []
      read := List.replicate r.indents.length ⟨.blockEnd, r.place.line + 1⟩ ++ r.read }

/-- Opens a block collection at a column, behind the first `before` tokens, unless
one is open there or the place is in brackets. -/
def openAt (r : Reader) (column before line : Nat) (t : Token) : Reader :=
  if 0 < r.flow || r.indents.head?.any (column ≤ ·) then r
  else { r.insert before t line with indents := column :: r.indents }

/-- Opens a block collection here. -/
def openHere (r : Reader) (t : Token) : Reader :=
  r.openAt r.place.column r.read.length r.place.line t

/-- Gives up the key that may have begun; one that is required must not be given
up. -/
def dropKey (r : Reader) : Option Reader :=
  match r.keys with
  | some k :: outer => if k.required then none else some { r with keys := none :: outer }
  | _ => some r

/-- Notes that a key may begin here, if it may. -/
def saveKey (r : Reader) : Option Reader :=
  if r.keyAllowed then
    let required := r.flow == 0 && r.indents.head? == some r.place.column
    r.dropKey.map fun r =>
      { r with keys := some ⟨r.read.length, required, r.place⟩ :: r.keys.drop 1 }
  else some r

/-! ### Between tokens -/

/-- Behind a comment and the comments in the lines after it. -/
def skipComments : Nat → Place → Place
  | 0, p => p
  | steps + 1, p =>
    let p := p.skipWhile (!isBreak ·)
    let gap := (p.rest.takeWhile fun c => isBlank c || isBreak c).length
    if p.ahead? gap == some (code '#') then skipComments steps (Nat.repeat Place.next gap p) else p

/-- Behind blanks, comments and line breaks.  Tabs count as blanks only where no
key may begin. -/
def skipLayout : Nat → Reader → Reader
  | 0, r => r
  | steps + 1, r =>
    let tabs := 0 < r.flow || !r.keyAllowed
    let p := r.place.skipWhile fun c => c == 0x20 || (tabs && c == 0x09)
    let p := if p.isAt '#' then skipComments p.rest.length p else p
    if p.here?.any isBreak then
      skipLayout steps { r with place := p.next, keyAllowed := r.keyAllowed || r.flow == 0 }
    else { r with place := p }

/-! ### The tokens -/

/-- The end of the document's text. -/
def readEnd (r : Reader) : Option Reader :=
  r.closeAll.dropKey.map fun r => { r.add .streamEnd r.place.line with keyAllowed := false }

/-- A line that begins or ends a document. -/
def readMarker (r : Reader) (t : Token) : Option Reader :=
  r.closeAll.dropKey.map fun r => { r.take t 3 with keyAllowed := false }

/-- A line with a directive; only the version is known. -/
def readDirective (r : Reader) : Option Reader :=
  let line := r.place.rest.takeWhile (!isBreak ·)
  if line.take 6 == (utf8 "%YAML ").map UInt8.toNat then
    r.closeAll.dropKey.map fun r => { r.take .directive line.length with keyAllowed := false }
  else none

/-- An opening bracket. -/
def readOpening (r : Reader) (t : Token) : Option Reader :=
  r.saveKey.map fun r =>
    { r.take t 1 with keys := none :: r.keys, flow := r.flow + 1, keyAllowed := true }

/-- A closing bracket. -/
def readClosing (r : Reader) (t : Token) : Option Reader :=
  r.dropKey.map fun r =>
    { r.take t 1 with
      keys := if 0 < r.flow then r.keys.drop 1 else r.keys
      flow := r.flow - 1
      keyAllowed := false }

/-- A comma between entries in brackets. -/
def readFlowEntry (r : Reader) : Option Reader :=
  r.dropKey.map fun r => { r.take .flowEntry 1 with keyAllowed := true }

/-- The dash of a sequence entry. -/
def readBlockEntry (r : Reader) : Option Reader :=
  if r.flow == 0 && !r.keyAllowed then none
  else
    (r.openHere .blockSequence).dropKey.map fun r =>
      { r.take .blockEntry 1 with keyAllowed := true }

/-- The question mark of a key. -/
def readKey (r : Reader) : Option Reader :=
  if r.flow == 0 && !r.keyAllowed then none
  else
    (r.openHere .blockMapping).dropKey.map fun r =>
      { r.take .key 1 with keyAllowed := r.flow == 0 }

/-- The colon of a value whose key has a token of its own. -/
def readLoneValue (r : Reader) : Option Reader :=
  if r.flow == 0 && !r.keyAllowed then none
  else some { (r.openHere .blockMapping).take .value 1 with keyAllowed := r.flow == 0 }

/-- The colon of a value.  If a key may have begun in this line, not too far back,
it did. -/
def readValue (r : Reader) : Option Reader :=
  match r.keys with
  | some k :: outer =>
    let r := { r with keys := none :: outer }
    if k.place.line < r.place.line || k.place.index + 1024 < r.place.index then
      if k.required then none else r.readLoneValue
    else
      let r := r.insert k.before .key k.place.line
      let r := r.openAt k.place.column k.before k.place.line .blockMapping
      some { r.take .value 1 with keyAllowed := false }
  | _ => r.readLoneValue

/-- Characters of the names of anchors. -/
def isNameCharacter (c : Nat) : Bool :=
  c < 0x80 && (Byte.isLetter c.toUInt8 || Byte.isDigit c.toUInt8 || c == code '_' || c == code '-')

/-- Characters that may stand right behind the name of an anchor. -/
def endsName (p : Place) : Bool :=
  p.endsWord 0 || p.here?.any fun c =>
    ['?', ':', ',', ']', '\x7d', '%', '@', '\x60'].any (code · == c)

/-- An anchor or a reference to one. -/
def readName (r : Reader) (t : Bytes → Token) : Option Reader :=
  match r.saveKey with
  | none => none
  | some r =>
    let name := (r.place.rest.drop 1).takeWhile isNameCharacter
    let r' := { r.take (t (bytesOf name)) (name.length + 1) with keyAllowed := false }
    if name.isEmpty || !endsName r'.place then none else some r'

/-- A tag: `!`, `!name` or `!!name`. -/
def readTag (r : Reader) : Option Reader :=
  match r.saveKey with
  | none => none
  | some r =>
    let word := r.place.rest.takeWhile fun c => !isBlank c && !isBreak c
    let name := (word.drop 1).dropWhile (· == code '!')
    let bangs := word.length - name.length
    if name.all isNameCharacter && bangs ≤ 2 && (bangs == 1 || !name.isEmpty) then
      some { r.take (.tag (bytesOf word)) word.length with keyAllowed := false }
    else none

/-- A block scalar. -/
def readBlockScalar (r : Reader) (folded : Bool) : Option Reader :=
  match r.dropKey with
  | none => none
  | some r =>
    (readBlock folded r.indents.head? r.place).map fun (text, p) =>
      { r.add (.scalar (bytesOf text) .marked) r.place.line with place := p, keyAllowed := true }

/-- A quoted scalar. -/
def readQuotedScalar (r : Reader) (double : Bool) : Option Reader :=
  match r.saveKey with
  | none => none
  | some r =>
    (readQuoted double r.place).map fun (text, p) =>
      { r.add (.scalar (bytesOf text) .marked) r.place.line with place := p, keyAllowed := false }

/-- A bare scalar.  A key may begin behind it if it ends with its line. -/
def readBareScalar (r : Reader) : Option Reader :=
  match r.saveKey with
  | none => none
  | some r =>
    let indent := match r.indents.head? with | none => 0 | some n => n + 1
    (readBare (0 < r.flow) indent r.place).map fun b =>
      { r.add (.scalar (bytesOf b.text) .bare) r.place.line with
        place := b.place, keyAllowed := b.broken }

/-- Characters that begin something else than a bare scalar. -/
def indicators : List Char :=
  [',', '[', ']', '\x7b', '\x7d', '#', '&', '*', '!', '|', '>', '\'', '"', '%', '@', '\x60']

/-- Whether a bare scalar can begin here. -/
def startsBare (r : Reader) : Bool :=
  match r.place.here? with
  | none => false
  | some c =>
    let next := r.place.ahead? 1
    if c == code '-' then !next.any isBlank
    else if c == code '?' || c == code ':' then r.flow == 0 && !r.place.endsWord 1
    else
      !isBlank c && !isBreak c && !indicators.any (code · == c)

/-- Reads the token at the first place behind the layout. -/
def readToken (r : Reader) : Option Reader :=
  let p := r.place
  let block := r.flow == 0
  if p.isAt '%' && p.column == 0 then r.readDirective
  else if p.isMarker '-' then r.readMarker .documentBegin
  else if p.isMarker '.' then r.readMarker .documentEnd
  else if p.isAt '[' then r.readOpening .flowSequenceBegin
  else if p.isAt '\x7b' then r.readOpening .flowMappingBegin
  else if p.isAt ']' then r.readClosing .flowSequenceEnd
  else if p.isAt '\x7d' then r.readClosing .flowMappingEnd
  else if p.isAt ',' then r.readFlowEntry
  else if p.isAt '-' && p.endsWord 1 then r.readBlockEntry
  else if p.isAt '?' && (!block || p.endsWord 1) then r.readKey
  else if p.isAt ':' && (!block || p.endsWord 1) then r.readValue
  else if p.isAt '*' then r.readName .reference
  else if p.isAt '&' then r.readName .anchor
  else if p.isAt '!' then r.readTag
  else if p.isAt '|' && block then r.readBlockScalar false
  else if p.isAt '>' && block then r.readBlockScalar true
  else if p.isAt '\'' then r.readQuotedScalar false
  else if p.isAt '"' then r.readQuotedScalar true
  else if r.startsBare then r.readBareScalar
  else none

/-- Reads the next token and what closes before it. -/
def step (r : Reader) : Option Reader :=
  let r := skipLayout (r.place.rest.length + 1) r
  let r := r.closeTo r.place.column
  if r.place.rest.isEmpty then r.readEnd else r.readToken

/-- Reads tokens to the end or as far as the text is well formed.  A token counts
only if the two after it can be read as well, so of a malformed text the last two
do not. -/
def readAll : Nat → Reader → List Placed
  | 0, r => (r.read.drop 2).reverse
  | steps + 1, r =>
    match r.step with
    | none => (r.read.drop 2).reverse
    | some r =>
      if r.read.head?.any (·.token == .streamEnd) then r.read.reverse else readAll steps r

end Reader

/-- The tokens of a document's characters. -/
def tokens (cs : List Nat) : List Placed :=
  Reader.readAll (cs.length + 2) { place := .start cs }

end Yaml

end MathMarkup
