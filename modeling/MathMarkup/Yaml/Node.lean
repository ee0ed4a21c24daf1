/-
MathMarkup/Yaml/Node.lean

The nodes of a YAML document and how they are made of its tokens.  A document is
one node: a scalar, a sequence, a mapping or a reference to a node that was given
a name before.  Only the first document of a text is read.

The functions that read collections take a bound on their depth of recursion.
Each call goes past a token or into a node that begins at one, so a small multiple
of the number of tokens is enough.
-/
import MathMarkup.Yaml.Tokens

namespace MathMarkup

namespace Yaml

/-- A node with the line it starts in.  A tag is kept with a node if one was
written. -/
inductive Node
  | scalar (line : Nat) (tag : Option Bytes) (style : Style) (text : Bytes)
  | sequence (line : Nat) (tag : Option Bytes) (items : List Node)
  | mapping (line : Nat) (tag : Option Bytes) (entries : List (Node × Node))
  | reference (line : Nat) (name : Bytes) (target : Node)
  deriving Inhabited

namespace Node

/-- The line a node starts in. -/
def line : Node → Nat
  | .scalar n _ _ _ | .sequence n _ _ | .mapping n _ _ | .reference n _ _ => n

/-- A node that is not written. -/
def absent (line : Nat) : Node :=
  .scalar line none .bare []

end Node

/-- The tokens still to be read and the nodes with a name; a node that is not
complete yet has none. -/
structure Source where
  tokens : List Placed
  named : List (Bytes × Option Node) := []

/-- What reading a part of a document gives: a value and the rest, or nothing if
the document is malformed. -/
abbrev Reading (α : Type) := Source → Option (α × Source)

namespace Reading

/-- The next token. -/
def peek (s : Source) : Option Placed :=
  s.tokens.head?

/-- Behind the next token. -/
def advance (s : Source) : Source :=
  { s with tokens := s.tokens.drop 1 }

/-- Whether the next token is one of the given ones. -/
def isNext (s : Source) (ts : List Token) : Bool :=
  s.tokens.head?.any fun t => ts.contains t.token

/-- What may be written in front of a node. -/
structure Properties where
  anchor : Option Bytes := none
  tag : Option Bytes := none
  line : Option Nat := none

/-- The properties in front of a node: an anchor and a tag in either order. -/
def properties (s : Source) : Properties × Source :=
  match s.tokens with
  | ⟨.anchor a, n⟩ :: ⟨.tag t, _⟩ :: rest => (⟨some a, some t, some n⟩, { s with tokens := rest })
  | ⟨.tag t, n⟩ :: ⟨.anchor a, _⟩ :: rest => (⟨some a, some t, some n⟩, { s with tokens := rest })
  | ⟨.anchor a, n⟩ :: rest => (⟨some a, none, some n⟩, { s with tokens := rest })
  | ⟨.tag t, n⟩ :: rest => (⟨none, some t, some n⟩, { s with tokens := rest })
  | _ => ({}, s)

/-- Gives a node its name. -/
def bind (anchor : Option Bytes) (node : Option Node) (s : Source) : Source :=
  match anchor with
  | some a => { s with named := (a, node) :: s.named }
  | none => s

/-- The node with a name; there must be one, and it must be complete. -/
def find? (s : Source) (name : Bytes) : Option Node :=
  match s.named.find? (·.1 == name) with
  | some (_, node) => node
  | none => none

mutual

/-- Reads a node.  In brackets there are no block collections; as the key or value
of a block mapping a sequence may begin without being indented. -/
def node (block indentless : Bool) : Nat → Reading Node
  | 0, _ => none
  | depth + 1, s =>
    match s.tokens with
    | ⟨.reference name, line⟩ :: _ =>
      match find? s name with
      | some target => some (.reference line name target, advance s)
      | none => none
    | _ =>
      let (props, s) := properties s
      match peek s with
      | none => none
      | some t =>
        let line := props.line.getD t.line
        let opened := bind props.anchor none s
        let close (made : Option (Node × Source)) : Option (Node × Source) :=
          match made with
          | some (n, s) => some (n, bind props.anchor (some n) s)
          | none => none
        let sequence (made : Option (List Node × Source)) : Option (Node × Source) :=
          close (made.map fun (items, s) => (.sequence line props.tag items, s))
        let mapping (made : Option (List (Node × Node) × Source)) : Option (Node × Source) :=
          close (made.map fun (entries, s) => (.mapping line props.tag entries, s))
        match t.token with
        | .scalar text style => close (some (.scalar line props.tag style text, advance s))
        | .flowSequenceBegin => sequence (flowItems true depth (advance opened))
        | .flowMappingBegin => mapping (flowEntries true depth (advance opened))
        | token =>
          if indentless && token == .blockEntry then sequence (indentlessItems depth opened)
          else if block && token == .blockSequence then
            sequence (blockItems depth (advance opened))
          else if block && token == .blockMapping then
            mapping (blockEntries depth (advance opened))
          else if props.line.isSome then
            close (some (.scalar line props.tag .bare [], s))
          else none

/-- The items of a block sequence. -/
def blockItems : Nat → Reading (List Node)
  | 0, _ => none
  | depth + 1, s =>
    if isNext s [.blockEntry] then
      let line := (peek s).elim 0 Placed.line
      match unlessNext [.blockEntry, .blockEnd] true false line depth (advance s) with
      | none => none
      | some (item, s) =>
        match blockItems depth s with
        | none => none
        | some (items, s) => some (item :: items, s)
    else if isNext s [.blockEnd] then some ([], advance s)
    else none

/-- The items of a sequence that is not indented; it ends at the first token that
is not a dash. -/
def indentlessItems : Nat → Reading (List Node)
  | 0, _ => none
  | depth + 1, s =>
    if isNext s [.blockEntry] then
      let line := (peek s).elim 0 Placed.line
      match unlessNext [.blockEntry, .key, .value, .blockEnd] true false line depth (advance s) with
      | none => none
      | some (item, s) =>
        match indentlessItems depth s with
        | none => none
        | some (items, s) => some (item :: items, s)
    else if s.tokens.isEmpty then none
    else some ([], s)

/-- The entries of a block mapping. -/
def blockEntries : Nat → Reading (List (Node × Node))
  | 0, _ => none
  | depth + 1, s =>
    if isNext s [.key] then
      let line := (peek s).elim 0 Placed.line
      match unlessNext [.key, .value, .blockEnd] true true line depth (advance s) with
      | none => none
      | some (k, s) =>
        match blockValue depth s with
        | none => none
        | some (v, s) =>
          match blockEntries depth s with
          | none => none
          | some (entries, s) => some ((k, v) :: entries, s)
    else if isNext s [.blockEnd] then some ([], advance s)
    else none

/-- The value of an entry of a block mapping. -/
def blockValue : Nat → Reading Node
  | 0, _ => none
  | depth + 1, s =>
    let line := (peek s).elim 0 Placed.line
    if isNext s [.value] then
      unlessNext [.key, .value, .blockEnd] true true line depth (advance s)
    else if s.tokens.isEmpty then none
    else some (.absent line, s)

/-- The items of a sequence in brackets.  A key among them makes an item a mapping
of one entry. -/
def flowItems (first : Bool) : Nat → Reading (List Node)
  | 0, _ => none
  | depth + 1, s =>
    if isNext s [.flowSequenceEnd] then some ([], advance s)
    else if !first && !isNext s [.flowEntry] then none
    else
      let s := if first then s else advance s
      if isNext s [.flowSequenceEnd] then some ([], advance s)
      else
        let line := (peek s).elim 0 Placed.line
        let item :=
          if isNext s [.key] then
            match unlessNext [.value, .flowEntry, .flowSequenceEnd] false false line depth
                (advance s) with
            | none => none
            | some (k, s) =>
              match flowValue .flowSequenceEnd depth s with
              | none => none
              | some (v, s) => some (.mapping line none [(k, v)], s)
          else node false false depth s
        match item with
        | none => none
        | some (item, s) =>
          match flowItems false depth s with
          | none => none
          | some (items, s) => some (item :: items, s)

/-- The entries of a mapping in brackets. -/
def flowEntries (first : Bool) : Nat → Reading (List (Node × Node))
  | 0, _ => none
  | depth + 1, s =>
    if isNext s [.flowMappingEnd] then some ([], advance s)
    else if !first && !isNext s [.flowEntry] then none
    else
      let s := if first then s else advance s
      if isNext s [.flowMappingEnd] then some ([], advance s)
      else
        let line := (peek s).elim 0 Placed.line
        let entry :=
          if isNext s [.key] then
            match unlessNext [.value, .flowEntry, .flowMappingEnd] false false line depth
                (advance s) with
            | none => none
            | some (k, s) =>
              match flowValue .flowMappingEnd depth s with
              | none => none
              | some (v, s) => some ((k, v), s)
          else
            match node false false depth s with
            | none => none
            | some (k, s) => some ((k, .absent ((peek s).elim 0 Placed.line)), s)
        match entry with
        | none => none
        | some (entry, s) =>
          match flowEntries false depth s with
          | none => none
          | some (entries, s) => some (entry :: entries, s)

/-- The value of an entry in brackets that `closing` ends. -/
def flowValue (closing : Token) : Nat → Reading Node
  | 0, _ => none
  | depth + 1, s =>
    let line := (peek s).elim 0 Placed.line
    if isNext s [.value] then
      unlessNext [.flowEntry, closing] false false line depth (advance s)
    else some (.absent line, s)

/-- Reads a node unless the next token is one of the given ones, which say that
the node is not written. -/
def unlessNext (stops : List Token) (block indentless : Bool) (line : Nat) : Nat → Reading Node
  | 0, _ => none
  | depth + 1, s =>
    if s.tokens.isEmpty then none
    else if isNext s stops then some (.absent line, s)
    else node block indentless depth s

end

end Reading

/-- What a text holds: nothing, a first document, or something malformed. -/
inductive Document
  | empty
  | node (n : Node)
  | malformed

/-- Reads the directives in front of a document. -/
def skipDirectives (ts : List Placed) : List Placed :=
  ts.dropWhile (·.token == .directive)

/-- The first document among tokens. -/
def Document.ofTokens (ts : List Placed) : Document :=
  let content := skipDirectives ts
  let explicit := content.head?.any (·.token == .documentBegin)
  if content.isEmpty || (content.length < ts.length && !explicit) then .malformed
  else if content.head?.any (·.token == .streamEnd) then .empty
  else
    let s : Source := { tokens := if explicit then content.drop 1 else content }
    let stops : List Token := [.directive, .documentBegin, .documentEnd, .streamEnd]
    if explicit && Reading.isNext s stops then
      .node (.absent ((Reading.peek s).elim 0 Placed.line))
    else
      match Reading.node true false (8 * ts.length + 8) s with
      | some (n, s) => if s.tokens.isEmpty then .malformed else .node n
      | none => .malformed

/-- The first document of a text. -/
def Document.ofText (s : Bytes) : Document :=
  match characters? s with
  | some cs => .ofTokens (tokens cs)
  | none => .malformed

end Yaml

end MathMarkup
