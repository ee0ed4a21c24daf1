/-
MathMarkup/Table/Document.lean

Command tables written as YAML documents.  A document has up to four sections,
`functions`, `operators`, `letters` and `spaces`, each a mapping from names to
texts or, for spaces, to widths.  Loading one defines all its names, section by
section in this order, so that a name in two sections has its definition from the
later one; a document with any problem defines nothing.

Loading starts from what a decoder has made of a text (`Decoded`), whichever decoder
that is.  `Document.decode` is one for a part of YAML: merge keys, binary values, tags
written out in full and tag directives are not in that part, and a document with one of
them is refused.
-/
import MathMarkup.Table.Basic
import MathMarkup.Yaml.Problem

namespace MathMarkup

namespace Table

/-- The sections of a table document. -/
structure Document where
  functions : Dictionary Bytes := .empty
  operators : Dictionary Bytes := .empty
  letters : Dictionary Bytes := .empty
  spaces : Dictionary Binary32 := .empty

/-- What comes of decoding a text: a document, the end of the text without one, or a
fault. -/
inductive Decoded (ε : Type)
  | document (d : Document)
  | absent
  | fault (e : ε)

namespace Decoded

variable {ε ε' : Type}

/-- The document to be loaded.  A text without one is a document without sections. -/
def toExcept : Decoded ε → Except ε Document
  | .document d => .ok d
  | .absent => .ok {}
  | .fault e => .error e

/-- Tells faults in another way. -/
def mapFault (f : ε → ε') : Decoded ε → Decoded ε'
  | .document d => .document d
  | .absent => .absent
  | .fault e => .fault (f e)

end Decoded

namespace Document

/-- What messages call a table document. -/
def kind : Bytes :=
  utf8 "latex.TableFile"

/-- A section of texts. -/
def texts : Yaml.Decoder (Dictionary Bytes) :=
  .dictionary (utf8 "map[string]string") [] .text

/-- A section of widths. -/
def widths : Yaml.Decoder (Dictionary Binary32) :=
  .dictionary (utf8 "map[string]float32") .zero .number

/-- Puts what was read of a section into its place. -/
def put {α : Type} (read : Option (Yaml.Decoded (Dictionary α))) (set : Dictionary α → Document) :
    Option (Document × List Yaml.Problem) :=
  read.map fun d => (set (d.value.getD .empty), d.problems)

/-- Reads the section called `name`, if that is the name of one. -/
def field? (d : Document) (name : Bytes) (n : Yaml.Node) :
    Option (Option (Document × List Yaml.Problem)) :=
  if name == utf8 "functions" then some (put (texts n) fun s => { d with functions := s })
  else if name == utf8 "operators" then some (put (texts n) fun s => { d with operators := s })
  else if name == utf8 "letters" then some (put (texts n) fun s => { d with letters := s })
  else if name == utf8 "spaces" then some (put (widths n) fun s => { d with spaces := s })
  else none

/-- Reads the sections of a document one after another, each at most once. -/
def sections (d : Document) (seen : List Bytes) :
    List (Yaml.Node × Yaml.Node) → Option (Document × List Yaml.Problem)
  | [] => some (d, [])
  | (k, v) :: rest =>
    match Yaml.Decoder.text k with
    | none => none
    | some ⟨none, ps⟩ => (sections d seen rest).map fun (d, more) => (d, ps ++ more)
    | some ⟨some name, ps⟩ =>
      if seen.contains name then
        (sections d seen rest).map fun (d, more) =>
          (d, ps ++ .repeatedField k.line name kind :: more)
      else
        match field? d name v with
        | none =>
          (sections d seen rest).map fun (d, more) =>
            (d, ps ++ .unknownField k.line name kind :: more)
        | some none => none
        | some (some (d, found)) =>
          (sections d (name :: seen) rest).map fun (d, more) => (d, ps ++ found ++ more)

/-- Reads a node as a table document. -/
def ofNode? (n : Yaml.Node) : Option (Document × List Yaml.Problem) :=
  match n.target with
  | .mapping _ _ es =>
    match Yaml.Node.repeatedKeys es with
    | [] => sections {} [] es
    | ps => some ({}, ps)
  | n => (Yaml.Decoder.scalar kind (fun _ _ => (none : Option Document)) n).map fun d =>
      ({}, d.problems)

/-- Decodes a text as a table document, if it is in the part of YAML that is read here. -/
def decode (s : Bytes) : Decoded Yaml.Fault :=
  match Yaml.Document.ofText s with
  | .malformed => .fault .malformed
  | .empty => .absent
  | .node n =>
    match ofNode? n with
    | none => .fault .malformed
    | some (d, []) => .document d
    | some (_, ps) => .fault (.problems ps)

/-- Reads a table document.  An empty text is one without sections. -/
def read (s : Bytes) : Except Yaml.Fault Document :=
  (decode s).toExcept

/-- What is said about a text that cannot be decoded, with the cause. -/
def refusal (cause : Bytes) : Bytes :=
  utf8 "unable to decode command table: " ++ cause

/-- What is said about a text that is no table document. -/
def message (e : Yaml.Fault) : Bytes :=
  refusal e.message

end Document

/-- Defines the names of a document. -/
def load (t : Table) (d : Document) : Table :=
  let t := d.functions.entries.foldl (fun t (name, s) => t.addFunction name s) t
  let t := d.operators.entries.foldl (fun t (name, s) => t.addOperator name s) t
  let t := d.letters.entries.foldl (fun t (name, s) => t.addLetter name s) t
  d.spaces.entries.foldl (fun t (name, w) => t.addSpace name w) t

/-- Loads what a decoder has made of a text.  With a fault the table stays as it is, and the
fault is told. -/
def loadDecoded {ε : Type} (t : Table) (decoded : Decoded ε) : Table × Option ε :=
  match decoded.toExcept with
  | .ok d => (t.load d, none)
  | .error e => (t, some e)

end Table

end MathMarkup
