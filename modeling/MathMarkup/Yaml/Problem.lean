/-
MathMarkup/Yaml/Problem.lean

What can be wrong with a well-formed document: a node where another kind of
value is wanted, a key that occurs twice, a field that is not known.  A document
is read to its end, so that all its problems are reported together, in their
order.
-/
import MathMarkup.Dictionary
import MathMarkup.Text.Quoted
import MathMarkup.Yaml.Scalar

namespace MathMarkup

namespace Yaml

/-- A problem of a document; lines count from one. -/
inductive Problem
  | mismatch (line : Nat) (tag : Bytes) (text : Option Bytes) (wanted : Bytes)
  | repeatedKey (line : Nat) (key : Bytes) (firstLine : Nat)
  | unknownField (line : Nat) (name wanted : Bytes)
  | repeatedField (line : Nat) (name wanted : Bytes)
  deriving DecidableEq, Repr

namespace Problem

/-- A text as it is shown in a message: a long one is cut short. -/
def excerpt (s : Bytes) : Bytes :=
  utf8 " \x60" ++ (if 10 < s.length then s.take 7 ++ utf8 "..." else s) ++ utf8 "\x60"

/-- The message about a problem. -/
def message : Problem → Bytes
  | .mismatch line tag text wanted =>
    utf8 "line " ++ Bytes.ofNat line ++ utf8 ": cannot unmarshal " ++ tag
      ++ text.elim [] excerpt ++ utf8 " into " ++ wanted
  | .repeatedKey line key firstLine =>
    utf8 "line " ++ Bytes.ofNat line ++ utf8 ": mapping key " ++ quoted key
      ++ utf8 " already defined at line " ++ Bytes.ofNat firstLine
  | .unknownField line name wanted =>
    utf8 "line " ++ Bytes.ofNat line ++ utf8 ": field " ++ name ++ utf8 " not found in type "
      ++ wanted
  | .repeatedField line name wanted =>
    utf8 "line " ++ Bytes.ofNat line ++ utf8 ": field " ++ name ++ utf8 " already set in type "
      ++ wanted

/-- The message about several problems. -/
def report (problems : List Problem) : Bytes :=
  utf8 "yaml: unmarshal errors:\n  " ++ Bytes.joinWith (utf8 "\n  ") (problems.map message)

end Problem

/-- Why a document cannot be used.  One that is written in a part of YAML that is not read
here counts as malformed. -/
inductive Fault
  | malformed
  | problems (ps : List Problem)
  deriving DecidableEq, Repr

/-- What is said about a document that cannot be used. -/
def Fault.message : Fault → Bytes
  | .malformed => utf8 "yaml: malformed document"
  | .problems ps => Problem.report ps

namespace Node

/-- The node that a reference stands for. -/
def target : Node → Node
  | .reference _ _ n => target n
  | n => n

/-- The message that a node is not what is wanted. -/
def mismatch (n : Node) (value : Value) (wanted : Bytes) : Problem :=
  match n with
  | .scalar line tag _ text => .mismatch line (tag.getD value.tag) (some text) wanted
  | .sequence line tag _ => .mismatch line (tag.getD (utf8 "!!seq")) (tag.map fun _ => []) wanted
  | .mapping line tag _ => .mismatch line (tag.getD (utf8 "!!map")) (tag.map fun _ => []) wanted
  | .reference line _ _ => .mismatch line [] none wanted

/-- What makes two keys of a mapping the same: their kind and the text written. -/
def keyIdentity : Node → Nat × Bytes
  | .scalar _ _ _ text => (0, text)
  | .sequence _ _ _ => (1, [])
  | .mapping _ _ _ => (2, [])
  | .reference _ name _ => (3, name)

/-- The problems with keys that occur more than once in a mapping. -/
def repeatedKeys : List (Node × Node) → List Problem
  | [] => []
  | (k, _) :: rest =>
    rest.filterMap (fun (k', _) =>
      if k'.keyIdentity == k.keyIdentity then
        some (.repeatedKey k'.line k'.keyIdentity.2 k.line)
      else none)
    ++ repeatedKeys rest

end Node

/-- A value read from a document, if there is one, and the problems met. -/
structure Decoded (α : Type) where
  value : Option α
  problems : List Problem := []

/-- Reads a node as a value of some kind; `none` if a scalar contradicts its
tag. -/
abbrev Decoder (α : Type) := Node → Option (Decoded α)

namespace Decoder

/-- A scalar as `use` reads it, or none if it stands for nothing.  Keys that occur
twice in a mapping are a problem before the mapping itself is one. -/
def scalar {α : Type} (wanted : Bytes) (use : Value → Bytes → Option α) : Decoder α := fun n =>
  match n.target with
  | .scalar line tag style text =>
    match Value.ofScalar? tag style text with
    | none | some .merge => none
    | some .nothing => some ⟨none, []⟩
    | some v =>
      match use v text with
      | some x => some ⟨some x, []⟩
      | none => some ⟨none, [(Node.scalar line tag style text).mismatch v wanted]⟩
  | .mapping line tag es =>
    match Node.repeatedKeys es with
    | [] => some ⟨none, [(Node.mapping line tag es).mismatch .text wanted]⟩
    | ps => some ⟨none, ps⟩
  | n => some ⟨none, [n.mismatch .text wanted]⟩

/-- Any scalar as it is written. -/
def text : Decoder Bytes :=
  scalar (utf8 "string") fun _ s => some s

/-- A number in single precision. -/
def number : Decoder Binary32 :=
  scalar (utf8 "float32") fun v _ =>
    match v with
    | .int n => some (Binary64.ofInt n).toBinary32
    | .float x => some x.toBinary32
    | _ => none

/-- Reads the entries of a mapping one after another.  An entry without a key does
not count; where there is no value, `absent` stands. -/
def entries {α : Type} (absent : α) (value : Decoder α) :
    List (Node × Node) → Option (Decoded (List (Bytes × α)))
  | [] => some ⟨some [], []⟩
  | (k, v) :: rest =>
    match text k with
    | none => none
    | some ⟨none, ps⟩ =>
      (entries absent value rest).map fun more => { more with problems := ps ++ more.problems }
    | some ⟨some key, ps⟩ =>
      match value v, entries absent value rest with
      | some d, some more =>
        let pair :=
          match d.value with
          | some x => [(key, x)]
          | none => if d.problems.isEmpty then [(key, absent)] else []
        some ⟨more.value.map (pair ++ ·), ps ++ d.problems ++ more.problems⟩
      | _, _ => none

/-- A mapping from texts to values of one kind.  Nothing is a mapping without
entries. -/
def dictionary {α : Type} (wanted : Bytes) (absent : α) (value : Decoder α) :
    Decoder (Dictionary α) := fun n =>
  match n.target with
  | .mapping _ _ es =>
    match Node.repeatedKeys es with
    | [] =>
      (entries absent value es).map fun d =>
        ⟨d.value.map Dictionary.empty.insertAll, d.problems⟩
    | ps => some ⟨none, ps⟩
  | n => scalar wanted (fun _ _ => none) n

end Decoder

end Yaml

end MathMarkup
