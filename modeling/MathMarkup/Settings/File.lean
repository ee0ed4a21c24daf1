/-
MathMarkup/Settings/File.lean

Configuration files.  The end of a file's name tells its format: YAML, JSON or
TOML.  The names of settings may be written in upper or lower case, and of a
setting without a value there is none.
-/
import MathMarkup.Settings.Json
import MathMarkup.Settings.Toml
import MathMarkup.Yaml.Problem

namespace MathMarkup

namespace Settings

/-- The formats of configuration files. -/
inductive Format
  | yaml
  | json
  | toml
  deriving DecidableEq, Repr

namespace Format

/-- What follows the last point in the last name of a path. -/
def ending (path : Bytes) : Bytes :=
  let name := (path.reverse.takeWhile (· != ascii '/')).reverse
  if name.contains (ascii '.') then (name.reverse.takeWhile (· != ascii '.')).reverse else []

/-- The format of a file with a given ending. -/
def ofEnding? (ending : Bytes) : Option Format :=
  if ending == utf8 "yaml" || ending == utf8 "yml" then some .yaml
  else if ending == utf8 "json" then some .json
  else if ending == utf8 "toml" then some .toml
  else none

end Format

/-- A YAML scalar as a setting.  Only a whole number of 64 bits with a sign is true,
if it is not zero. -/
def ofScalar? (v : Yaml.Value) (text : Bytes) : Option Setting :=
  match v with
  | .nothing => none
  | .bool b => some (.ofBool b)
  | .int n => some ⟨Bytes.ofInt n, n != 0 && n < Nat.pow 2 63⟩
  | .float x => some ⟨x.text, false⟩
  | .date => some ⟨text, false⟩
  | .merge | .text => some (.ofText text)

mutual

/-- The problems in a node whatever it is used for: keys that occur twice. -/
def problemsIn : Yaml.Node → List Yaml.Problem
  | .scalar _ _ _ _ => []
  | .sequence _ _ items => problemsInItems items
  | .mapping _ _ entries =>
    match Yaml.Node.repeatedKeys entries with
    | [] => problemsInEntries entries
    | ps => ps
  | .reference _ _ target => problemsIn target

/-- The problems in the items of a sequence. -/
def problemsInItems : List Yaml.Node → List Yaml.Problem
  | [] => []
  | n :: rest => problemsIn n ++ problemsInItems rest

/-- The problems in the values of a mapping. -/
def problemsInEntries : List (Yaml.Node × Yaml.Node) → List Yaml.Problem
  | [] => []
  | (_, v) :: rest => problemsIn v ++ problemsInEntries rest

end

/-- A YAML node as a setting. -/
def ofNode : Yaml.Decoder (Option Setting) := fun n =>
  match n.target with
  | .scalar _ tag style text =>
    (Yaml.Value.ofScalar? tag style text).map fun v => ⟨some (ofScalar? v text), []⟩
  | n => some ⟨some (some .composite), problemsIn n⟩

/-- The settings of a YAML text. -/
def ofYaml (s : Bytes) : Except Yaml.Fault (List (Bytes × Option Setting)) :=
  match Yaml.Document.ofText s with
  | .malformed => .error .malformed
  | .empty => .ok []
  | .node n =>
    match Yaml.Decoder.dictionary (utf8 "map[string]interface \x7b\x7d") none ofNode n with
    | none => .error .malformed
    | some ⟨found, []⟩ => .ok (found.elim [] Dictionary.entries)
    | some ⟨_, ps⟩ => .error (.problems ps)

/-- The settings of a text in a format, or what is wrong with it. -/
def ofText (f : Format) (s : Bytes) : Except Bytes (List (Bytes × Option Setting)) :=
  match f with
  | .yaml => (ofYaml s).mapError Yaml.Fault.message
  | .json => ((Json.parse s).bind Json.Value.settings).mapError Json.Fault.message
  | .toml =>
    match Toml.settings? s with
    | some found => .ok (found.map fun (k, v) => (k, some v))
    | none => .error (utf8 "toml: malformed document")

/-- Settings by their names in lower case; those without a value are left out. -/
def collect (found : List (Bytes × Option Setting)) : Dictionary Setting :=
  found.foldl (fun d (k, v) =>
    match v with
    | some v => d.insert (k.map Byte.toLower) v
    | none => d) .empty

end Settings

end MathMarkup
