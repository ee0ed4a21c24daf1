/-
MathMarkup/Settings/Basic.lean

Settings of the command line.  A setting is looked for among the flags first, then
in the environment, then in a configuration file; the first place that has it
counts.  Whatever it was written as, it can be asked for as a text and as a truth
value.
-/
import MathMarkup.Dictionary

namespace MathMarkup

/-- A setting: its text, and whether it is true when asked for a truth value. -/
structure Setting where
  text : Bytes
  isTrue : Bool
  deriving DecidableEq, Repr

namespace Setting

/-- The truth value that a text stands for. -/
def truth? (s : Bytes) : Option Bool :=
  if ["1", "t", "T", "true", "TRUE", "True"].any (utf8 · == s) then some true
  else if ["0", "f", "F", "false", "FALSE", "False"].any (utf8 · == s) then some false
  else none

/-- A text; it is true only if it stands for that. -/
def ofText (s : Bytes) : Setting :=
  ⟨s, (truth? s).getD false⟩

/-- A truth value. -/
def ofBool (b : Bool) : Setting :=
  ⟨utf8 (if b then "true" else "false"), b⟩

/-- Several values at once: no text, and not true. -/
def composite : Setting :=
  ⟨[], false⟩

end Setting

/-- The settings of one run. -/
structure Settings where
  flags : Dictionary Setting := .empty
  environment : Dictionary Bytes := .empty
  config : Dictionary Setting := .empty

namespace Settings

/-- The environment variable of a setting. -/
def variableName (name : Bytes) : Bytes :=
  utf8 "LATEXMATH_" ++ name.map Byte.toUpper

/-- The value of a setting in the environment; an empty variable does not count. -/
def inEnvironment? (s : Settings) (name : Bytes) : Option Setting :=
  match s.environment.find? (variableName name) with
  | some (b :: rest) => some (.ofText (b :: rest))
  | _ => none

/-- The value of a setting from the first place that has it. -/
def find? (s : Settings) (name : Bytes) : Option Setting :=
  match s.flags.find? name with
  | some v => some v
  | none =>
    match s.inEnvironment? name with
    | some v => some v
    | none => s.config.find? name

/-- A setting as a text, empty by default. -/
def text (s : Settings) (name : String) : Bytes :=
  ((s.find? (utf8 name)).map Setting.text).getD []

/-- A setting as a truth value, false by default. -/
def isTrue (s : Settings) (name : String) : Bool :=
  ((s.find? (utf8 name)).map Setting.isTrue).getD false

end Settings

end MathMarkup
