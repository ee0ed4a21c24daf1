/-
MathMarkup/CommandLine/Run.lean

Running commands with the readers of this library.  Arguments are read as flags and
others, settings come from flags, the environment and a configuration file, patterns are
matched name by name, and table documents are written in YAML.
-/
import MathMarkup.CommandLine.Commands
import MathMarkup.Files.Glob
import MathMarkup.Settings.File

namespace MathMarkup

namespace CommandLine

/-! ### Settings -/

/-- The settings in a configuration file, if there is one. -/
def readConfig (fs : Files) (path : Bytes) : Except Bytes (Dictionary Setting) :=
  if path.isEmpty then .ok .empty
  else
    let failed (e : Bytes) : Bytes := utf8 "reading config: " ++ e
    let ending := Settings.Format.ending path
    match Settings.Format.ofEnding? ending with
    | none => .error (failed (utf8 "Unsupported Config Type " ++ quoted ending))
    | some format =>
      match fs.read path with
      | .error e => .error (failed e.message)
      | .ok content =>
        match Settings.ofText format content with
        | .error e => .error (failed (utf8 "While parsing config: " ++ e))
        | .ok found => .ok (Settings.collect found)

/-- The settings of a run as they are asked for. -/
def options (settings : Settings) : Options :=
  ⟨settings.text, settings.isTrue⟩

/-! ### Requests -/

/-- The text of a flag, empty if it was not given. -/
def Arguments.text (given : Arguments) (name : String) : Bytes :=
  ((given.flags.find? (utf8 name)).map Setting.text).getD []

/-- What a run is asked for; `none` if there is no command. -/
def request (inv : Invocation) : Except Bytes (Option Request) :=
  match readCommandLine inv.arguments with
  | .error .noCommand => .ok none
  | .error e => .error e.message
  | .ok (command, given) =>
    (readConfig inv.files (given.text "config")).map fun config =>
      some ⟨command, given.others, given.text "category",
        options { flags := given.flags, environment := inv.environment, config }⟩

/-! ### Running -/

/-- The readers of this library. -/
def Readers.standard : Readers where
  request := CommandLine.request
  glob := Files.glob
  document s := (Table.Document.decode s).mapFault Yaml.Fault.message

/-- Does what a run is asked for. -/
def run (inv : Invocation) : Outcome :=
  runWith .standard inv

end CommandLine

end MathMarkup
