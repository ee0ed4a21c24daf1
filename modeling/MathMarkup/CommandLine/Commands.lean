/-
MathMarkup/CommandLine/Commands.lean

What a command does, as a function of what it is given: arguments, standard input,
environment and files.  The outcome is an exit code, what goes to standard output,
the message of an error and the files that are written.

`convert` compiles expressions, one by one: its arguments, the files of a pattern, or
standard input.  All of them compile or nothing is written.  `table` lists the
definitions of commands.

How arguments and settings are written, which files match a pattern and what a table
document looks like is not decided here.  The commands rely on readers for that
(`Readers`).
-/
import MathMarkup.CommandLine.Flags
import MathMarkup.Compile
import MathMarkup.Files.Basic
import MathMarkup.KeyValue
import MathMarkup.Listing
import MathMarkup.Markup.Render
import MathMarkup.Table.Builtin
import MathMarkup.Table.Document

namespace MathMarkup

namespace CommandLine

/-- What a run is given. -/
structure Invocation where
  arguments : List Bytes
  input : Bytes := []
  environment : Dictionary Bytes := .empty
  files : Files := {}

/-- What comes of a run. -/
structure Outcome where
  code : Nat := 0
  output : Bytes := []
  message : Bytes := []
  /-- The files written, in their order, with their new contents. -/
  written : List (Bytes × Bytes) := []
  deriving DecidableEq, Repr

/-- The outcome of a run that fails before it writes anything. -/
def Outcome.failure (message : Bytes) : Outcome :=
  { code := 1, message }

/-! ### Readers -/

/-- The settings of a run.  Each can be asked for as a text and as a truth value. -/
structure Options where
  text : String → Bytes
  isTrue : String → Bool

/-- A command with its arguments and the settings. -/
structure Request where
  command : Command
  /-- The expressions to be converted. -/
  expressions : List Bytes
  /-- The category to be listed. -/
  category : Bytes
  settings : Options

/-- What the commands rely on. -/
structure Readers where
  /-- What a run is asked for; `none` if there is no command. -/
  request : Invocation → Except Bytes (Option Request)
  /-- The files that a pattern gives, in their order; `none` if it is malformed. -/
  glob : Files → Bytes → Option (List Bytes)
  /-- Decodes a table document. -/
  document : Bytes → Table.Decoded Bytes

/-! ### The table of commands -/

/-- Loads the table document in a file, if there is one. -/
def loadDocument (decode : Bytes → Table.Decoded Bytes) (fs : Files) (path : Bytes) (t : Table) :
    Except Bytes Table :=
  if path.isEmpty then .ok t
  else
    match fs.read path with
    | .error e =>
      .error
        (if e.opening then utf8 "opening command table: " ++ e.message
        else Table.Document.refusal (utf8 "yaml: input error: " ++ e.message))
    | .ok content =>
      match t.loadDecoded (decode content) with
      | (t, none) => .ok t
      | (_, some e) => .error (Table.Document.refusal e)

/-- The definitions in the setting `name`. -/
def readDefinitions (settings : Options) (name : String) : Except Bytes (Dictionary Bytes) :=
  match KeyValue.parse? (settings.text name) with
  | some d => .ok d
  | none => .error (utf8 "parsing --" ++ utf8 name ++ utf8 ": " ++ KeyValue.unterminated)

/-- A table with further functions, operators and letters on top of it. -/
def layered (t : Table) (functions operators letters : Dictionary Bytes) : Table :=
  let t := functions.entries.foldl (fun t (name, s) => t.addFunction name s) t
  let t := operators.entries.foldl (fun t (name, s) => t.addOperator name s) t
  letters.entries.foldl (fun t (name, s) => t.addLetter name s) t

/-- The table that the settings ask for: the builtin one with a document on top of it, and
then the definitions in the settings. -/
def loadTable (decode : Bytes → Table.Decoded Bytes) (settings : Options) (fs : Files) :
    Except Bytes Table := do
  let t ← loadDocument decode fs (settings.text "table") .builtin
  let functions ← readDefinitions settings "function"
  let operators ← readDefinitions settings "operator"
  let letters ← readDefinitions settings "letter"
  return layered t functions operators letters

/-! ### Converting -/

/-- The sources to be converted and the files they come from; sources that are no
files come without. -/
structure Batch where
  sources : List Bytes
  files : List Bytes := []

/-- The contents of files, in order. -/
def readSources (fs : Files) : List Bytes → Except Bytes (List Bytes)
  | [] => .ok []
  | path :: rest =>
    match fs.read path with
    | .error e => .error (utf8 "reading source: " ++ e.message)
    | .ok source => (readSources fs rest).map (source :: ·)

/-- The sources that a run asks for: the files of a pattern, else the expressions
given, else standard input. -/
def gather (glob : Files → Bytes → Option (List Bytes)) (run : Invocation) (pattern : Bytes)
    (expressions : List Bytes) : Except Bytes Batch :=
  if pattern.isEmpty then
    .ok { sources := if expressions.isEmpty then [run.input] else expressions }
  else
    match glob run.files pattern with
    | none => .error (utf8 "matching " ++ quoted pattern ++ utf8 ": syntax error in pattern")
    | some files => (readSources run.files files).map fun sources => { sources, files }

/-- What is said about a source that does not compile: with the file it comes from,
if it comes from one. -/
def compileMessage (files : List Bytes) : Error → Bytes
  | .source index inner =>
    match files[index.toNat]? with
    | some path => path ++ utf8 ": " ++ inner.message
    | none => (Error.source index inner).message
  | e => e.message

/-- The file that the markup of a file goes to. -/
def markupPath (path : Bytes) : Bytes :=
  path ++ utf8 ".mml"

/-- Writes markup, each to its file if it has one and else to standard output. -/
def emit (fs : Files) : Outcome → List (Option Bytes × Bytes) → Outcome
  | o, [] => o
  | o, (none, line) :: rest => emit fs { o with output := o.output ++ line } rest
  | o, (some path, line) :: rest =>
    match fs.writeFault? path with
    | some e => { o with code := 1, message := utf8 "writing markup: " ++ e.message }
    | none => emit fs { o with written := o.written ++ [(path, line)] } rest

/-- Where the markup of each source goes. -/
def targets (write : Bool) (batch : Batch) : List (Option Bytes) :=
  (List.range batch.sources.length).map fun i =>
    if write then batch.files[i]?.map markupPath else none

/-- Converts a batch of sources. -/
def convertBatch (table : Table) (fs : Files) (display write : Bool) (batch : Batch) : Outcome :=
  match compileAll table batch.sources with
  | .error e => .failure (compileMessage batch.files e)
  | .ok markups =>
    let lines := markups.map fun m =>
      (if display then m.withDisplay .block else m).render ++ utf8 "\n"
    emit fs {} ((targets write batch).zip lines)

/-- The command `convert`. -/
def convert (readers : Readers) (run : Invocation) (settings : Options)
    (expressions : List Bytes) : Outcome :=
  match loadTable readers.document settings run.files with
  | .error e => .failure e
  | .ok table =>
    match gather readers.glob run (settings.text "glob") expressions with
    | .error e => .failure e
    | .ok batch =>
      convertBatch table run.files (settings.isTrue "display") (settings.isTrue "write") batch

/-! ### Listing -/

/-- The line of a definition, with tabs behind its first two cells. -/
def definitionLine (name : Bytes) (d : Definition) : Bytes :=
  let text :=
    match d with
    | .space width => width.generalText ++ utf8 "em"
    | d => d.text
  utf8 "\\" ++ name ++ utf8 "\t" ++ d.category.name ++ utf8 "\t" ++ text ++ utf8 "\n"

/-- The definitions of one category, or all of them if none is given, in columns. -/
def listTable (table : Table) (category : Bytes) : Bytes :=
  Listing.format (table.scan (fun text name d =>
    if category.isEmpty || d.category.name == category then (text ++ definitionLine name d, true)
    else (text, true)) [])

/-- The command `table`. -/
def list (readers : Readers) (run : Invocation) (settings : Options) (category : Bytes) : Outcome :=
  match loadTable readers.document settings run.files with
  | .error e => .failure e
  | .ok table => { output := listTable table category }

/-! ### Running -/

/-- Does what a run is asked for. -/
def runWith (readers : Readers) (inv : Invocation) : Outcome :=
  match readers.request inv with
  | .error e => .failure e
  | .ok none => {}
  | .ok (some r) =>
    match r.command with
    | .convert => convert readers inv r.settings r.expressions
    | .table => list readers inv r.settings r.category

end CommandLine

end MathMarkup
