/-
MathMarkup/Main.lean

The program.  It gathers what a run depends on, hands it to `CommandLine.run` and
carries out what comes of it.  Of the file system it looks at no more than the
settings ask for: the configuration file, the table document, and the directory
that a pattern starts from.
-/
import MathMarkup.CommandLine.Run

namespace MathMarkup

namespace Program

/-- A text as a string; texts that are not UTF-8 name no file. -/
def toString? (s : Bytes) : Option String :=
  String.fromUTF8? ⟨s.toArray⟩

/-- The bytes of a byte array. -/
def ofByteArray (b : ByteArray) : Bytes :=
  b.toList

/-- Adds what stands under a path to the files, and with `deep` all that is in it. -/
partial def look (deep : Bool) (path : Bytes) (fs : Files) : IO Files := do
  match toString? path with
  | none => return fs
  | some name =>
    try
      let real ← IO.FS.realPath name
      if ← real.isDir then
        let fs := fs.addDirectory path
        if deep then
          let mut found := fs
          for entry in ← real.readDir do
            found ← look deep (Files.within path (utf8 entry.fileName)) found
          return found
        else return fs
      else
        return fs.addFile path (ofByteArray (← IO.FS.readBinFile name))
    catch _ => return fs

/-- Adds what a setting names, if it names something. -/
def lookAt (deep : Bool) (path : Bytes) (fs : Files) : IO Files :=
  if path.isEmpty then return fs else look deep (Pattern.clean path) fs

/-- The variables of the environment that settings can stand in. -/
def environment : IO (Dictionary Bytes) := do
  let mut found := Dictionary.empty
  for flag in CommandLine.Command.convert.flags do
    let variableName := Settings.variableName flag.name
    if let some name := toString? variableName then
      if let some value ← IO.getEnv name then
        found := found.insert variableName (utf8 value)
  return found

/-- All that can be read from a stream. -/
partial def readAll (stream : IO.FS.Stream) (sofar : ByteArray) : IO ByteArray := do
  let chunk ← stream.read 65536
  if chunk.isEmpty then return sofar else readAll stream (sofar ++ chunk)

/-- What a run depends on.  Standard input is read only if there is neither a
pattern nor an expression. -/
def invocation (arguments : List Bytes) : IO CommandLine.Invocation := do
  let environment ← environment
  let config :=
    match CommandLine.readCommandLine arguments with
    | .ok (_, given) => given.text "config"
    | .error _ => []
  let inv : CommandLine.Invocation :=
    { arguments, environment, files := ← lookAt false config {} }
  match CommandLine.request inv with
  | .ok (some r) =>
    let pattern := r.settings.text "glob"
    let files ← lookAt false (r.settings.text "table") inv.files
    if r.command == .table then return { inv with files }
    else if !pattern.isEmpty then
      return { inv with files := ← lookAt true (Glob.splitBase (Pattern.clean pattern)).1 files }
    else if r.expressions.isEmpty then
      let input ← readAll (← IO.getStdin) .empty
      return { inv with files, input := ofByteArray input }
    else return { inv with files }
  | _ => return inv

/-- Writes the bytes to a stream. -/
def put (stream : IO.FS.Stream) (s : Bytes) : IO Unit := do
  stream.write ⟨s.toArray⟩
  stream.flush

end Program

end MathMarkup

open MathMarkup in
/-- Runs the program. -/
def main (arguments : List String) : IO UInt32 := do
  let outcome := CommandLine.run (← Program.invocation (arguments.map utf8))
  for (path, content) in outcome.written do
    if let some name := Program.toString? path then
      IO.FS.writeBinFile name ⟨content.toArray⟩
  Program.put (← IO.getStdout) outcome.output
  if outcome.code != 0 then
    Program.put (← IO.getStderr) (utf8 "Error: " ++ outcome.message ++ utf8 "\n")
  return outcome.code.toUInt32
