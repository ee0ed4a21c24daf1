/-
MathMarkup/Files/Basic.lean

Files as a value: what stands under each path.  A command reads files from this
value and says in its outcome what it writes, so that what a command does is a
function of what it is given.

Paths are texts in which `/` separates names, `.` stands for a directory itself and
`..` for the one above it.  They start at the working directory, or at the root if
their first name is empty.
-/
import MathMarkup.Dictionary

namespace MathMarkup

/-- What can stand under a path. -/
inductive Entry
  | file (content : Bytes)
  | directory
  deriving DecidableEq, Repr

/-- Files and directories by their paths: names joined with `/`, none of them a
dot, and two dots only in front. -/
structure Files where
  entries : Dictionary Entry := .empty

namespace Files

/-- The names on a path, one inside the other. -/
abbrev Names := List Bytes

/-- The names of a path. -/
def names (path : Bytes) : Names :=
  Bytes.splitAt (ascii '/') path

/-- The path with the given names. -/
def join (ns : Names) : Bytes :=
  Bytes.joinWith (utf8 "/") ns

/-- The name of a directory itself. -/
def here : Bytes :=
  utf8 "."

/-- The name of the directory above. -/
def above : Bytes :=
  utf8 ".."

/-- Whether names lead to the root, to the working directory or straight up from
it; there are always directories there. -/
def isTop (ns : Names) : Bool :=
  ns == [[]] || ns.all (· == above)

/-- What stands under names. -/
def entry? (fs : Files) (ns : Names) : Option Entry :=
  if isTop ns then some .directory else fs.entries.find? (join ns)

/-- The path of a name in a directory. -/
def within (dir name : Bytes) : Bytes :=
  if dir == here then name
  else if dir == utf8 "/" then dir ++ name
  else dir ++ ascii '/' :: name

/-- Adds the directories on the way to the given names, without these. -/
def addParents (fs : Files) (ns : Names) : Files :=
  ⟨fs.entries.insertAll ((List.range ns.length).filterMap fun n =>
    if isTop (ns.take n) then none else some (join (ns.take n), .directory))⟩

/-- Adds a file, and the directories it is in. -/
def addFile (fs : Files) (path content : Bytes) : Files :=
  ⟨(fs.addParents (names path)).entries.insert path (.file content)⟩

/-- Adds a directory, and the directories it is in. -/
def addDirectory (fs : Files) (path : Bytes) : Files :=
  let ns := names path
  if path == here || path == utf8 "/" || isTop ns then fs
  else ⟨(fs.addParents ns).entries.insert path .directory⟩

/-- The names in a directory, in byte order. -/
def children (fs : Files) (ns : Names) : List Bytes :=
  fs.entries.entries.filterMap fun (path, _) =>
    let found := names path
    if found.length == ns.length + 1 && found.take ns.length == ns then found.getLast? else none

/-! ### Following paths -/

/-- Why a path leads nowhere. -/
inductive Cause
  | missing
  | notDirectory
  | isDirectory
  deriving DecidableEq, Repr

/-- The wording of a cause. -/
def Cause.message : Cause → Bytes
  | .missing => utf8 "no such file or directory"
  | .notDirectory => utf8 "not a directory"
  | .isDirectory => utf8 "is a directory"

/-- One step along a path: to a name in a directory. -/
def step (fs : Files) (ns : Names) (name : Bytes) : Except Cause Names :=
  match fs.entry? ns with
  | none => .error .missing
  | some (.file _) => .error .notDirectory
  | some .directory =>
    if name.isEmpty || name == here then .ok ns
    else if name == above then
      .ok (if ns == [[]] then ns else if isTop ns then ns ++ [above] else ns.dropLast)
    else if (fs.entry? (ns ++ [name])).isSome then .ok (ns ++ [name])
    else .error .missing

/-- The names that a path leads to. -/
def follow (fs : Files) (path : Bytes) : Except Cause Names :=
  match path with
  | [] => .error .missing
  | c :: _ =>
    (names path).foldl (fun ns name => ns.bind fun ns => fs.step ns name)
      (.ok (if c == ascii '/' then [[]] else []))

/-- What stands under a path. -/
def find (fs : Files) (path : Bytes) : Except Cause Entry :=
  (fs.follow path).bind fun ns =>
    match fs.entry? ns with
    | some e => .ok e
    | none => .error .missing

/-! ### Reading and writing -/

/-- What went wrong with a file: opening or reading it. -/
structure Fault where
  opening : Bool
  path : Bytes
  cause : Cause
  deriving DecidableEq, Repr

/-- What is said about a fault. -/
def Fault.message (f : Fault) : Bytes :=
  utf8 (if f.opening then "open " else "read ") ++ f.path ++ utf8 ": " ++ f.cause.message

/-- The content of a file.  A directory can be opened but not read. -/
def read (fs : Files) (path : Bytes) : Except Fault Bytes :=
  match fs.find path with
  | .ok (.file content) => .ok content
  | .ok .directory => .error ⟨false, path, .isDirectory⟩
  | .error cause => .error ⟨true, path, cause⟩

/-- The fault of writing a file next to existing ones, if any: a directory cannot
be written. -/
def writeFault? (fs : Files) (path : Bytes) : Option Fault :=
  match fs.find path with
  | .ok .directory => some ⟨true, path, .isDirectory⟩
  | .error .notDirectory => some ⟨true, path, .notDirectory⟩
  | _ => none

end Files

end MathMarkup
