/-
MathMarkup/Files/Glob.lean

Finding files by a pattern.  The pattern's names are matched directory by
directory, where `**` as a name stands for any directories one inside the other,
none included, and as the last name for all files below.  Braces hold
alternatives, which may span several names.

The order of the files found: those in one directory by their names, a
directory's own files before the files of the directories in it.  Only behind a
`**` at the end files and directories of one directory go by their names together.
What alternatives give is merged into order, without repetition.
-/
import MathMarkup.Files.Basic
import MathMarkup.Files.Pattern

namespace MathMarkup

namespace Glob

open Files (here names within)

/-- What a search takes place in: the files, and the names of the directory that
paths start from. -/
structure Scope where
  files : Files
  base : Files.Names

namespace Scope

/-- What stands under a path; one with an empty name or with dots for a name is no
path here, except that a single dot is the directory itself. -/
def entry? (s : Scope) (path : Bytes) : Option Entry :=
  if path == here then s.files.entry? s.base
  else
    let ns := names path
    if ns.any fun n => n.isEmpty || n == here || n == Files.above then none
    else s.files.entry? (s.base ++ ns)

/-- The names in a directory. -/
def list (s : Scope) (path : Bytes) : List Bytes :=
  match s.entry? path with
  | some .directory => s.files.children (s.base ++ if path == here then [] else names path)
  | _ => []

/-- Whether a directory stands under a path. -/
def isDirectory (s : Scope) (path : Bytes) : Bool :=
  s.entry? path == some .directory

end Scope

/-- All directories in a directory, itself first and each before those in it. -/
def directories (s : Scope) : Nat → Bytes → List Bytes
  | 0, _ => []
  | depth + 1, dir =>
    dir :: ((s.list dir).map (within dir)).flatMap fun path =>
      if s.isDirectory path then directories s depth path else []

/-- All files in a directory and in those inside of it, by their names. -/
def filesBelow (s : Scope) : Nat → Bytes → List Bytes
  | 0, _ => []
  | depth + 1, dir =>
    ((s.list dir).map (within dir)).flatMap fun path =>
      if s.isDirectory path then filesBelow s depth path else [path]

/-- How deep directories can lie in each other. -/
def depthOf (s : Scope) : Nat :=
  s.files.entries.size + 1

/-- What one name of a pattern gives in a directory: files if it is the last name,
else directories. -/
def inDirectory (s : Scope) (dir pattern : Bytes) (last : Bool) : List Bytes :=
  if !s.isDirectory dir then []
  else if pattern == utf8 "**" then
    if last then filesBelow s (depthOf s) dir else directories s (depthOf s) dir
  else
    ((s.list dir).filter fun name =>
      Pattern.matchesName pattern name && s.isDirectory (within dir name) != last).map (within dir)

/-- Puts a path at its place in a list in order. -/
def insertPath (p : Bytes) : List Bytes → List Bytes
  | [] => [p]
  | q :: rest => if q < p then q :: insertPath p rest else p :: q :: rest

/-- Two lists of paths in order as one, without repetition. -/
def merge : Nat → List Bytes → List Bytes → List Bytes
  | 0, as, bs => as ++ bs
  | _, [], bs => bs
  | _, as, [] => as
  | steps + 1, a :: as, b :: bs =>
    if a == b then merge steps (a :: as) bs
    else if a < b then a :: merge steps as (b :: bs)
    else b :: merge steps as (insertPath a bs)

/-- Puts a path behind those that come before it, unless it is there. -/
def addPath (found : List Bytes) (p : Bytes) : List Bytes :=
  let after := (found.reverse.takeWhile (p < ·)).reverse
  let before := found.take (found.length - after.length)
  if before.getLast? == some p then found else before ++ p :: after

/-- Whether `**` stands in a pattern before its last name. -/
def descendsEarly : Bytes → Bool
  | a :: b :: c :: d :: rest =>
    if a == ascii '\\' then descendsEarly (c :: d :: rest)
    else (a == ascii '*' && b == ascii '*') || descendsEarly (b :: c :: d :: rest)
  | _ => false

/-- What the alternatives of a brace give, for each directory they start from.  With
`together` the results of all directories are put into one order, else those of
each. -/
def combine (together : Bool) (results : List (List (List Bytes))) : List Bytes :=
  if together then results.flatten.flatten.foldl addPath []
  else
    results.flatMap fun alternatives =>
      alternatives.foldl (fun found more => merge (found.length + more.length + 1) found more) []

/-- The part of a pattern in front of its last name, if there is one, and the last
name. -/
def splitName (pattern : Bytes) : Option Nat → Option Bytes × Bytes
  | none => (none, pattern)
  | some i => (some (pattern.take i), pattern.drop (i + 1))

/-- The paths that a pattern gives from a directory on: files if it is the end of a
pattern, else directories.  The bound is on the names and braces of the pattern. -/
def search (s : Scope) (together : Bool) : Nat → Bytes → Bytes → Bool → List Bytes
  | 0, _, _, _ => []
  | steps + 1, dir, pattern, last =>
    match Pattern.firstSpecial? pattern with
    | none =>
      let path := within dir (Pattern.unescape pattern)
      match s.entry? path with
      | none => []
      | some .directory => if last then [] else [path]
      | some (.file _) => [path]
    | some special =>
      let byName (slash : Option Nat) : List Bytes :=
        match splitName pattern slash with
        | (none, name) => inDirectory s dir name last
        | (some front, name) =>
          let dirs :=
            if front.length ≤ special then [within dir front]
            else search s together steps dir front false
          dirs.flatMap fun d => inDirectory s d name last
      let slash? (p : Bytes) := Pattern.lastWhere? (· == ascii '/') p
      let ends := Pattern.lastWhere? fun b => b == ascii '/' || b == ascii '\x7d'
      match ends pattern with
      | none => byName none
      | some i =>
        if pattern[i]? == some (ascii '\x7d') then
          match Pattern.openingBrace? (pattern.take i) with
          | none => byName (slash? (pattern.take i))
          | some o =>
            let (dirs, start) :=
              match ends (pattern.take o) with
              | some j =>
                if pattern[j]? == some (ascii '/') then
                  (search s together steps dir (pattern.take j) false,
                    (pattern.take o).drop (j + 1))
                else ([dir], pattern.take o)
              | none => ([dir], pattern.take o)
            let choices := Pattern.alternatives ((pattern.take i).drop (o + 1))
            combine together (dirs.map fun d => choices.map fun c =>
              search s together steps d (start ++ c ++ pattern.drop (i + 1)) last)
        else byName (some i)

/-- Splits a pattern where its first name with a special meaning begins. -/
def splitBase (pattern : Bytes) : Bytes × Bytes :=
  let plain := pattern.take ((Pattern.firstSpecial? pattern).getD pattern.length)
  match Pattern.lastWhere? (· == ascii '/') plain with
  | none => (here, pattern)
  | some 0 => (utf8 "/", pattern.drop 1)
  | some i => (pattern.take i, pattern.drop (i + 1))

end Glob

namespace Files

/-- The files that a pattern gives, `none` if it is malformed. -/
def glob (fs : Files) (pattern : Bytes) : Option (List Bytes) :=
  let pattern := Pattern.clean pattern
  let (base, rest) := Glob.splitBase pattern
  if rest.isEmpty || rest == here || rest == above then
    if !Pattern.isValid pattern then none
    else
      match fs.find (Pattern.unescape pattern) with
      | .ok _ => some [Pattern.unescape pattern]
      | .error _ => some []
  else if !Pattern.isValid rest then none
  else
    match fs.follow base with
    | .error _ => some []
    | .ok ns =>
      let found := Glob.search ⟨fs, ns⟩ (Glob.descendsEarly rest) (rest.length + 2) here rest true
      some (found.map (within base))

end Files

end MathMarkup
