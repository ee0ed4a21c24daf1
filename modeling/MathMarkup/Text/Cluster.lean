/-
MathMarkup/Text/Cluster.lean

User-perceived characters.  A cluster is a character with everything that
joins it: combining marks, the parts of a Hangul syllable, the second half of
a flag, emoji tied together by joiners.  The rules are those for extended
grapheme clusters, and each is a line of `Tail.joins`, which says whether a
character continues the cluster that ends as described by a `Tail`.
-/
import MathMarkup.Text.ClusterClass
import MathMarkup.Text.Utf8

namespace MathMarkup

namespace Cluster

/-- What matters of the characters a cluster has so far: the class of the last
one, whether they end in a pictograph with extending characters after it
(`pictograph`), in such a run and a joiner (`tied`), or in an odd number of
regional indicators (`halfFlag`). -/
structure Tail where
  last : ClusterClass
  pictograph : Bool
  tied : Bool
  halfFlag : Bool
  deriving DecidableEq, Repr

namespace Tail

/-- A cluster of one character. -/
def start (c : ClusterClass) : Tail :=
  ⟨c, c == .pictographic, false, c == .regional⟩

/-- The cluster with one more character. -/
def push (t : Tail) (c : ClusterClass) : Tail :=
  ⟨c, c == .pictographic || (t.pictograph && c == .extend), t.pictograph && c == .joiner,
    c == .regional && !t.halfFlag⟩

/-- Nothing joins across these, but for a line feed after a carriage return. -/
def isBreak : ClusterClass → Bool
  | .carriageReturn | .lineFeed | .control => true
  | _ => false

/-- Whether a character of class `c` continues the cluster. -/
def joins (t : Tail) (c : ClusterClass) : Bool :=
  match t.last, c with
  | .carriageReturn, .lineFeed => true
  | last, c =>
    if isBreak last || isBreak c then false
    else
      match last, c with
      | .hangulL, .hangulL | .hangulL, .hangulV | .hangulL, .hangulLV | .hangulL, .hangulLVT => true
      | .hangulLV, .hangulV | .hangulLV, .hangulT | .hangulV, .hangulV | .hangulV, .hangulT => true
      | .hangulLVT, .hangulT | .hangulT, .hangulT => true
      | _, .extend | _, .joiner | _, .spacingMark => true
      | .prepend, _ => true
      | _, .pictographic => t.tied
      | _, .regional => t.halfFlag
      | _, _ => false

end Tail

/-- How many of the bytes that follow a cluster's first characters belong to
it. -/
def continuation (t : Tail) : Bytes → Nat
  | [] => 0
  | a :: rest =>
    let c := ClusterClass.ofCode (Utf8.decode a rest).1
    if t.joins c then
      (Utf8.decode a rest).2 + 1 + continuation (t.push c) (rest.drop (Utf8.decode a rest).2)
    else 0
termination_by s => s.length
decreasing_by
  simp only [List.length_drop, List.length_cons]
  omega

/-- The number of bytes of the first cluster of `a :: rest`; never zero. -/
def firstLength (a : UInt8) (rest : Bytes) : Nat :=
  let (code, extra) := Utf8.decode a rest
  extra + 1 + continuation (.start (.ofCode code)) (rest.drop extra)

/-- How often a new cluster starts among the runes after a cluster's first
ones. -/
def breaks (t : Tail) : List Rune → Nat
  | [] => 0
  | r :: rs =>
    let c := ClusterClass.ofCode r.code
    if t.joins c then breaks (t.push c) rs else breaks (.start c) rs + 1

/-- How many clusters a text has. -/
def count (s : Bytes) : Nat :=
  match Utf8.runes s with
  | [] => 0
  | r :: rs => breaks (.start (.ofCode r.code)) rs + 1

end Cluster

end MathMarkup
