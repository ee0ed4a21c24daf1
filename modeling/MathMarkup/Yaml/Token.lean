/-
MathMarkup/Yaml/Token.lean

The tokens of a YAML document.  Some are written down, as the brackets of flow
collections are; the beginnings and ends of block collections and the keys in
them follow from the indentation.
-/
import MathMarkup.Text.Bytes

namespace MathMarkup

namespace Yaml

/-- Whether a scalar is written without any marks around it; only then may it
stand for something else than its text. -/
inductive Style
  | bare
  | marked
  deriving DecidableEq, Repr

/-- The tokens of a document. -/
inductive Token
  | streamEnd
  | directive
  | documentBegin
  | documentEnd
  | blockSequence
  | blockMapping
  | blockEnd
  | flowSequenceBegin
  | flowSequenceEnd
  | flowMappingBegin
  | flowMappingEnd
  | flowEntry
  | blockEntry
  | key
  | value
  | reference (name : Bytes)
  | anchor (name : Bytes)
  | tag (name : Bytes)
  | scalar (text : Bytes) (style : Style)
  deriving DecidableEq, Repr

/-- A token and the line it starts in, counted from one. -/
structure Placed where
  token : Token
  line : Nat
  deriving DecidableEq, Repr

end Yaml

end MathMarkup
