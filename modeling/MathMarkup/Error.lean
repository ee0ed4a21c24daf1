/-
MathMarkup/Error.lean

What can be wrong with a source.  An error is a cause with the data that
belongs to it, and `Error.message` has the wording.
-/
import MathMarkup.Measure
import MathMarkup.Token.Basic

namespace MathMarkup

/-- Why a source does not compile. -/
inductive Error
  /-- Something else stands where a token is required; nothing found is the end
  of input. -/
  | unexpected (expected got : Bytes) (offset : Int)
  /-- `\left`, `\right` or `\middle` without a delimiter after it. -/
  | delimiter (side got : Bytes) (offset : Int)
  /-- The column specification of an array is not plain text. -/
  | columnSpecification
  | unknownEnvironment (name : Bytes)
  | unknownCommand (name : Bytes)
  | arity (command : Bytes) (want got : Int)
  | spaceWidth (width : Bytes) (cause : Measure.Fault)
  /-- A tree with a node of no known kind. -/
  | unknownKind (kind : Int)
  /-- A tree with a command node whose tag introduces no command. -/
  | notACommand (tag : Option Token)
  /-- A tree with a node missing where one is needed. -/
  | missingNode
  /-- The position of a failing source among several. -/
  | source (index : Int) (inner : Error)
  | canceled
  deriving Repr, Inhabited

namespace Error

/-- A message with the place it is about. -/
def located (offset : Int) (text : Bytes) : Bytes :=
  utf8 "offset " ++ Bytes.ofInt offset ++ utf8 ": " ++ text

/-- The wording of an error. -/
def message : Error → Bytes
  | .unexpected expected got offset =>
    located offset (utf8 "expected " ++ expected ++ utf8 ", got "
      ++ if got.isEmpty then endOfInput else got)
  | .delimiter side got offset =>
    located offset (utf8 "missing or unrecognized delimiter after " ++ side ++ utf8 ": " ++ got)
  | .columnSpecification =>
    utf8 "invalid array column specification: only text is allowed here"
  | .unknownEnvironment name => utf8 "unknown environment " ++ quoted name
  | .unknownCommand name => utf8 "unknown command \\" ++ name
  | .arity command want got =>
    command ++ utf8 " requires " ++ Bytes.ofInt want ++ utf8 " arguments, got " ++ Bytes.ofInt got
  | .spaceWidth width cause =>
    utf8 "invalid \\hspace width " ++ quoted width ++ utf8 ": " ++ cause.message
  | .unknownKind kind => utf8 "unable to lower node of kind " ++ Bytes.ofInt kind
  | .notACommand tag => utf8 "unable to lower command " ++ Token.describe? tag
  | .missingNode => utf8 "unable to lower a missing node"
  | .source index inner => utf8 "source #" ++ Bytes.ofInt index ++ utf8 ": " ++ inner.message
  | .canceled => utf8 "context canceled"

end Error

end MathMarkup
