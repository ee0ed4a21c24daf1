/-
MathMarkup/Token/Basic.lean

The tokens of math notation.  A token carries what later stages need of the
command that it was written as: the glyph of an accent, the height of a sized
delimiter, the variant of a style switch.  A command without a meaning of its
own is a `command`; a table says what it stands for.

`describe` names a token in messages.
-/
import MathMarkup.Text.Quoted
import MathMarkup.Variant

namespace MathMarkup

/-- The two script operators, `^` and `_`. -/
inductive Script
  | sup
  | sub
  deriving DecidableEq, Repr, Inhabited

namespace Script

/-- The operator for the other place. -/
def other : Script → Script
  | .sup => .sub
  | .sub => .sup

@[simp] theorem other_other (s : Script) : s.other.other = s := by
  cases s <;> rfl

end Script

/-- A token of math notation. -/
inductive Token
  | letter (text : Bytes)
  | number (text : Bytes)
  | operator (text : Bytes)
  /-- A glyph that may follow `\left`, `\right`, `\middle` or `\big`. -/
  | delimiter (glyph : Bytes)
  /-- A command that a table gives a meaning to. -/
  | command (name : Bytes)
  /-- The raw argument of a command such as `\text`. -/
  | verbatim (kind data : Bytes)
  | groupBegin
  | groupEnd
  | cellBreak
  | lineBreak
  | script (s : Script)
  /-- A run of apostrophes. -/
  | prime (count : Nat)
  | environmentBegin (name : Bytes)
  | environmentEnd (name : Bytes)
  | fraction (kind : Bytes)
  | binomial (kind : Bytes)
  | radical
  | markOver (glyph : Bytes) (accent : Bool)
  | markUnder (glyph : Bytes) (accent : Bool)
  | overset
  | underset
  | overbrace (glyph : Bytes)
  | underbrace (glyph : Bytes)
  /-- A large operator with limits under and over it. -/
  | bigOperator (glyph : Bytes)
  /-- A large operator with limits as scripts. -/
  | integral (glyph : Bytes)
  /-- A function name with a limit under it. -/
  | limit (name : Bytes)
  /-- Sets the height of the delimiter after it. -/
  | big (size : Bytes)
  | style (v : Variant)
  | left
  | right
  | middle
  | operatorName
  | slashed
  deriving DecidableEq, Repr, Inhabited

/-- How messages call the place after the last token. -/
def endOfInput : Bytes :=
  utf8 "end of input"

namespace Token

/-- How messages call a token. -/
def describe : Token → Bytes
  | .letter text => utf8 "letter " ++ quoted text
  | .number text => utf8 "number " ++ quoted text
  | .operator text => utf8 "operator " ++ quoted text
  | .delimiter glyph => utf8 "delimiter " ++ quoted glyph
  | .command name => utf8 "\\" ++ name
  | .verbatim kind _ => kind
  | .groupBegin => utf8 "\x7b"
  | .groupEnd => utf8 "\x7d"
  | .cellBreak => utf8 "&"
  | .lineBreak => utf8 "\\\\"
  | .script .sup => utf8 "^"
  | .script .sub => utf8 "_"
  | .prime _ => utf8 "'"
  | .environmentBegin name => utf8 "\\begin\x7b" ++ name ++ utf8 "\x7d"
  | .environmentEnd name => utf8 "\\end\x7b" ++ name ++ utf8 "\x7d"
  | .fraction kind => utf8 "\\" ++ kind
  | .binomial kind => utf8 "\\" ++ kind
  | .radical => utf8 "\\sqrt"
  | .markOver _ _ => utf8 "accent"
  | .markUnder _ _ => utf8 "accent"
  | .overset => utf8 "\\overset"
  | .underset => utf8 "\\underset"
  | .overbrace _ => utf8 "\\overbrace"
  | .underbrace _ => utf8 "\\underbrace"
  | .bigOperator glyph => utf8 "operator " ++ quoted glyph
  | .integral glyph => utf8 "operator " ++ quoted glyph
  | .limit name => utf8 "\\" ++ name
  | .big _ => utf8 "sized delimiter"
  | .style v => utf8 "style " ++ v.name
  | .left => utf8 "\\left"
  | .right => utf8 "\\right"
  | .middle => utf8 "\\middle"
  | .operatorName => utf8 "\\operatorname"
  | .slashed => utf8 "\\slashed"

/-- The name of a token, or of the end of input. -/
def describe? : Option Token → Bytes
  | some t => t.describe
  | none => endOfInput

/-- Whether a digit right after the token is an argument of one digit, so that
`\frac12` is one half. -/
def actsOnDigit : Token → Bool
  | .fraction _ | .binomial _ | .radical | .style _ => true
  | _ => false

/-- Whether a delimiter has to follow. -/
def takesDelimiter : Token → Bool
  | .left | .right | .middle => true
  | _ => false

/-- Whether the token ends the construct around it, so that no argument can
start with it. -/
def isCloser : Token → Bool
  | .groupEnd | .environmentEnd _ | .right => true
  | _ => false

end Token

end MathMarkup
