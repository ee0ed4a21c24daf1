/-
MathMarkup/Token/Vocabulary.lean

The words of math notation: the commands with a meaning of their own, the
commands with a raw argument, and the ASCII characters that are not read as
themselves.  A name that is in none of these lists is a command for a table to
explain.
-/
import MathMarkup.Token.Basic

namespace MathMarkup

namespace Vocabulary

/-- Commands that each stand for a glyph or name, as tokens of one kind. -/
def entries (kind : Bytes → Token) (words : List (String × String)) : List (Bytes × Token) :=
  words.map fun (name, text) => (utf8 name, kind (utf8 text))

/-- Fractions and binomials, told apart by their names. -/
def fractions : List (Bytes × Token) :=
  entries .fraction [("frac", "frac"), ("dfrac", "dfrac"), ("tfrac", "tfrac")]
    ++ entries .binomial [("binom", "binom"), ("dbinom", "dbinom"), ("tbinom", "tbinom")]

/-- Commands that are a construct of their own. -/
def structures : List (Bytes × Token) :=
  [(utf8 "sqrt", .radical), (utf8 "left", .left), (utf8 "right", .right),
   (utf8 "middle", .middle), (utf8 "overset", .overset), (utf8 "underset", .underset),
   (utf8 "operatorname", .operatorName), (utf8 "slashed", .slashed), (utf8 "newline", .lineBreak)]

/-- Style switches. -/
def styles : List (Bytes × Token) :=
  let words : List (String × Variant) :=
   [("mathrm", .normal), ("textrm", .normal), ("mathit", .italic), ("textit", .italic),
    ("mathbf", .bold), ("textbf", .bold), ("bm", .boldItalic), ("symbf", .boldItalic),
    ("boldsymbol", .boldItalic), ("mathbb", .doubleStruck), ("mathfrak", .fraktur),
    ("mathscr", .script), ("mathcal", .script), ("mathsf", .sansSerif), ("mathtt", .monospace),
    ("texttt", .monospace)]
  words.map fun (name, v) => (utf8 name, .style v)

/-- Braces over and under an argument. -/
def braces : List (Bytes × Token) :=
  entries .overbrace
   [("overbrace", "⏞"), ("overparen", "⏜"), ("overbracket", "⎴")]
  ++ entries .underbrace
   [("underbrace", "⏟"), ("underparen", "⏝"), ("underbracket", "⎵")]

/-- Accents over and under an argument. -/
def accents : List (Bytes × Token) :=
  entries (.markOver · true)
   [("dot", "˙"), ("ddot", "¨"), ("bar", "¯"), ("hat", "^"), ("check", "ˇ"), ("breve", "˘"),
    ("acute", "´"), ("grave", "`"), ("tilde", "~"), ("vec", "→"), ("overline", "_"),
    ("widehat", "^"), ("widetilde", "~"), ("overrightarrow", "→"), ("overleftarrow", "←")]
  ++ entries (.markUnder · true) [("underline", "_")]

/-- Large operators, integrals and functions with limits. -/
def limits : List (Bytes × Token) :=
  entries .bigOperator
   [("sum", "∑"), ("prod", "∏"), ("coprod", "∐"), ("bigcap", "⋂"), ("bigcup", "⋃"),
    ("bigsqcup", "⨆"), ("bigvee", "⋁"), ("bigwedge", "⋀"), ("bigodot", "⨀"), ("bigotimes", "⨂"),
    ("bigoplus", "⨁"), ("biguplus", "⨄")]
  ++ entries .integral
   [("int", "∫"), ("iint", "∬"), ("iiint", "∭"), ("oint", "∮")]
  ++ entries .limit
   [("lim", "lim"), ("liminf", "lim inf"), ("limsup", "lim sup"), ("min", "min"), ("max", "max"),
    ("inf", "inf"), ("sup", "sup")]

/-- Heights of sized delimiters. -/
def sizes : List (Bytes × Token) :=
  entries .big
   [("bigl", "1.2em"), ("bigr", "1.2em"), ("big", "1.2em"), ("Bigl", "1.623em"),
    ("Bigr", "1.623em"), ("Big", "1.623em"), ("biggl", "2.047em"), ("biggr", "2.047em"),
    ("bigg", "2.047em"), ("Biggl", "2.470em"), ("Biggr", "2.470em"), ("Bigg", "2.470em")]

/-- Delimiters written as commands. -/
def delimiters : List (Bytes × Token) :=
  entries .delimiter
   [("langle", "⟨"), ("rangle", "⟩"), ("\x7b", "\x7b"), ("\x7d", "\x7d"), ("|", "‖"),
    ("lvert", "|"), ("rvert", "|"), ("lVert", "‖"), ("rVert", "‖"), ("lceil", "⌈"),
    ("rceil", "⌉"), ("lfloor", "⌊"), ("rfloor", "⌋"), ("lgroup", "⦗"), ("rgroup", "⦘"),
    ("llbracket", "⟦"), ("rrbracket", "⟧")]

/-- All commands with a meaning of their own. -/
def commands : List (Bytes × Token) :=
  fractions ++ structures ++ styles ++ braces ++ accents ++ limits ++ sizes ++ delimiters

/-- The token of a command with a meaning of its own. -/
def command? (name : Bytes) : Option Token :=
  commands.lookup name

/-- Whether the brace argument of a command is raw text. -/
def isVerbatim (name : Bytes) : Bool :=
  name == utf8 "text" || name == utf8 "mbox" || name == utf8 "hspace"

/-- The token of an ASCII character that is neither letter nor digit, backslash
nor apostrophe. -/
def symbol (b : UInt8) : Token :=
  if b == ascii '-' then .operator (utf8 "−")
  else if b == ascii '*' then .operator (utf8 "∗")
  else if b == ascii '(' || b == ascii ')' || b == ascii '[' || b == ascii ']' ||
      b == ascii '|' then
    .delimiter [b]
  else if b == ascii '\x7b' then .groupBegin
  else if b == ascii '\x7d' then .groupEnd
  else if b == ascii '&' then .cellBreak
  else if b == ascii '^' then .script .sup
  else if b == ascii '_' then .script .sub
  else if b == ascii '~' then .command (utf8 "nobreakspace")
  else .operator [b]

/-- Characters that a backslash turns into operators. -/
def isEscapedOperator (code : Nat) : Bool :=
  code == '#'.toNat || code == '$'.toNat || code == '%'.toNat || code == '&'.toNat
    || code == '_'.toNat

end Vocabulary

end MathMarkup
