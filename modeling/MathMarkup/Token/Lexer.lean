/-
MathMarkup/Token/Lexer.lean

Reading tokens.  Between tokens there may be layout: white space and comments
that run from `%` to the end of the line.  A token is read from its first byte
on, and a reading tells the token or the error together with the number of
bytes it used up, so that a scanner can always go on behind it, after an error
too.

What a token looks like depends on the one before in two places: a digit after
a command such as `\frac` is an argument of one digit, and a point after
`\left`, `\right` or `\middle` is an invisible delimiter and starts no number.

Every reading uses up at least one byte (`read_width_pos`), which is why
scanning a source comes to an end.
-/
import MathMarkup.Error
import MathMarkup.Text.Cluster
import MathMarkup.Text.Letter
import MathMarkup.Token.Vocabulary

namespace MathMarkup

namespace Lexer

/-! ### Layout -/

/-- How many bytes of white space and comments stand in front; `comment` says
that a comment has already begun. -/
def layout : (comment : Bool) → Bytes → Nat
  | _, [] => 0
  | true, b :: rest => layout (b != ascii '\n') rest + 1
  | false, b :: rest =>
    if Byte.isSpace b then layout false rest + 1
    else if b == ascii '%' then layout true rest + 1
    else 0

/-! ### Single tokens -/

/-- A token or an error, and how many bytes were used up. -/
structure Reading where
  result : Except Error Token
  width : Nat

/-- The reading with bytes in front that belong to it. -/
def Reading.shift (n : Nat) (r : Reading) : Reading :=
  { r with width := n + r.width }

/-- How messages call what stands at the front of a text. -/
def nextName : Bytes → Bytes
  | [] => endOfInput
  | a :: rest => Utf8.encode (Utf8.decode a rest).1

/-- The error that something else was expected at an offset. -/
def expected (what : String) (offset : Nat) (s : Bytes) : Error :=
  .unexpected (utf8 what) (nextName s) offset

/-- Whether a text starts with a byte. -/
def startsWith (b : UInt8) (s : Bytes) : Bool :=
  s.head? == some b

/-- The number of stars in front that are passed over: one or none. -/
def starWidth (s : Bytes) : Nat :=
  if startsWith (ascii '*') s then 1 else 0

/-- The name in braces after `\begin` and `\end`, which may end in a star. -/
def readEnvironment (token : Bytes → Token) (offset : Nat) (s : Bytes) : Reading :=
  let w := layout false s
  let s := s.drop w
  if !startsWith (ascii '\x7b') s then ⟨.error (expected "\x7b" (offset + w) s), w⟩
  else
    let w := w + 1
    let s := s.drop 1
    let name := s.takeWhile Byte.isLetter
    if name.isEmpty then ⟨.error (expected "environment name" (offset + w) s), w⟩
    else
      let star := starWidth (s.drop name.length)
      let name := s.take (name.length + star)
      let w := w + name.length
      let s := s.drop name.length
      if !startsWith (ascii '\x7d') s then ⟨.error (expected "\x7d" (offset + w) s), w⟩
      else ⟨.ok (token name), w + 1⟩

/-- Adds to the length on either side. -/
def addLength (n : Nat) : Except Nat Nat → Except Nat Nat
  | .ok k => .ok (n + k)
  | .error k => .error (n + k)

/-- The length of a raw argument up to its closing brace, `depth` braces being
open inside it; a backslash takes the byte after it along.  Without a closing
brace, the number of bytes that the search passed over, one past the end if a
backslash stands there. -/
def rawLength : (depth : Nat) → Bytes → Except Nat Nat
  | _, [] => .error 0
  | depth, b :: rest =>
    if b == ascii '\\' then
      match rest with
      | [] => .error 2
      | _ :: rest => addLength 2 (rawLength depth rest)
    else if b == ascii '\x7b' then addLength 1 (rawLength (depth + 1) rest)
    else if b == ascii '\x7d' then
      match depth with
      | 0 => .ok 0
      | depth + 1 => addLength 1 (rawLength depth rest)
    else addLength 1 (rawLength depth rest)

/-- The raw argument of a command such as `\text`. -/
def readVerbatim (kind : Bytes) (offset : Nat) (s : Bytes) : Reading :=
  let w := layout false s
  if !startsWith (ascii '\x7b') (s.drop w) then
    ⟨.error (expected "\x7b" (offset + w) (s.drop w)), w⟩
  else
    let data := s.drop (w + 1)
    match rawLength 0 data with
    | .ok n => ⟨.ok (.verbatim kind (data.take n)), w + 1 + n + 1⟩
    | .error n =>
      ⟨.error (.unexpected (utf8 "\x7d") endOfInput (offset + s.length : Nat)), w + 1 + n⟩

/-- A command with a name of letters, from its name on.  A star after the name
makes no difference. -/
def readWord (offset : Nat) (s : Bytes) : Reading :=
  let name := s.takeWhile Byte.isLetter
  let w := name.length + starWidth (s.drop name.length)
  let reading :=
    if name == utf8 "begin" then readEnvironment .environmentBegin (offset + w) (s.drop w)
    else if name == utf8 "end" then readEnvironment .environmentEnd (offset + w) (s.drop w)
    else if Vocabulary.isVerbatim name then readVerbatim name (offset + w) (s.drop w)
    else ⟨.ok ((Vocabulary.command? name).getD (.command name)), 0⟩
  reading.shift w

/-- The command of a backslash and one character that is no letter. -/
def escaped (code : Nat) : Token :=
  let name := Utf8.encode code
  if code == '\\'.toNat then .lineBreak
  else if Vocabulary.isEscapedOperator code then .operator name
  else
    match Vocabulary.command? name with
    | some t => t
    | none => .command (if code < 0x80 && Byte.isSpace code.toUInt8 then utf8 " " else name)

/-- What stands behind the backslash at an offset. -/
def readBackslash (offset : Nat) : Bytes → Reading
  | [] => ⟨.error (.unexpected (utf8 "command name") endOfInput offset), 0⟩
  | a :: rest =>
    if Byte.isLetter a then readWord (offset + 1) (a :: rest)
    else
      let (code, extra) := Utf8.decode a rest
      ⟨.ok (escaped code), extra + 1⟩

/-- One character outside ASCII with all that joins it. -/
def readCluster (a : UInt8) (rest : Bytes) : Reading :=
  let n := Cluster.firstLength a rest
  let text := (a :: rest).take n
  ⟨.ok (if isLetterCode (Utf8.decode a rest).1 then .letter text else .operator text), n⟩

/-- A byte of a number behind its first. -/
def isNumberByte (b : UInt8) : Bool :=
  Byte.isDigit b || b == ascii '.'

/-- What the token before means for the next one. -/
inductive Mode
  | plain
  | digit
  | fence
  deriving DecidableEq, Repr, Inhabited

/-- The mode behind a token. -/
def Mode.after (t : Token) : Mode :=
  if t.actsOnDigit then .digit else if t.takesDelimiter then .fence else .plain

/-- The token that starts with byte `a` at an offset. -/
def read (mode : Mode) (offset : Nat) (a : UInt8) (rest : Bytes) : Reading :=
  if mode == .digit && Byte.isDigit a then ⟨.ok (.number [a]), 1⟩
  else if mode == .fence && a == ascii '.' then ⟨.ok (.operator [a]), 1⟩
  else if a == ascii '\\' then (readBackslash offset rest).shift 1
  else if a == ascii '\'' then
    let n := (rest.takeWhile (· == ascii '\'')).length
    ⟨.ok (.prime (n + 1)), n + 1⟩
  else if Byte.isDigit a || (a == ascii '.' && rest.head?.any Byte.isDigit) then
    let digits := rest.takeWhile isNumberByte
    ⟨.ok (.number (a :: digits)), digits.length + 1⟩
  else if Byte.isLetter a then ⟨.ok (.letter [a]), 1⟩
  else if Byte.isAscii a then ⟨.ok (Vocabulary.symbol a), 1⟩
  else readCluster a rest

/-- A reading uses up at least one byte. -/
theorem read_width_pos (mode : Mode) (offset : Nat) (a : UInt8) (rest : Bytes) :
    0 < (read mode offset a rest).width := by
  unfold read
  repeat' split
  all_goals simp only [Reading.shift, readCluster, Cluster.firstLength]; omega

end Lexer

/-! ### Scanning -/

/-- What a scanner finds: a token, the end of input or an error. -/
inductive Found
  | token (t : Token)
  | finished
  | fault (e : Error)
  deriving Repr, Inhabited

/-- A place between the tokens of a source: the bytes that follow, the offset
they start at, and what the token before means for them. -/
structure Scanner where
  offset : Nat
  rest : Bytes
  mode : Lexer.Mode
  deriving Repr, Inhabited

namespace Scanner

/-- The start of a source. -/
def start (source : Bytes) : Scanner :=
  ⟨0, source, .plain⟩

/-- What a scanner finds next, the offset where it stands, and the place behind
it. -/
def next (s : Scanner) : Found × Nat × Scanner :=
  let skip := Lexer.layout false s.rest
  let offset := s.offset + skip
  match s.rest.drop skip with
  | [] => (.finished, offset, ⟨offset, [], .plain⟩)
  | a :: rest =>
    let r := Lexer.read s.mode offset a rest
    let behind (mode : Lexer.Mode) : Scanner :=
      ⟨offset + r.width, (a :: rest).drop r.width, mode⟩
    match r.result with
    | .ok t => (.token t, offset, behind (.after t))
    | .error e => (.fault e, offset, behind .plain)

/-- Behind a token there is less left to read. -/
theorem next_shorter {s s' : Scanner} {t : Token} {offset : Nat}
    (h : s.next = (.token t, offset, s')) : s'.rest.length < s.rest.length := by
  simp only [next] at h
  split at h
  · simp at h
  · next a rest hrest =>
    have hlen : (a :: rest).length ≤ s.rest.length := by
      rw [← hrest, List.length_drop]
      omega
    split at h
    · have hpos := Lexer.read_width_pos s.mode (s.offset + Lexer.layout false s.rest) a rest
      simp only [Prod.mk.injEq] at h
      obtain ⟨-, -, rfl⟩ := h
      simp only [List.length_drop]
      simp only [List.length_cons] at hlen ⊢
      omega
    · simp at h

end Scanner

/-- A token with the offset of its first byte. -/
structure Lexeme where
  token : Token
  offset : Nat
  deriving DecidableEq, Repr, Inhabited

/-- A source as tokens: all that could be read, and what ended the reading, the
end of input or an error, at which offset. -/
structure Lexemes where
  list : List Lexeme
  fault : Option Error
  offset : Nat
  deriving Repr, Inhabited

namespace Scanner

/-- The tokens from a place on. -/
def lexemes (s : Scanner) : Lexemes :=
  match _h : s.next with
  | (.token t, offset, s') =>
    let later := lexemes s'
    { later with list := ⟨t, offset⟩ :: later.list }
  | (.finished, offset, _) => ⟨[], none, offset⟩
  | (.fault e, offset, _) => ⟨[], some e, offset⟩
termination_by s.rest.length
decreasing_by exact next_shorter _h

end Scanner

/-- The tokens of a source. -/
def Lexemes.ofSource (source : Bytes) : Lexemes :=
  (Scanner.start source).lexemes

end MathMarkup
