/-
MathMarkup/CommandLine/Flags.lean

The arguments of the command line.  There are two commands, each with flags of its
own beside those that both have.  Flags and other arguments may stand in any order,
up to `--`, behind which nothing is a flag.  A flag has a value, in the same argument
behind `=` or in the next one; one that switches something on or off has a value only
behind `=`.
-/
import MathMarkup.Settings.Basic
import MathMarkup.Text.Quoted
import MathMarkup.Yaml.Scalar

namespace MathMarkup

namespace CommandLine

/-- The commands. -/
inductive Command
  | convert
  | table
  deriving DecidableEq, Repr

/-- The name of a command. -/
def Command.name : Command → Bytes
  | .convert => utf8 "convert"
  | .table => utf8 "table"

/-- The command with a name. -/
def Command.ofName? (name : Bytes) : Option Command :=
  [.convert, .table].find? (·.name == name)

/-- What a flag takes as its value. -/
inductive Kind
  | switch
  | text
  | count
  deriving DecidableEq, Repr

/-- A flag: its name, the letter it has for short if any, and its values. -/
structure Flag where
  name : Bytes
  letter : Option UInt8
  kind : Kind
  deriving DecidableEq, Repr

/-- A flag without a letter. -/
def Flag.plain (name : String) (kind : Kind) : Flag :=
  ⟨utf8 name, none, kind⟩

/-- A flag with a letter. -/
def Flag.short (name : String) (letter : Char) (kind : Kind) : Flag :=
  ⟨utf8 name, some (ascii letter), kind⟩

/-- The flags of all commands. -/
def commonFlags : List Flag :=
  [.plain "config" .text, .short "verbose" 'v' .switch, .plain "table" .text,
   .plain "function" .text, .plain "operator" .text, .plain "letter" .text]

/-- The flags of a command. -/
def Command.flags : Command → List Flag
  | .convert =>
    commonFlags ++
      [.plain "display" .switch, .plain "glob" .text, .plain "write" .switch,
       .short "jobs" 'j' .count]
  | .table => commonFlags ++ [.plain "category" .text]

/-! ### Faults -/

/-- What can be wrong with arguments. -/
inductive Fault
  | badForm (argument : Bytes)
  | unknownFlag (name : Bytes)
  | unknownLetter (letter : UInt8) (argument : Bytes)
  | noValue (name : Bytes)
  | noLetterValue (letter : UInt8) (argument : Bytes)
  | badValue (flag : Flag) (value : Bytes)
  | unknownCommand (name path : Bytes)
  | noCommand
  deriving DecidableEq, Repr

/-- What is said about a fault. -/
def Fault.message : Fault → Bytes
  | .badForm argument => utf8 "bad flag syntax: " ++ argument
  | .unknownFlag name => utf8 "unknown flag: --" ++ name
  | .unknownLetter letter argument =>
    utf8 "unknown shorthand flag: '" ++ [letter] ++ utf8 "' in " ++ argument
  | .noValue name => utf8 "flag needs an argument: --" ++ name
  | .noLetterValue letter argument =>
    utf8 "flag needs an argument: '" ++ [letter] ++ utf8 "' in " ++ argument
  | .badValue flag value =>
    let shown :=
      match flag.letter with
      | some letter => utf8 "-" ++ [letter] ++ utf8 ", --" ++ flag.name
      | none => utf8 "--" ++ flag.name
    let reader := utf8 (if flag.kind == .switch then "strconv.ParseBool" else "strconv.ParseInt")
    utf8 "invalid argument " ++ quoted value ++ utf8 " for " ++ quoted shown ++ utf8 " flag: "
      ++ reader ++ utf8 ": parsing " ++ quoted value ++ utf8 ": invalid syntax"
  | .unknownCommand name path =>
    utf8 "unknown command " ++ quoted name ++ utf8 " for " ++ quoted path
  | .noCommand => utf8 "no command"

/-! ### Reading -/

/-- Whether an argument is written as a flag. -/
def looksLikeFlag (a : Bytes) : Bool :=
  a.head? == some (ascii '-') && 2 ≤ a.length

/-- Whether an argument, read without knowing the command, takes the next one as its
value. -/
def takesNext (a : Bytes) : Bool :=
  let isSwitch (f : Flag → Bool) : Bool := commonFlags.any fun g => g.kind == .switch && f g
  if a.contains (ascii '=') then false
  else if a.take 2 == utf8 "--" then !isSwitch (·.name == a.drop 2)
  else a.length == 2 && !isSwitch fun g => g.letter == a[1]?

/-- Finds the name of the command: the first argument that is no flag and no value of
one.  Gives it with the other arguments. -/
def splitCommand : List Bytes → Option (Bytes × List Bytes)
  | [] => none
  | a :: rest =>
    if a == utf8 "--" then none
    else if looksLikeFlag a then
      match takesNext a, rest with
      | true, [] => none
      | true, v :: rest => (splitCommand rest).map fun (name, others) => (name, a :: v :: others)
      | false, rest => (splitCommand rest).map fun (name, others) => (name, a :: others)
    else if a.isEmpty || a.head? == some (ascii '-') then
      (splitCommand rest).map fun (name, others) => (name, a :: others)
    else some (a, rest)

/-- What the arguments behind a command say: the flags given, and the others. -/
structure Arguments where
  flags : Dictionary Setting := .empty
  others : List Bytes := []

/-- Notes a flag with its value, which must be of the flag's kind. -/
def Arguments.set (given : Arguments) (flag : Flag) (value : Bytes) : Except Fault Arguments :=
  let put (v : Setting) : Except Fault Arguments :=
    .ok { given with flags := given.flags.insert flag.name v }
  match flag.kind with
  | .text => put (.ofText value)
  | .switch =>
    match Setting.truth? value with
    | some b => put (.ofBool b)
    | none => .error (.badValue flag value)
  | .count =>
    match Yaml.Value.int? value with
    | some n => put ⟨Bytes.ofInt n, n != 0⟩
    | none => .error (.badValue flag value)

/-- A text up to a byte, and what is behind that byte if it occurs. -/
def splitOnce (sep : UInt8) (s : Bytes) : Bytes × Option Bytes :=
  let front := s.takeWhile (· != sep)
  match s.drop front.length with
  | [] => (front, none)
  | _ :: rest => (front, some rest)

/-- Reads letters of flags.  Gives whether the next argument was used as a value. -/
def readLetters (flags : List Flag) (argument : Bytes) (next : Option Bytes) :
    Bytes → Arguments → Except Fault (Arguments × Bool)
  | [], given => .ok (given, false)
  | letter :: rest, given =>
    match flags.find? (·.letter == some letter) with
    | none => .error (.unknownLetter letter argument)
    | some flag =>
      if 2 ≤ rest.length && rest.head? == some (ascii '=') then
        (given.set flag (rest.drop 1)).map (·, false)
      else if flag.kind == .switch then
        match given.set flag (utf8 "true") with
        | .error f => .error f
        | .ok given => readLetters flags argument next rest given
      else if !rest.isEmpty then (given.set flag rest).map (·, false)
      else
        match next with
        | some value => (given.set flag value).map (·, true)
        | none => .error (.noLetterValue letter argument)

/-- Reads a flag by its name.  Gives whether the next argument was used as a value. -/
def readFlag (flags : List Flag) (argument : Bytes) (next : Option Bytes) (given : Arguments) :
    Except Fault (Arguments × Bool) :=
  let (name, value) := splitOnce (ascii '=') (argument.drop 2)
  if name.isEmpty || name.head? == some (ascii '-') then .error (.badForm argument)
  else
    match flags.find? (·.name == name) with
    | none => .error (.unknownFlag name)
    | some flag =>
      match value with
      | some v => (given.set flag v).map (·, false)
      | none =>
        if flag.kind == .switch then (given.set flag (utf8 "true")).map (·, false)
        else
          match next with
          | some v => (given.set flag v).map (·, true)
          | none => .error (.noValue name)

/-- Reads arguments one after another. -/
def readArguments (flags : List Flag) : Arguments → List Bytes → Except Fault Arguments
  | given, [] => .ok given
  | given, [a] =>
    if a == utf8 "--" then .ok given
    else if !looksLikeFlag a then .ok { given with others := given.others ++ [a] }
    else
      (if a.take 2 == utf8 "--" then readFlag flags a none given
        else readLetters flags a none (a.drop 1) given).map Prod.fst
  | given, a :: b :: rest =>
    if a == utf8 "--" then .ok { given with others := given.others ++ b :: rest }
    else if !looksLikeFlag a then
      readArguments flags { given with others := given.others ++ [a] } (b :: rest)
    else
      match
        if a.take 2 == utf8 "--" then readFlag flags a (some b) given
        else readLetters flags a (some b) (a.drop 1) given
      with
      | .error f => .error f
      | .ok (given, true) => readArguments flags given rest
      | .ok (given, false) => readArguments flags given (b :: rest)

/-- Reads a whole command line: a command, its flags and other arguments.  Only
`convert` takes other arguments. -/
def readCommandLine (arguments : List Bytes) : Except Fault (Command × Arguments) :=
  match splitCommand arguments with
  | none => .error .noCommand
  | some (name, rest) =>
    match Command.ofName? name with
    | none => .error (.unknownCommand name (utf8 "latexmath"))
    | some command =>
      match readArguments command.flags {} rest with
      | .error f => .error f
      | .ok given =>
        match command, given.others with
        | .table, other :: _ => .error (.unknownCommand other (utf8 "latexmath table"))
        | _, _ => .ok (command, given)

end CommandLine

end MathMarkup
