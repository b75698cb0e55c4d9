/-
**Options.** What the words of a command line ask for.

* `Word` is what a single word is: an operand, an option with what is attached to it, or an option
  that does not exist.
* `Options.ofWords` reads a whole command line.

Long options may be shortened as long as only one fits, short ones may be joined, operands and
options may come in any order, and after `--` there are only operands. There may be one operand.
-/

import Lox.Text.Digit

namespace Lox

/-- The options there are. -/
inductive Flag where
  | check | verbose | help
deriving DecidableEq

namespace Flag

/-- The letter of a flag. -/
def letter : Flag → Char
  | check => 'c'
  | verbose => 'v'
  | help => 'h'

/-- The name of a flag. -/
def name : Flag → String
  | check => "check"
  | verbose => "verbose"
  | help => "help"

/-- All flags. -/
def all : List Flag := [check, verbose, help]

/-- The flag of a letter. -/
def ofLetter? (c : Char) : Option Flag :=
  all.find? (·.letter == c)

end Flag

/-- What a command line asks for. -/
structure Options where
  program : Option String := none
  check : Bool := false
  verbosity : Nat := 0
deriving DecidableEq

/-- What comes of a command line. -/
inductive Request where
  | run (options : Options)
  | help
  /-- The command line makes no sense. -/
  | usage
deriving DecidableEq

/-- What a word of a command line is. -/
inductive Word where
  | operand (text : String)
  /-- The word behind which there are only operands. -/
  | separator
  /-- A long option; something may be attached to it with an equals sign. -/
  | long (flag : Flag) (attached : Bool)
  /-- The letters behind a single dash. -/
  | short (letters : List Char)
  | unknown
  | ambiguous
deriving DecidableEq

namespace Word

/-- A text without a line feed at its very end. -/
def dropLineFeed (text : List Char) : List Char :=
  if text.getLast? == some '\n' then text.dropLast else text

/-- Whether what follows a dash makes a negative number of it, in the digits of any script and with
a line feed at most behind it: the word is an operand then. -/
def isNegativeNumber (letters : List Char) : Bool :=
  let letters := dropLineFeed letters
  let whole := letters.takeWhile Text.isDecimalDigit
  match letters.dropWhile Text.isDecimalDigit with
  | [] => !whole.isEmpty
  | '.' :: fraction => !fraction.isEmpty && fraction.all Text.isDecimalDigit
  | _ => false

/-- A word with two dashes in front of its name. -/
def ofLong (text : String) (body : List Char) : Word :=
  let name := String.ofList (body.takeWhile (· != '='))
  let attached := body.contains '='
  match Flag.all.find? (·.name == name) with
  | some flag => long flag attached
  | none =>
    match Flag.all.filter (·.name.startsWith name) with
    | [flag] => long flag attached
    | _ :: _ => ambiguous
    | [] => if text.contains ' ' then operand text else unknown

/-- A word with one dash in front of its letters. -/
def ofShort (text : String) (letters : List Char) : Word :=
  match letters with
  | [] => operand text
  | first :: _ =>
    if (Flag.ofLetter? first).isSome then short letters
    else if isNegativeNumber letters || text.contains ' ' then operand text
    else unknown

/-- What a word is, if no `--` came before it. -/
def ofText (text : String) : Word :=
  match text.toList with
  | '-' :: '-' :: body => ofLong text body
  | '-' :: letters => ofShort text letters
  | _ => operand text

end Word

namespace Options

/-- The words of a command line. After the first `--` all are operands. -/
def words : List String → List Word
  | [] => []
  | "--" :: operands => .separator :: operands.map .operand
  | text :: more => Word.ofText text :: words more

/-- How reading a command line stands: the options so far, whether the last word was taken for the
program, and whether a word was left over. -/
structure Reading where
  options : Options := {}
  justTaken : Bool := false
  leftOver : Bool := false

/-- Notes a flag. Asking for help ends the reading. -/
def Reading.flag (reading : Reading) : Flag → Except Request Reading
  | .help => .error .help
  | .check => .ok { reading with options := { reading.options with check := true } }
  | .verbose =>
    .ok { reading with
      options := { reading.options with verbosity := reading.options.verbosity + 1 } }

/-- Notes flags one after the other. -/
def Reading.flags (reading : Reading) : List Flag → Except Request Reading
  | [] => .ok reading
  | flag :: more =>
    match reading.flag flag with
    | .error request => .error request
    | .ok next => next.flags more

/-- The flags that joined letters stand for. An equals sign may stand behind the first letter if
more letters follow it. Anything else among the letters makes no sense of all of them. -/
def joined : List Char → Option (List Flag)
  | first :: '=' :: second :: more => (first :: second :: more).mapM Flag.ofLetter?
  | letters => letters.mapM Flag.ofLetter?

/-- Notes an operand. There may be only one. -/
def Reading.operand (reading : Reading) (text : String) : Reading :=
  match reading.options.program with
  | none =>
    { reading with options := { reading.options with program := some text }, justTaken := true }
  | some _ => { reading with leftOver := true }

/-- Notes a separator. Once there is an operand, it has to stand directly behind that. -/
def Reading.separator (reading : Reading) (justTaken : Bool) : Reading :=
  if reading.options.program.isNone || justTaken then reading else { reading with leftOver := true }

/-- Notes a word. -/
def Reading.word (before : Reading) (word : Word) : Except Request Reading :=
  let reading := { before with justTaken := false }
  match word with
  | .operand text => .ok (reading.operand text)
  | .separator => .ok (reading.separator before.justTaken)
  | .long flag attached => if attached then .error .usage else reading.flag flag
  | .short letters =>
    match joined letters with
    | none => .error .usage
    | some flags => reading.flags flags
  | .unknown => .ok { reading with leftOver := true }
  | .ambiguous => .error .usage

/-- Notes words one after the other. -/
def Reading.allWords (reading : Reading) : List Word → Except Request Reading
  | [] => .ok reading
  | word :: more =>
    match reading.word word with
    | .error request => .error request
    | .ok next => next.allWords more

/-- What a command line asks for. A word that could stand for several options is noticed before
anything else. -/
def ofWords (arguments : List String) : Request :=
  let words := words arguments
  if words.contains .ambiguous then .usage
  else
    match ({} : Reading).allWords words with
    | .error request => request
    | .ok reading => if reading.leftOver then .usage else .run reading.options

end Options

end Lox
