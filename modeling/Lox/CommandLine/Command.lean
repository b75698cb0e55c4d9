/-
**The command.** What the program does for a command line.

* `runFile` runs the text of a file, `readFailure` tells that there is none.
* `answerLine` runs one line of a dialogue; `dialogue` is a whole one.
* `Command.execute` does what options ask for, given what can be read.
-/

import Lox.CommandLine.Folder
import Lox.CommandLine.Options
import Lox.Session

namespace Lox

/-- How a command ended: what it printed, what it said, and its status. There is none if the file
is no text, or if a run does not end. -/
structure Exit where
  status : Option Nat
  out : String
  err : String

namespace Command

/-- The lines that a machine printed. -/
def printedText (machine : Machine) : String :=
  machine.printed.foldl (fun text line => text ++ line ++ "\n") ""

/-- The line that says why a file cannot be read. -/
def readFailure (path reason : String) : String :=
  "Could not read " ++ path ++ ": " ++ reason ++ "\n"

/-- Runs the text of a file, and says so if it was only to be checked and is fine. -/
def runFile (session : Session) (text : String) : Session × Outcome :=
  match session.run text with
  | (session, none) =>
    let report := session.report.complain.say
      "Giving up after a few issues. One crisis at a time, eh?"
    ({ session with report }, .compileError)
  | (session, some outcome) =>
    if session.checkOnly && outcome == .ok then
      ({ session with report := session.report.say "Looks plausible to me." }, outcome)
    else (session, outcome)

/-- Runs one line of a dialogue: the session afterwards, and whether the run ended. -/
def answerLine (session : Session) (line : String) : Session × Bool :=
  match session.run line with
  | (session, none) => ({ session with report := session.report.complain.reset }, true)
  | (session, some .endless) => (session, false)
  | (session, some _) => (session.reset, true)

/-- The prompt of a dialogue. -/
def prompt : String := "> "

/-- What a machine printed since it had printed the given number of lines. -/
def printedSince (machine : Machine) (count : Nat) : String :=
  (machine.printed.toList.drop count).foldl (fun text line => text ++ line ++ "\n") ""

/-- A dialogue over some lines, after which what is printed starts with the given text. A line whose
run does not end is the last one that is read. -/
def dialogue (session : Session) (out : String) : List String → Exit
  | [] => ⟨some Outcome.ok.code, out ++ prompt ++ "\n", session.report.written⟩
  | line :: more =>
    let (next, ended) := answerLine session line
    let out := out ++ prompt ++ printedSince next.machine session.machine.printed.size
    if ended then dialogue next out more else ⟨none, out, next.report.written⟩

/-- The lines of an input. A last line without a line feed counts. -/
def inputLines (input : String) : List String :=
  let lines := input.splitOn "\n"
  if lines.getLast? == some "" then lines.dropLast else lines

/-- The session that options ask for. -/
def sessionFor (options : Options) (luck : Nat) (time : Clock) : Session :=
  .start { verbosity := options.verbosity, luck } time options.check

/-- Does what options ask for, in a folder with the given path. -/
def execute (options : Options) (folder : Folder) (path input : String) (luck : Nat)
    (time : Clock) : Exit :=
  let session := sessionFor options luck time
  match options.program with
  | none => dialogue session "" (inputLines input)
  | some argument =>
    match folder.read argument with
    | .error fault =>
      ⟨some Outcome.usage.code, "", readFailure (Path.resolve path argument) fault.message⟩
    | .ok bytes =>
      match decode bytes with
      | none => ⟨none, "", ""⟩
      | some text =>
        let (session, outcome) := runFile session text
        ⟨outcome.status?, printedText session.machine, session.report.written⟩

end Command

end Lox
