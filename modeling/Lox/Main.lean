/-
**The program.** Reads a command line and runs a file or a dialogue.
-/

import Lox.CommandLine.Command
import Std.Time.DateTime.Timestamp

namespace Lox

/-- What is said about a command line that makes no sense. -/
def usageText : String :=
  "usage: lox [-h] [-c] [-v] [program]\n"

/-- What is said about the options. -/
def helpText : String :=
  usageText ++
  "\nTree-walking interpreter for the Lox scripting language.\n\n" ++
  "  program        a Lox source file; omit it for an interactive prompt\n" ++
  "  -h, --help     show this help message and exit\n" ++
  "  -c, --check    check the program but do not execute it\n" ++
  "  -v, --verbose  explain more, and draw pictures of errors\n"

/-- The time, in milliseconds since the epoch. -/
def currentTime : IO Number := do
  let now ← Std.Time.Timestamp.now
  return .ofInt now.toMillisecondsSinceUnixEpoch.val

/-- Sets the clock of a session. It stands still while a text runs. -/
def setClock (session : Session) : IO Session := do
  return { session with machine := { session.machine with clock := (← currentTime) } }

/-- Says what a session has to say, and forgets it. -/
def flushReport (session : Session) : IO Session := do
  IO.eprint session.report.written
  return { session with report := { session.report with written := "" } }

/-- Why the system says that a file cannot be read. -/
def reasonOf : IO.Error → String
  | .noFileOrDirectory _ _ _ => ReadFault.missing.message
  | .inappropriateType _ _ reason => reason
  | .permissionDenied _ _ reason => reason
  | other => toString other

/-- Runs lines from the terminal until there are no more. -/
partial def converse (session : Session) (input output : IO.FS.Stream) : IO Unit := do
  output.putStr Command.prompt
  output.flush
  let line ← input.getLine
  if line.isEmpty then output.putStr "\n"
  else
    let text := if line.endsWith "\n" then (line.dropEnd 1).toString else line
    let (next, ended) := Command.answerLine (← setClock session) text
    output.putStr (Command.printedSince next.machine session.machine.printed.size)
    output.flush
    let next ← flushReport next
    if ended then converse next input output

/-- Runs the file that a path names. -/
def runPath (session : Session) (path : String) : IO UInt32 := do
  match ← (IO.FS.readBinFile path).toBaseIO with
  | .error error =>
    IO.eprint (Command.readFailure path (reasonOf error))
    return UInt32.ofNat Outcome.usage.code
  | .ok bytes =>
    match decode bytes with
    | none =>
      IO.eprint (Command.readFailure path "Not a text")
      return 1
    | some text =>
      let (session, outcome) := Command.runFile session text
      IO.print (Command.printedText session.machine)
      let _ ← flushReport session
      return UInt32.ofNat outcome.code

end Lox

open Lox in
/-- The program. -/
def main (arguments : List String) : IO UInt32 := do
  match Options.ofWords arguments with
  | .usage =>
    IO.eprint usageText
    return 2
  | .help =>
    IO.print helpText
    return 0
  | .run options =>
    let session ← setClock (Command.sessionFor options (← IO.rand 0 59) .zero)
    match options.program with
    | none =>
      converse session (← IO.getStdin) (← IO.getStdout)
      return 0
    | some argument => runPath session (Path.resolve (← IO.currentDir).toString argument)
