/-
**Reports.** The issues found in texts, and what is said about them.

* `Issue` is a complaint with the text it is about: a headline, and a picture if there is a text.
* `Report` collects issues. It is full when their number is exactly the cap.
* What is said goes to `written`; `complain` says everything there is.
-/

import Lox.Expectation
import Lox.Resolve
import Lox.Text.Picture

namespace Lox

/-! ### Issues -/

/-- Where an issue is, in words. -/
inductive Issue.Place where
  | unnamed
  | atEnd
  | atLexeme (lexeme : String)
deriving DecidableEq

/-- The wording of a place, with a blank in front. -/
def Issue.Place.text : Issue.Place → String
  | unnamed => ""
  | atEnd => " at end"
  | atLexeme lexeme => " at '" ++ lexeme ++ "'"

/-- The stretch of a text that an issue is about. -/
structure Stretch where
  source : String
  offset : Nat
  width : Nat
deriving DecidableEq

/-- A problem with a text. -/
structure Issue where
  line : Option Nat
  place : Issue.Place
  message : String
  stretch : Option Stretch
deriving DecidableEq

namespace Issue

/-- An issue at a character. -/
def ofCharacter (source : Option String) (line offset : Nat) (message : String) : Issue :=
  ⟨some line, .unnamed, message, source.map (⟨·, offset, 1⟩)⟩

/-- An issue at a token. -/
def ofToken (source : Option String) (token : Token) (message : String) : Issue :=
  ⟨some token.line, if token.kind = .eof then .atEnd else .atLexeme token.lexeme, message,
    source.map (⟨·, token.offset, token.width⟩)⟩

/-- The issue of a tree that is nested too deeply. -/
def nesting : Issue :=
  ⟨none, .unnamed, "Too much nesting.", none⟩

/-- A complaint as an issue. -/
def ofComplaint (source : Option String) : Complaint → Issue
  | .lexical fault => ofCharacter source fault.line fault.offset fault.message
  | .syntactic token objection => ofToken source token objection.message

/-- A violation as an issue. -/
def ofViolation (source : Option String) : Token × Violation → Issue
  | (token, violation) => ofToken source token violation.message

/-- The line that sums an issue up. -/
def headline (issue : Issue) : String :=
  let lead := match issue.line with
    | some line => "[line " ++ toString line ++ "] Error"
    | none => "Error"
  lead ++ issue.place.text ++ ": " ++ issue.message

/-- The headline, and the picture below it. -/
def text (issue : Issue) : String :=
  match issue.stretch with
  | none => issue.headline
  | some stretch =>
    issue.headline ++ "\n" ++ Text.picture stretch.source stretch.offset stretch.width

end Issue

/-! ### Outbursts -/

namespace Outburst

/-- How an outburst may begin. -/
def particles : List String :=
  ["Oh, ", "Well, ", "Aw, ", "", ""]

/-- What may be exclaimed. -/
def oaths : List String :=
  ["Ack", "ARGH", "Blargh", "Confound it", "Crud", "Curses", "Crikey", "Drat", "Fiddlesticks",
    "Good Grief", "Great Scott", "Jeepers", "Mercy", "Nuts", "Rats"]

/-- How an outburst may end. -/
def resignations : List String :=
  ["I am undone.", "I cannot continue.", "I have no idea what the right answer is.",
    "I need to ask for help."]

/-- The phrase that luck picks from a list. -/
def pick (luck : Nat) (phrases : List String) : String :=
  phrases.getD (luck % phrases.length) ""

/-- An exclamation. -/
def text (luck : Nat) : String :=
  pick luck particles ++ pick luck oaths ++ "! " ++ pick luck resignations

end Outburst

/-! ### Reports -/

/-- The issues so far, and what was said. -/
structure Report where
  /-- How much is said; zero says the least. -/
  verbosity : Nat := 0
  /-- The number of issues at which a pass is given up. Zero and less mean never. -/
  cap : Int := 50
  /-- What picks the phrases of outbursts. -/
  luck : Nat := 0
  issues : Array Issue := #[]
  /-- The text that new issues are about, unless it is empty. -/
  source : Option String := none
  /-- Whether a run has failed. -/
  crashed : Bool := false
  /-- All that was said. -/
  written : String := ""

namespace Report

/-- Whether there are no issues. -/
def ok (report : Report) : Bool :=
  report.issues.isEmpty

/-- Whether there are issues. -/
def sick (report : Report) : Bool :=
  !report.ok

/-- Whether the number of issues is exactly the cap. -/
def full (report : Report) : Bool :=
  (report.issues.size : Int) == report.cap

/-- Says a line. -/
def say (report : Report) (line : String) : Report :=
  { report with written := report.written ++ line ++ "\n" }

/-- Says something if more than the least is to be said. -/
def info (report : Report) (words : List String) : Report :=
  if report.verbosity = 0 then report else report.say (" ".intercalate words)

/-- Sets the text that new issues are about. -/
def setSource (report : Report) (text : String) : Report :=
  { report with source := if text.isEmpty then none else some text }

/-- Adds an issue. -/
def file (report : Report) (issue : Issue) : Report :=
  { report with issues := report.issues.push issue }

/-- Adds issues until the report is full, and tells whether it got full. -/
def fileAll (report : Report) : List Issue → Report × Bool
  | [] => (report, false)
  | issue :: more =>
    let filed := report.file issue
    if filed.full then (filed, true) else fileAll filed more

/-- Forgets the issues and failures. -/
def reset (report : Report) : Report :=
  { report with issues := #[], crashed := false }

/-- Says that a run failed at a line. -/
def runtimeError (report : Report) (line : Nat) (message : String) : Report :=
  { report with crashed := true }.say
    ("[line " ++ toString line ++ "] Runtime Error: " ++ message)

/-- Says that a run nested too deeply. -/
def stackOverflow (report : Report) : Report :=
  { report with crashed := true }.say "Runtime Error: Stack overflow."

/-- Says what the issues are: their headlines, or, if more than the least is to be said, an outburst
and then the issues with their pictures. -/
def complain (report : Report) : Report :=
  let verbose := report.verbosity != 0
  let report := if verbose && report.sick then report.say (Outburst.text report.luck) else report
  report.issues.foldl
    (fun report issue => report.say (if verbose then issue.text else issue.headline)) report

/-- Complains if there are issues; the result then says so, after an outburst, in the given
words. -/
def assertNoIssues (report : Report) (message : String) : Report × Option String :=
  if report.ok then (report, none)
  else (report.complain, some (Outburst.text report.luck ++ " " ++ message))

end Report

end Lox
