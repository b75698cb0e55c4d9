/-
**Passes over a text.** Scanning, parsing and resolving with a report at hand.

An issue is filed where it is met: a fault when the segment is scanned, an objection in the middle
of the reduction that gives rise to it, an error before the automaton looks for a way to go on, a
violation while the tree is walked. If the report gets full with it, the pass is given up on the
spot, whatever it was about.

* `Pass` is a step of a pass. It may file issues, and it may be given up.
* `Pass.step` reads one token: it reduces what is whole in front of it and behind it. After an error
  it waits until the next few tokens can be read with a gap in front of them, and goes on behind
  them.
* `Report.scanText`, `Report.parseText` and `Report.resolveTree` are the three passes.
-/

import Lox.Parse
import Lox.Report

namespace Lox

/-- Why a pass is given up. -/
inductive Abort where
  /-- The report got full. -/
  | tooManyIssues
  /-- No way was found to go on after an error. -/
  | lost
  /-- The tree is nested too deeply. -/
  | tooDeep
deriving DecidableEq

/-- A step of a pass over a text, with a report to file issues in. -/
abbrev Pass := EStateM Abort Report

namespace Pass

/-- Files an issue. That is the end of the pass if the report gets full with it. -/
def file (issue : Issue) : Pass Unit := do
  let filed := (← get).file issue
  set filed
  if filed.full then throw .tooManyIssues

/-- Complains about the text that the report is about. -/
def complain (complaint : Complaint) : Pass Unit := do
  file (.ofComplaint (← get).source complaint)

/-- Makes complaints one after the other. -/
def complainAll : List Complaint → Pass Unit
  | [] => return
  | first :: more => do
    complain first
    complainAll more

instance : Resolver Pass where
  object token violation := do file (.ofViolation (← get).source (token, violation))
  tooDeep := throw .tooDeep

/-! ### Scanning -/

/-- Takes what a scan meets, item by item: tokens are kept, faults are complained about. -/
def scanAll : List Scanned → Pass (List Token)
  | [] => return []
  | .fault fault :: more => do
    complain (.lexical fault)
    scanAll more
  | .token token :: more => do
    let tokens ← scanAll more
    return token :: tokens

/-! ### Reading on the stack -/

variable {M : Symbol → Type} (σ : Semantics M)

/-- Reduces phrases, at most `limit` of them, until the token can be read or an error is met. The
stack is then there with the state that the token leads to, if it can be read. -/
def seek (kind : Terminal) : (limit : Nat) → Stack M → Pass (Stack M × Option State)
  | 0, stack => return (stack, none)
  | limit + 1, stack =>
    match (Stack.state stack).action kind with
    | none => return (stack, none)
    | some (.shift target) => return (stack, some target)
    | some (.reduce rule) =>
      match Stack.reduce σ rule stack with
      | none => return (stack, none)
      | some (reduced, complaints) => do
        complainAll complaints
        seek kind limit reduced

/-- Reduces phrases, at most `limit` of them, that are whole whatever comes next. -/
def settle : (limit : Nat) → Stack M → Pass (Stack M)
  | 0, stack => return stack
  | limit + 1, stack =>
    match (Stack.state stack).settled? with
    | none => return stack
    | some rule =>
      match Stack.reduce σ rule stack with
      | none => return stack
      | some (reduced, complaints) => do
        complainAll complaints
        settle limit reduced

variable (limit : Nat)

/-- Reads a token and leaves whole phrases as they are. -/
def shift (kind : Terminal) (token : Token) (stack : Stack M) : Pass (Stack M) := do
  let (sought, target) ← seek σ kind limit stack
  match target with
  | none => throw .lost
  | some target => return Stack.push σ target kind token sought

/-- Reads tokens one after the other. -/
def shiftAll : List Token → Stack M → Pass (Stack M)
  | [], stack => return stack
  | token :: more, stack => do
    let shifted ← shift σ limit token.kind token stack
    shiftAll more shifted

/-! ### Reading a text -/

/-- Where the automaton stands once it has read the token that closes the text. -/
def finish (stack : Stack M) : Mode M :=
  match Stack.program? stack with
  | some value => .accepted value
  | none => .lost

/-- Goes on with the tokens of a window behind a gap. -/
def resume (stack : Stack M) (culprit : Token) (window : List Token) : Pass (Mode M) := do
  let gapped ← shift σ limit .gap culprit stack
  let resumed ← shiftAll σ limit window gapped
  return if Mode.atEnd window then finish resumed else .reading resumed

/-- Goes on with the longest end of the text that can be read behind the gap. -/
def resumeAtEnd (stack : Stack M) (trial : Stack Shape) (culprit : Token) :
    List Token → Pass (Mode M)
  | [] => return .lost
  | token :: more =>
    if Mode.readable limit trial (token :: more) then
      resume σ limit stack culprit (token :: more)
    else resumeAtEnd stack trial culprit more

/-- Goes on if the window is full and can be read behind the gap, or if the text is at its end. -/
def skip (stack : Stack M) (trial : Stack Shape) (culprit : Token) (window : List Token) :
    Pass (Mode M) :=
  if Mode.atEnd window then resumeAtEnd σ limit stack trial culprit window
  else if window.length < Mode.windowSize then return .skipping stack trial culprit window
  else if Mode.readable limit trial window then resume σ limit stack culprit window
  else return .skipping stack trial culprit window.tail

/-- Complains about an error at a token, and begins to skip. -/
def recover (stack : Stack M) (culprit : Token) : Pass (Mode M) := do
  complain (.syntactic culprit (.expected (Stack.expectation culprit.kind stack)))
  let point := Stack.gapPoint limit culprit stack (Stack.forget stack)
  match Stack.shift .shape limit .gap culprit (Stack.forget point) with
  | none => return .lost
  | some (trial, _) => skip σ limit point trial culprit [culprit]

/-- Reads one token. -/
def step (mode : Mode M) (token : Token) : Pass (Mode M) :=
  match mode with
  | .reading stack => do
    let (sought, target) ← seek σ token.kind limit stack
    match target with
    | none => recover σ limit sought token
    | some target =>
      if token.kind = .eof then return finish sought
      else
        let settled ← settle σ limit (Stack.push σ target token.kind token sought)
        return .reading settled
  | .skipping stack trial culprit window =>
    skip σ limit stack trial culprit (window ++ [token])
  | .accepted value => return .accepted value
  | .lost => return .lost

/-- Takes what a scan meets, item by item: tokens are read, faults are complained about. -/
def readAll (mode : Mode M) : List Scanned → Pass (Mode M)
  | [] => return mode
  | .fault fault :: more => do
    complain (.lexical fault)
    readAll mode more
  | .token token :: more => do
    let mode ← step σ limit mode token
    readAll mode more

/-- Reads a text that is scanned on the way. -/
def readProgram (scanned : List Scanned) : Pass (M (.nonterminal .program)) := do
  let limit := reductionLimit (tokensOf scanned).length
  match (← readAll σ limit (.reading []) scanned).program? with
  | some value => return value
  | none => throw .lost

/-- The tree of a text. After errors it holds the declarations that could be read, and it is empty
if the reader lost its way. -/
def parse (text : String) : Pass (List (Stmt Unit)) :=
  tryCatch (readProgram trees (scan text)) fun
    | .lost => return []
    | abort => throw abort

end Pass

/-! ### The passes -/

namespace Report

/-- What comes of a pass: something, unless it was given up. -/
def outcome {α : Type} : EStateM.Result Abort Report α → Report × Option α
  | .ok value report => (report, some value)
  | .error _ report => (report, none)

/-- Scans a text: its tokens, unless the report got full. -/
def scanText (report : Report) (text : String) : Report × Option (List Token) :=
  outcome (Pass.scanAll (scan text) (report.setSource text))

/-- Parses a text: its tree, unless the report got full. -/
def parseText (report : Report) (text : String) : Report × Option (List (Stmt Unit)) :=
  outcome (Pass.parse text (report.setSource text))

/-- What comes of resolving a tree. -/
inductive Resolved where
  /-- The report got full. -/
  | full
  /-- The tree is nested too deeply. -/
  | tooDeep
  | done (tree : List (Stmt Hops))

/-- Resolves a tree, with room for a number of calls. -/
def resolveTree (report : Report) (tree : List (Stmt Unit)) (room : Nat := maxNesting) :
    Report × Resolved :=
  match (resolveAll .topLevel room tree : Pass (List (Stmt Hops))) report with
  | .ok tree report => (report, .done tree)
  | .error .tooDeep report => (report, .tooDeep)
  | .error _ report => (report, .full)

end Report

end Lox
