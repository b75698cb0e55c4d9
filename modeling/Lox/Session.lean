/-
**Sessions.** Running one text after the other on the same machine.

* `Session.run` parses, resolves and runs a text; the report decides at each stage whether to go
  on. A text with issues leaves no trace on the machine.
* `Machine.globalsShown` lists the globals for display.
-/

import Lox.Eval
import Lox.Passes

namespace Lox

/-- How a text fared. -/
inductive Outcome where
  | ok | usage | compileError | runtimeError
  /-- Its run does not end. -/
  | endless
deriving DecidableEq

/-- The exit status of an outcome. There is none if the run does not end. -/
def Outcome.status? : Outcome → Option Nat
  | ok => some 0
  | usage => some 64
  | compileError => some 65
  | runtimeError => some 70
  | endless => none

/-- The exit status of an outcome of a run that ends. -/
def Outcome.code (outcome : Outcome) : Nat :=
  outcome.status?.getD 0

/-- The outcome of a run that failed or not. -/
def Outcome.ofFailure : Option Failure → Outcome
  | none => ok
  | some .exhausted => endless
  | some _ => runtimeError

/-- The native function that tells the time, in milliseconds. -/
def clock : Native where
  name := "clock"
  arity := 0
  timed := true
  body _ args := args.headD .nil

/-- A machine on which programs run: the one global is for reading the clock. -/
def Machine.standard (time : Clock) : Machine :=
  { Machine.fresh with clock := time }.defineNative Lox.clock

/-- A machine that lives on from one text to the next. -/
structure Session where
  report : Report
  machine : Machine
  /-- The number of references to local declarations in the texts that were run. -/
  resolved : Nat := 0
  /-- Whether texts are only checked, and not run. -/
  checkOnly : Bool := false
  limits : Limits := {}

namespace Session

/-- A session on a new machine. -/
def start (report : Report) (time : Clock) (checkOnly : Bool) (limits : Limits := {}) : Session :=
  { report, machine := .standard time, checkOnly, limits }

/-- Complains about the issues of a text. -/
def reject (session : Session) (report : Report) : Session × Option Outcome :=
  ({ session with report := report.complain }, some .compileError)

/-- Says how a run failed, if it did. Nothing is said about a run that does not end. -/
def explain (report : Report) : Option Failure → Report
  | none | some .exhausted => report
  | some (.error error token) => report.runtimeError token.line error.message
  | some _ => report.stackOverflow

/-- Runs a tree. -/
def runTree (session : Session) (report : Report) (tree : List (Stmt Hops)) :
    Session × Option Outcome :=
  let (machine, failure) := runProgram tree session.machine session.limits
  let resolved := session.resolved + (distances tree).length
  ({ session with report := explain report failure, machine, resolved }, some (.ofFailure failure))

/-- Checks a resolved tree, and runs it unless checking is all there is to do. -/
def proceed (session : Session) (report : Report) (tree : List (Stmt Hops)) :
    Session × Option Outcome :=
  let count := (distances tree).length
  let report := report.info ["Resolved " ++ toString count ++ " local reference(s)."]
  if session.checkOnly then ({ session with report }, some .ok) else session.runTree report tree

/-- Runs a text. There is no outcome if the report got full. -/
def run (session : Session) (text : String) : Session × Option Outcome :=
  match session.report.parseText text with
  | (report, none) => ({ session with report }, none)
  | (report, some tree) =>
    if report.sick then session.reject report
    else
      let report := report.info ["Parsed " ++ toString tree.length ++ " statement(s)."]
      match report.resolveTree tree session.limits.nesting with
      | (report, .full) => ({ session with report }, none)
      | (report, .tooDeep) =>
        match report.fileAll [.nesting] with
        | (report, true) => ({ session with report }, none)
        | (report, false) => session.reject report
      | (report, .done tree) =>
        if report.sick then session.reject report else session.proceed report tree

/-- The session with its report reset. -/
def reset (session : Session) : Session :=
  { session with report := session.report.reset }

end Session

/-! ### Showing globals -/

/-- A value for display: what can be called with its arity, and instances with their fields. -/
inductive Shown where
  | plain (text : String)
  | callable (text : String) (arity : Nat)
  | instance_ (text : String) (fields : List (String × String))

/-- Bindings in the order of their names. -/
def sortBindings {α : Type} (bindings : Bindings α) : Bindings α :=
  bindings.mergeSort fun first second => first.1 ≤ second.1

namespace Machine

/-- A value for display. -/
def show_ (machine : Machine) (value : Value) : Shown :=
  match machine.arity? value, value with
  | some arity, _ => .callable (machine.text value) arity
  | none, .instance_ id =>
    let fields := (machine.instances[id]?.map Instance.fields).getD []
    .instance_ (machine.text value)
      ((sortBindings fields).map fun (name, value) => (name, machine.text value))
  | none, _ => .plain (machine.text value)

/-- The globals for display, in the order of their names. -/
def globalsShown (machine : Machine) : List (String × Shown) :=
  (sortBindings (machine.store.bindings globals)).map fun (name, value) =>
    (name, machine.show_ value)

end Machine

end Lox
