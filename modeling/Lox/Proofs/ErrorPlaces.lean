/-
**Where programs go wrong.** The errors of a run point into the texts that were run.

* `Run.Points`: a step that goes wrong does so at a known token, and the functions on the machine go
  on to hold known tokens only, which is what a call of one of them needs. `pointsWithin` is the
  induction over nested evaluation.
* `Session.Ran` is a session with the texts that have reached evaluation in it. `Ran.carries`: its
  functions hold tokens of these texts.
* `Ran.points`: an error that a text ends with is at a token of that text or of one of those before.
-/

import Lox.Proofs.Carried
import Lox.Proofs.Chunks
import Lox.Proofs.Culprits
import Lox.Proofs.Dialogue
import Lox.Proofs.ResolvedTokens

namespace Lox

/-- The tokens of code are known. -/
def Familiar (known : Token → Prop) (code : Function Hops × Bool) : Prop :=
  ∀ token ∈ code.1.tokens, known token

theorem Familiar.body {known : Token → Prop} {code : Function Hops × Bool}
    (familiar : Familiar known code) : ∀ token ∈ tokensIn code.1.body, known token := by
  obtain ⟨⟨name, params, body⟩, initializes⟩ := code
  intro token member
  exact familiar token (List.mem_cons_of_mem _ (List.mem_append_right _ member))

variable {known : Token → Prop}

/-! ### Steps on familiar machines -/

namespace Run

variable {α : Type}

/-- On a machine with familiar functions, a step goes wrong only at known tokens, leaves such a
machine behind, and something is known about its result. -/
abbrev Points (known : Token → Prop) (run : Run α) (post : α → Prop) : Prop :=
  Keeps (Familiar known) known run post

/-- **A call goes wrong at the tokens of the function.** -/
theorem Points.invoke {step : Nat → Stmt Hops → Run Completion}
    (each : ∀ frame stmt, (∀ token ∈ stmt.tokens, known token) →
      Points known (step frame stmt) fun _ => True)
    {closure : Closure} (familiar : Familiar known closure.code) (args : List Value) :
    Points known (invoke .direct step closure args) fun _ => True := by
  have body := familiar.body
  rw [tokensIn_eq, List.forall_mem_flatMap] at body
  refine Keeps.newFrame.bind fun inner _ => (Keeps.defineAll _ _).bind fun _ _ => ?_
  refine (Keeps.untilReturn fun stmt member => each inner stmt (body stmt member)).bind
    fun _ _ => ?_
  exact .of_still .callResult

end Run

/-! ### Trees -/

open Run

/-- With some room for nested evaluation, what goes wrong does so at known tokens. -/
structure PointsWithin (known : Token → Prop) (fuel room : Nat) : Prop where
  expr : ∀ (frame : Nat) (expr : Expr Hops), (∀ token ∈ expr.tokens, known token) →
    Points known (Expr.eval .direct fuel room frame expr) fun _ => True
  stmt : ∀ (frame : Nat) (stmt : Stmt Hops), (∀ token ∈ stmt.tokens, known token) →
    Points known (Stmt.exec .direct fuel room frame stmt) fun _ => True
  call : ∀ (callee : Value) (args : List Value),
    Points known (callValue .direct fuel room callee args) fun _ => True

section Trees

variable {fuel room : Nat} (points : PointsWithin known fuel room)

include points

theorem Expr.eval_points (frame : Nat) (expr : Expr Hops)
    (here : ∀ token ∈ expr.tokens, known token) :
    Points known (Expr.eval .direct fuel (room + 1) frame expr) fun _ => True := by
  cases expr with
  | assign target value =>
      obtain ⟨name, inner⟩ := List.forall_mem_cons.mp here
      refine (points.expr frame value inner).bind fun value _ => ?_
      exact (Keeps.assign name).bind fun _ _ => .pure trivial
  | binary left op token right =>
      obtain ⟨first, sign, second⟩ :=
        (List.forall_mem_append.mp here).imp_right List.forall_mem_cons.mp
      refine (points.expr frame left first).bind fun _ _ => ?_
      refine (points.expr frame right second).bind fun _ _ => ?_
      exact .of_still (.applyBinary sign)
  | call callee paren args =>
      obtain ⟨first, rest⟩ := List.forall_mem_append.mp here
      obtain ⟨each, last⟩ := List.forall_mem_append.mp rest
      rw [argumentTokens_eq, List.forall_mem_flatMap] at each
      refine (points.expr frame callee first).bind fun callee _ => ?_
      refine (Keeps.collect fun arg member => points.expr frame arg (each arg member)).bind
        fun args _ => ?_
      have closing := last paren (List.mem_singleton_self paren)
      exact (Keeps.of_still (.checkCall closing)).bind fun _ _ => points.call callee args
  | get object name =>
      obtain ⟨inner, last⟩ := List.forall_mem_append.mp here
      refine (points.expr frame object inner).bind fun value _ => ?_
      have named := last name (List.mem_singleton_self name)
      cases value with
      | instance_ id => exact .getProperty named
      | _ => exact .fail named
  | grouping inner => exact points.expr frame inner here
  | literal value => exact .pure trivial
  | logical left op token right =>
      obtain ⟨first, _, second⟩ :=
        (List.forall_mem_append.mp here).imp_right List.forall_mem_cons.mp
      refine (points.expr frame left first).bind fun value _ => ?_
      by_cases short : shortCircuits op value = true
      · simp only [if_pos short]
        exact .pure trivial
      · simp only [if_neg short]
        exact points.expr frame right second
  | set object name value =>
      obtain ⟨first, named, second⟩ :=
        (List.forall_mem_append.mp here).imp_right List.forall_mem_cons.mp
      refine (points.expr frame object first).bind fun holder _ => ?_
      cases holder with
      | instance_ id =>
          refine (points.expr frame value second).bind fun value _ => ?_
          exact Keeps.setField.bind fun _ _ => .pure trivial
      | _ => exact .fail named
  | super keyword method =>
      have named := here method (List.mem_cons_of_mem _ (List.mem_singleton_self method))
      exact .superMethod named
  | this keyword => exact .of_still (.follow (here _ (List.mem_singleton_self _)))
  | unary sign token right =>
      obtain ⟨signed, inner⟩ := List.forall_mem_cons.mp here
      refine (points.expr frame right inner).bind fun _ _ => ?_
      exact .of_still (.applySign signed)
  | var name => exact .of_still (.follow (here _ (List.mem_singleton_self _)))

theorem Stmt.exec_points (frame : Nat) (stmt : Stmt Hops)
    (here : ∀ token ∈ stmt.tokens, known token) :
    Points known (Stmt.exec .direct fuel (room + 1) frame stmt) fun _ => True := by
  have defines : ∀ {name : String} {value : Value},
      Points known (define frame name value) fun _ => True :=
    .define
  cases stmt with
  | block body =>
      rw [Stmt.tokens, tokensIn_eq, List.forall_mem_flatMap] at here
      refine Keeps.newFrame.bind fun inner _ => ?_
      exact .untilReturn fun stmt member => points.stmt inner stmt (here stmt member)
  | function decl =>
      have familiar : Familiar known (Closure.code ⟨decl, frame, false⟩) := here
      refine (Keeps.newFunction familiar).bind fun made _ => ?_
      exact defines.bind fun _ _ => .pure trivial
  | class_ name superclass methods =>
      obtain ⟨parent, each⟩ := List.forall_mem_append.mp (List.forall_mem_cons.mp here).2
      rw [methodTokens_eq, List.forall_mem_flatMap] at each
      have inherits : ∀ reference ∈ superclass, known reference.token := fun reference member =>
        parent _ (List.mem_map_of_mem (Option.mem_toList.mpr member))
      refine (Keeps.declareClass inherits each).bind fun _ _ => ?_
      exact .pure trivial
  | expression value => exact (points.expr frame value here).bind fun _ _ => .pure trivial
  | ifThen cond yes =>
      obtain ⟨test, branch⟩ := List.forall_mem_append.mp here
      refine (points.expr frame cond test).bind fun value _ => ?_
      by_cases holds : value.isTruthy = true
      · simp only [if_pos holds]
        exact points.stmt frame yes branch
      · simp only [if_neg holds]
        exact .pure trivial
  | ifElse cond yes no =>
      obtain ⟨test, first, second⟩ :=
        (List.forall_mem_append.mp here).imp_right List.forall_mem_append.mp
      refine (points.expr frame cond test).bind fun value _ => ?_
      by_cases holds : value.isTruthy = true
      · simp only [if_pos holds]
        exact points.stmt frame yes first
      · simp only [if_neg holds]
        exact points.stmt frame no second
  | print keyword value =>
      refine (points.expr frame value (List.forall_mem_cons.mp here).2).bind fun _ _ => ?_
      exact Keeps.print.bind fun _ _ => .pure trivial
  | return_ keyword arg =>
      cases arg with
      | none => exact .pure trivial
      | some value =>
          exact (points.expr frame value (List.forall_mem_cons.mp here).2).bind fun _ _ =>
            .pure trivial
  | var name init =>
      cases init with
      | none => exact defines.bind fun _ _ => .pure trivial
      | some init =>
          refine (points.expr frame init (List.forall_mem_cons.mp here).2).bind fun _ _ => ?_
          exact defines.bind fun _ _ => .pure trivial
  | while_ cond body =>
      obtain ⟨test, branch⟩ := List.forall_mem_append.mp here
      exact .loop fuel (points.expr frame cond test) (points.stmt frame body branch)

theorem callValue_points (callee : Value) (args : List Value) :
    Points known (callValue .direct fuel (room + 1) callee args) fun _ => True := by
  cases callee with
  | native id => exact .callNative
  | function id =>
      refine Keeps.closureOf.bind fun closure familiar => ?_
      exact Points.invoke points.stmt familiar args
  | class_ id =>
      refine Keeps.newInstance.bind fun made _ => ?_
      refine Keeps.initializerOf.bind fun initializer found => ?_
      cases initializer with
      | none => exact .pure trivial
      | some method =>
          refine (Keeps.bindMethod (found method rfl)).bind fun bound familiar => ?_
          exact (Points.invoke points.stmt familiar args).bind fun _ _ => .pure trivial
  | _ => exact .misbound

end Trees

/-- The induction is on the room: nested evaluation has less of it. -/
theorem pointsWithin (known : Token → Prop) (fuel room : Nat) : PointsWithin known fuel room := by
  induction room with
  | zero => exact ⟨fun _ _ _ => .throw nofun, fun _ _ _ => .throw nofun, fun _ _ => .throw nofun⟩
  | succ room ih => exact ⟨Expr.eval_points ih, Stmt.exec_points ih, callValue_points ih⟩

/-- **Programs go wrong at their own tokens**, or at those of functions that were there. -/
theorem runStatements_points (fuel room : Nat) {tree : List (Stmt Hops)}
    (here : ∀ token ∈ tokensIn tree, known token) :
    Points known (runStatements .direct fuel room tree) fun _ => True := by
  induction tree with
  | nil => exact .pure trivial
  | cons stmt more ih =>
      obtain ⟨first, rest⟩ := List.forall_mem_append.mp here
      exact ((pointsWithin known fuel room).stmt _ stmt first).bind fun _ _ => ih rest

theorem runProgram_points {tree : List (Stmt Hops)} (here : ∀ token ∈ tokensIn tree, known token)
    {machine : Machine} (carries : machine.Carries (Familiar known)) (limits : Limits) :
    (runProgram tree machine limits).1.Carries (Familiar known) ∧
      ∀ error token, (runProgram tree machine limits).2 = some (.error error token) →
        known token := by
  have points := runStatements_points limits.turns limits.room here
  refine ⟨?_, fun error token failed => ?_⟩
  · rw [runProgram_machine]
    exact points.carries carries
  · unfold runProgram at failed
    split at failed
    · cases failed
    · rename_i ended
      cases failed
      exact points.fails carries ended token rfl

/-! ### Sessions -/

/-- A token is one of a text: scanning the text gives it, on whatever report, and its lexeme stands
at its offset there, in its line. -/
structure Locates (text : String) (token : Token) : Prop where
  scanned : ∀ report : Report, ∃ tokens, (report.scanText text).2 = some tokens ∧ token ∈ tokens
  stands : Stands text.toList token.lexeme.toList token.line token.offset

/-- **The tokens of a text that passes are tokens of its scan.** -/
theorem Passes.tokens_subset {text : String} {tree : List (Stmt Hops)} {room : Nat}
    (passes : Passes text tree room) : tokensIn tree ⊆ tokensOf (scan text) := by
  rw [resolveAll_tokens _ passes.yields]
  exact (parse_tokens_subperm text).subset

/-- **The tokens of a text that passes are located in it.** -/
theorem Passes.locates {text : String} {tree : List (Stmt Hops)} {room : Nat}
    (passes : Passes text tree room) : ∀ token ∈ tokensIn tree, Locates text token := by
  intro token member
  have inside := passes.tokens_subset member
  have quiet : faultsOf (scan text) = [] := by rw [← parse_faults, passes.parsed]; rfl
  refine ⟨fun report => ⟨_, ?_, inside⟩, scan_token_stands inside⟩
  rw [report.scanText_faultless quiet]

theorem Machine.Carries.mono {fine other : Function Hops × Bool → Prop} {machine : Machine}
    (weaker : ∀ code, fine code → other code) (carries : machine.Carries fine) :
    machine.Carries other :=
  ⟨fun closure member => weaker _ (carries.functions closure member),
    fun class_ member method inside => weaker _ (carries.methods class_ member method inside)⟩

namespace Session

/-- Whether a text reaches evaluation in a session: texts are run and not only checked, no issue is
left from before, and nothing is wrong with the text. -/
def reaches (session : Session) (text : String) : Bool :=
  !session.checkOnly && session.report.ok && compiles session.limits.nesting text

/-- A text that reaches evaluation is run, as the tree that it passes with. -/
theorem run_of_reaches {session : Session} {text : String} (reaches : session.reaches text = true) :
    ∃ tree report, Passes text tree session.limits.nesting ∧
      session.run text = session.runTree report tree := by
  simp only [Session.reaches, compiles, Bool.and_eq_true, Bool.not_eq_true', Report.ok,
    Array.isEmpty_iff, List.isEmpty_iff] at reaches
  obtain ⟨⟨runs, well⟩, ⟨parsed, resolved⟩, whole⟩ := reaches
  obtain ⟨tree, passes⟩ := exists_passes ⟨parsed, resolved, whole⟩
  obtain ⟨report, _, same⟩ := session.run_eq runs well passes
  exact ⟨tree, report, passes, same⟩

/-- Another text leaves the machine alone, and does not end with an error of the program. -/
theorem run_of_not_reaches {session : Session} {text : String}
    (stops : session.reaches text = false) :
    (session.run text).1.machine = session.machine ∧
      (session.run text).2 ≠ some .runtimeError := by
  have rejects : ∀ report, (session.reject report).1.machine = session.machine ∧
      (session.reject report).2 ≠ some .runtimeError :=
    fun _ => ⟨rfl, by simp [reject]⟩
  unfold run
  split
  · exact ⟨rfl, (Option.some_ne_none _).symm⟩
  · rename_i report tree parsed
    split
    · exact rejects report
    · rename_i well
      obtain ⟨clean, rfl⟩ := Report.parseText_sound parsed well
      simp only
      split
      · exact ⟨rfl, (Option.some_ne_none _).symm⟩
      · split
        · exact ⟨rfl, (Option.some_ne_none _).symm⟩
        · exact rejects _
      · rename_i next resolved done
        split
        · exact rejects next
        · rename_i fine
          obtain ⟨quiet, found⟩ := Report.resolveTree_sound done fine
          have passes : Passes text resolved session.limits.nesting := ⟨clean, quiet, found⟩
          have ok : session.report.ok = true := by
            rw [Report.parseText_clean clean] at parsed
            cases parsed
            have ok : (session.report.setSource text).ok = true := by
              simpa [Report.sick] using well
            exact ok
          have only : session.checkOnly = true := by
            simpa [Session.reaches, ok, passes.compiles] using stops
          unfold proceed
          rw [if_pos only]
          exact ⟨rfl, by simp⟩

/-- A session, and the texts that have reached evaluation in it, the last one first. The report may
be reset between texts. -/
inductive Ran : Session → List String → Prop
  | start (report : Report) (time : Clock) (checkOnly : Bool) (limits : Limits) :
    Ran (.start report time checkOnly limits) []
  | run {session : Session} {texts : List String} (ran : Ran session texts) (text : String) :
    Ran (session.run text).1 (if session.reaches text then text :: texts else texts)
  | reset {session : Session} {texts : List String} (ran : Ran session texts) :
    Ran session.reset texts

/-- A token is one of the texts. -/
def LocatedIn (texts : List String) (token : Token) : Prop :=
  ∃ text ∈ texts, Locates text token

/-- What a text does that reaches evaluation, where functions hold tokens of earlier texts. -/
theorem runProgram_located {texts : List String} {machine : Machine}
    (carries : machine.Carries (Familiar (LocatedIn texts))) {text : String}
    {tree : List (Stmt Hops)} {limits : Limits} (passes : Passes text tree limits.nesting) :
    (runProgram tree machine limits).1.Carries (Familiar (LocatedIn (text :: texts))) ∧
      ∀ error token, (runProgram tree machine limits).2 = some (.error error token) →
        LocatedIn (text :: texts) token := by
  have further : ∀ code, Familiar (LocatedIn texts) code →
      Familiar (LocatedIn (text :: texts)) code := by
    intro code familiar token member
    obtain ⟨source, earlier, located⟩ := familiar token member
    exact ⟨source, List.mem_cons_of_mem _ earlier, located⟩
  refine runProgram_points (fun token member => ?_) (carries.mono further) limits
  exact ⟨text, List.mem_cons_self, passes.locates token member⟩

/-- **The functions of a session hold tokens of the texts that were evaluated.** -/
theorem Ran.carries {session : Session} {texts : List String} (ran : session.Ran texts) :
    session.machine.Carries (Familiar (LocatedIn texts)) := by
  induction ran with
  | start report time checkOnly limits =>
      refine ⟨fun closure member => ?_, fun class_ member => ?_⟩
      · exact absurd member (Array.not_mem_empty closure)
      · exact absurd member (Array.not_mem_empty class_)
  | @run session texts ran text ih =>
      cases reaches : session.reaches text with
      | false =>
          rw [(run_of_not_reaches reaches).1, if_neg Bool.false_ne_true]
          exact ih
      | true =>
          obtain ⟨tree, report, passes, same⟩ := run_of_reaches reaches
          rw [same, if_pos rfl]
          exact (runProgram_located ih passes).1
  | reset ran ih => exact ih

/-- **Errors of a program point into its texts.** If a text ends with an error in a session, it has
reached evaluation. What is said is how the evaluation failed; and if it failed at a token, that is
one of the text itself or of an earlier one that has reached evaluation. -/
theorem Ran.points {session : Session} {texts : List String} (ran : session.Ran texts)
    {text : String} (failed : (session.run text).2 = some .runtimeError) :
    session.reaches text = true ∧
    ∃ tree failure report, Passes text tree session.limits.nesting ∧
      (runProgram tree session.machine session.limits).2 = some failure ∧
      (session.run text).1.report = explain report (some failure) ∧
      ∀ error token, failure = .error error token →
        ∃ source ∈ text :: texts, Locates source token := by
  cases reaches : session.reaches text with
  | false => exact absurd failed (run_of_not_reaches reaches).2
  | true =>
      obtain ⟨tree, report, passes, same⟩ := run_of_reaches reaches
      rw [same, runTree] at failed ⊢
      cases ended : (runProgram tree session.machine session.limits).2 with
      | none =>
          simp only [ended] at failed
          cases failed
      | some failure =>
          refine ⟨rfl, tree, failure, report, passes, ended, by simp only [ended], ?_⟩
          rintro error token rfl
          exact (runProgram_located ran.carries passes).2 error token ended

/-- A text whose function negates what it is given. -/
def earlierText : String :=
  "fun flip(a) \x7b\n  return -a;\n\x7d"

/-- A session in which that text was run, and then one that does not compile. -/
def flippedSession : Session :=
  ((((Session.start {} .zero false).run earlierText).1.run "print ;").1).reset

theorem Ran.points_flipped :
    flippedSession.Ran [earlierText] ∧
    (flippedSession.run "flip(nil);").2 = some .runtimeError ∧
    (flippedSession.run "flip(nil);").1.report.written =
      "[line 1] Error at ';': Expect expression.\n" ++
        "[line 2] Runtime Error: Operand must be a number.\n" ∧
    ∃ tree failure report, Passes "flip(nil);" tree flippedSession.limits.nesting ∧
      (runProgram tree flippedSession.machine flippedSession.limits).2 = some failure ∧
      (flippedSession.run "flip(nil);").1.report = explain report (some failure) ∧
      ∀ error token, failure = .error error token →
        ∃ source ∈ ["flip(nil);", earlierText], Locates source token := by
  have first : (Session.start {} .zero false).reaches earlierText = true := by decide +kernel
  have second : ((Session.start {} .zero false).run earlierText).1.reaches "print ;" = false := by
    decide +kernel
  have ran := Ran.reset ((Ran.start {} .zero false {}).run earlierText |>.run "print ;")
  rw [if_pos first, second, if_neg Bool.false_ne_true] at ran
  have failed : (flippedSession.run "flip(nil);").2 = some .runtimeError := by decide +kernel
  exact ⟨ran, failed, by decide +kernel, (ran.points failed).2⟩

end Session

end Lox
