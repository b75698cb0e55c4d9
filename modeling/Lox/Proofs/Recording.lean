/-
**Recorded runs.** Runs that write a log of what they do.

* `Operation` is something that is written when it is over, with the machine before and after it: a
  single step, or something that consists of steps. `Event` is something that is written when it
  happens: statements and calls begin and end, and loops take turns.
* A `Recorder` says which of them go into the log, and in which form.
* `Stmt.recorded` and its companions run trees as `Stmt.exec` and its companions do, with a log that
  is still there when the run fails.
* `recordedStatements_follows`: but for the log it is the same run, whatever is written.
-/

import Lox.Proofs.RunLogic

namespace Lox

/-! ### What can be written -/

/-- How a computation ends, with the machine that it leaves behind. -/
abbrev RunResult := EStateM.Result Failure Machine

/-- Something that was done in a run. -/
inductive Operation where
  /-- A step that changes the machine at most once. -/
  | step (after : Machine)
  /-- An expression was evaluated in a frame. -/
  | eval (frame : Nat) (expr : Expr Hops) (before : Machine) (result : RunResult Value)
  /-- A statement was executed in a frame. -/
  | exec (frame : Nat) (stmt : Stmt Hops) (before : Machine) (result : RunResult Completion)
  /-- A function was called. -/
  | call (closure : Closure) (args : List Value) (before : Machine) (result : RunResult Value)
  /-- A method was bound to an instance. -/
  | bind (method : Closure) (instance_ : Nat) (before : Machine) (result : RunResult Closure)
  /-- A frame was made for the methods of a class with a superclass. -/
  | inherit (frame superclass : Nat) (before : Machine) (result : RunResult Nat)

/-- The machine when an operation is over. -/
def Operation.after : Operation → Machine
  | step after => after
  | eval _ _ _ result => leftBehind result
  | exec _ _ _ result => leftBehind result
  | call _ _ _ result => leftBehind result
  | bind _ _ _ result => leftBehind result
  | inherit _ _ _ result => leftBehind result

/-- Something that happens in a run. -/
inductive Event where
  /-- A statement begins. -/
  | begins (stmt : Stmt Hops)
  /-- A loop begins another turn, and tests its condition. -/
  | turns (cond : Expr Hops)
  /-- A statement ends. -/
  | ends (stmt : Stmt Hops) (completion : Completion)
  /-- A call of a function begins. -/
  | enters (closure : Closure)
  /-- The body of a function that was called is over, and the call takes its completion. -/
  | leaves (closure : Closure) (completion : Completion)

/-- What is written in a run, and in which form. -/
structure Recorder (ε : Type) where
  operation : Operation → Option ε
  event : Event → Option ε

/-- Every operation is written, and no event. -/
def Recorder.operations : Recorder Operation :=
  ⟨some, fun _ => none⟩

/-- Every event is written, and no operation. -/
def Recorder.events : Recorder Event :=
  ⟨fun _ => none, some⟩

/-- A computation that also writes a log, the last entry at the end. What was written before it
failed stays written. -/
abbrev Recorded (ε : Type) := EStateM Failure (Machine × List ε)

variable {ε α β : Type}

/-- A log with one more entry, if there is one. -/
def extended (log : List ε) : Option ε → List ε
  | none => log
  | some entry => log ++ [entry]

/-- A computation during which nothing is written. -/
def Recorded.silent (run : Run α) : Recorded ε α := fun state =>
  match run state.1 with
  | .ok value machine => .ok value (machine, state.2)
  | .error failure machine => .error failure (machine, state.2)

namespace Recorder

variable (recorder : Recorder ε)

/-- Writes an event. -/
def note (event : Event) : Recorded ε Unit :=
  modify fun state => (state.1, extended state.2 (recorder.event event))

/-- Writes what a computation was, and how it ended. -/
def performed (operation : Machine → RunResult α → Operation) (run : Recorded ε α) : Recorded ε α :=
  fun state =>
    match run state with
    | .ok value (machine, log) => .ok value
      (machine, extended log (recorder.operation (operation state.1 (.ok value machine))))
    | .error failure (machine, log) => .error failure
      (machine, extended log (recorder.operation (operation state.1 (.error failure machine))))

/-- A single step. -/
def step (run : Run α) : Recorded ε α :=
  recorder.performed (fun _ result => .step (leftBehind result)) (.silent run)

/-- Lets names stand for values in a frame. -/
def defineAll (frame : Nat) : List Token → List Value → Recorded ε Unit
  | name :: names, value :: values => do
    recorder.step (Run.define frame name.lexeme value)
    defineAll frame names values
  | _, _ => pure ()

/-- A method as a function of its own, in a frame where `this` is an instance. -/
def bindMethod (method : Closure) (instance_ : Nat) : Recorded ε Closure :=
  recorder.performed (.bind method instance_) do
    let frame ← recorder.step (Run.newFrame method.frame)
    recorder.step (Run.define frame thisName (.instance_ instance_))
    pure { method with frame }

/-- A method as a value, bound to an instance. -/
def newMethod (method : Closure) (instance_ : Nat) : Recorded ε Value := do
  let bound ← recorder.bindMethod method instance_
  recorder.step (Run.newFunction bound)

/-- A property of an instance: a field, or else a method of its class. -/
def getProperty (id : Nat) (name : Token) : Recorded ε Value := do
  let state ← get
  match state.1.instances[id]? with
  | none => throw .misbound
  | some found =>
    match found.fields.get? name.lexeme with
    | some value => pure value
    | none =>
      match state.1.hierarchy.method? name.lexeme found.class_ with
      | some method => recorder.newMethod method id
      | none => recorder.step (Run.fail name (.undefinedProperty name.lexeme))

/-- The method that `super` names, bound to the instance that `this` is. -/
def superMethod (frame : Nat) (keyword : Reference Hops) (name : Token) : Recorded ε Value := do
  match keyword.target with
  | none => throw (.access (.unbound superName))
  | some hops =>
    let superclass ← recorder.step (Run.getAt frame hops superName)
    let this ← recorder.step (Run.getAt frame (hops - 1) thisName)
    match superclass, this with
    | .class_ superclass, .instance_ this =>
      let state ← get
      match state.1.hierarchy.method? name.lexeme superclass with
      | some method => recorder.newMethod method this
      | none => recorder.step (Run.fail name (.undefinedProperty name.lexeme))
    | _, _ => throw .misbound

/-- A frame in which `super` stands for a class. -/
def inherit (frame superclass : Nat) : Recorded ε Nat :=
  recorder.performed (.inherit frame superclass) do
    let inner ← recorder.step (Run.newFrame frame)
    recorder.step (Run.define inner superName (.class_ superclass))
    pure inner

/-- Declares a class in a frame. -/
def declareClass (frame : Nat) (name : Token) (superclass : Option (Reference Hops))
    (methods : List (Function Hops)) : Recorded ε Unit := do
  match superclass with
  | none =>
    recorder.step (Run.define frame name.lexeme .nil)
    let made ← recorder.step (Run.newClass name.lexeme none (Run.methodsIn frame methods))
    recorder.step (Run.define frame name.lexeme made)
  | some reference =>
    let parent ← recorder.step (Run.superclassOf .direct frame reference)
    recorder.step (Run.define frame name.lexeme .nil)
    let inner ← recorder.inherit frame parent
    let made ← recorder.step (Run.newClass name.lexeme (some parent) (Run.methodsIn inner methods))
    recorder.step (Run.define frame name.lexeme made)

/-- Executes a statement, given how what it consists of is executed. -/
def statement (frame : Nat) (stmt : Stmt Hops) (run : Recorded ε Completion) :
    Recorded ε Completion :=
  recorder.performed (.exec frame stmt) do
    recorder.note (.begins stmt)
    let completion ← run
    recorder.note (.ends stmt completion)
    pure completion

/-- Calls a function, given how statements are executed. -/
def invoke (exec : Nat → Stmt Hops → Recorded ε Completion) (closure : Closure)
    (args : List Value) : Recorded ε Value :=
  recorder.performed (.call closure args) do
    recorder.note (.enters closure)
    let inner ← recorder.step (Run.newFrame closure.frame)
    recorder.defineAll inner closure.decl.params args
    let completion ← Run.untilReturn (exec inner) closure.decl.body
    recorder.note (.leaves closure completion)
    recorder.step (Run.callResult .direct closure completion)

end Recorder

/-! ### Running trees with a log -/

open Run

section Trees

variable (recorder : Recorder ε) (fuel : Nat)

mutual

/-- Evaluates an expression in a frame, with a log. -/
def Expr.recorded : (room : Nat) → (frame : Nat) → Expr Hops → Recorded ε Value
  | 0, _, _ => throw .overflow
  | room + 1, frame, expr =>
    recorder.performed (.eval frame expr) <| match expr with
    | .assign target value => do
      let value ← Expr.recorded room frame value
      recorder.step (assign frame target value)
      pure value
    | .binary left op token right => do
      let left ← Expr.recorded room frame left
      let right ← Expr.recorded room frame right
      recorder.step (applyBinary op token left right)
    | .call callee paren args => do
      let callee ← Expr.recorded room frame callee
      let args ← collect (fun arg => Expr.recorded room frame arg) args
      recorder.step (checkCall paren callee args.length)
      recordedCall room callee args
    | .get object name => do
      match ← Expr.recorded room frame object with
      | .instance_ id => recorder.getProperty id name
      | _ => recorder.step (fail name .propertyOfNonInstance)
    | .grouping inner => Expr.recorded room frame inner
    | .literal value => pure (.ofLiteral value)
    | .logical left op _ right => do
      let left ← Expr.recorded room frame left
      if shortCircuits op left then pure left else Expr.recorded room frame right
    | .set object name value => do
      match ← Expr.recorded room frame object with
      | .instance_ id =>
        let value ← Expr.recorded room frame value
        recorder.step (setField id name.lexeme value)
        pure value
      | _ => recorder.step (fail name .fieldOfNonInstance)
    | .super keyword method => recorder.superMethod frame keyword method
    | .this keyword => recorder.step (Lookup.follow getAt frame keyword)
    | .unary sign token right => do
      let right ← Expr.recorded room frame right
      recorder.step (applySign sign token right)
    | .var name => recorder.step (Lookup.follow getAt frame name)

/-- Executes a statement in a frame, with a log. -/
def Stmt.recorded : (room : Nat) → (frame : Nat) → Stmt Hops → Recorded ε Completion
  | 0, _, _ => throw .overflow
  | room + 1, frame, stmt =>
    recorder.statement frame stmt <| match stmt with
    | .block body => do
      let inner ← recorder.step (newFrame frame)
      untilReturn (fun stmt => Stmt.recorded room inner stmt) body
    | .function decl => do
      let made ← recorder.step (newFunction ⟨decl, frame, false⟩)
      recorder.step (define frame decl.name.lexeme made)
      pure none
    | .class_ name superclass methods => do
      recorder.declareClass frame name superclass methods
      pure none
    | .expression value => do
      let _ ← Expr.recorded room frame value
      pure none
    | .ifThen cond yes => do
      let test ← Expr.recorded room frame cond
      if test.isTruthy then Stmt.recorded room frame yes else pure none
    | .ifElse cond yes no => do
      let test ← Expr.recorded room frame cond
      if test.isTruthy then Stmt.recorded room frame yes else Stmt.recorded room frame no
    | .print _ value => do
      let value ← Expr.recorded room frame value
      recorder.step (print value)
      pure none
    | .return_ _ none => pure (some .nil)
    | .return_ _ (some value) => do
      let value ← Expr.recorded room frame value
      pure (some value)
    | .var name none => do
      recorder.step (define frame name.lexeme .nil)
      pure none
    | .var name (some init) => do
      let value ← Expr.recorded room frame init
      recorder.step (define frame name.lexeme value)
      pure none
    | .while_ cond body =>
      loop (recorder.note (.turns cond) >>= fun _ => Expr.recorded room frame cond)
        (Stmt.recorded room frame body) fuel

/-- Calls a value that can be called, with a log. -/
def recordedCall : (room : Nat) → Value → List Value → Recorded ε Value
  | 0, _, _ => throw .overflow
  | room + 1, callee, args =>
    match callee with
    | .native id => recorder.step (callNative id args)
    | .function id => do
      let closure ← recorder.step (closureOf id)
      recorder.invoke (fun inner stmt => Stmt.recorded room inner stmt) closure args
    | .class_ id => do
      let made ← recorder.step (newInstance id)
      match ← recorder.step (initializerOf id) with
      | some method =>
        let bound ← recorder.bindMethod method made
        let _ ← recorder.invoke (fun inner stmt => Stmt.recorded room inner stmt) bound args
        pure (.instance_ made)
      | none => pure (.instance_ made)
    | _ => throw .misbound

end

/-- Runs statements at top level, with a log. -/
def recordedStatements (room : Nat) : List (Stmt Hops) → Recorded ε Unit
  | [] => pure ()
  | stmt :: more => do
    let _ ← Stmt.recorded recorder fuel room Machine.globals stmt
    recordedStatements room more

end Trees

/-! ### Without the log -/

/-- What a run with a log comes to without it. -/
def unrecorded : EStateM.Result Failure (Machine × List ε) α → RunResult α
  | .ok value state => .ok value state.1
  | .error failure state => .error failure state.1

theorem leftBehind_unrecorded (result : EStateM.Result Failure (Machine × List ε) α) :
    leftBehind (unrecorded result) = (leftBehind result).1 := by
  cases result <;> rfl

/-- But for the log, two computations are the same. -/
def Recorded.Follows (recorded : Recorded ε α) (run : Run α) : Prop :=
  ∀ state, unrecorded (recorded state) = run state.1

namespace Recorded.Follows

variable {recorder : Recorder ε}

theorem pure {value : α} : Follows (Pure.pure value : Recorded ε α) (Pure.pure value) :=
  fun _ => rfl

theorem throw {failure : Failure} :
    Follows (throwThe Failure failure : Recorded ε α) (throwThe Failure failure) :=
  fun _ => rfl

theorem bind {recorded : Recorded ε α} {run : Run α} {next : α → Recorded ε β}
    {next' : α → Run β} (first : recorded.Follows run)
    (then_ : ∀ value, (next value).Follows (next' value)) :
    Follows (recorded >>= next) (run >>= next') := by
  intro state
  show unrecorded (EStateM.bind recorded next state) = EStateM.bind run next' state.1
  unfold EStateM.bind
  rw [← first state]
  cases recorded state with
  | ok value later => exact then_ value later
  | error failure later => rfl

theorem get {next : Machine × List ε → Recorded ε α} {next' : Machine → Run α}
    (then_ : ∀ state, (next state).Follows (next' state.1)) :
    Follows (MonadState.get >>= next) (MonadState.get >>= next') :=
  fun state => then_ state state

/-- What is written makes no difference. -/
theorem note {event : Event} {next : Unit → Recorded ε β} {run : Run β}
    (then_ : (next ()).Follows run) : Follows (recorder.note event >>= next) run :=
  fun state => then_ (state.1, extended state.2 (recorder.event event))

theorem performed {operation : Machine → RunResult α → Operation} {recorded : Recorded ε α}
    {run : Run α} (follows : recorded.Follows run) :
    Follows (recorder.performed operation recorded) run := by
  intro state
  rw [← follows state]
  unfold Recorder.performed
  cases recorded state <;> rfl

theorem silent {run : Run α} : Follows (silent run : Recorded ε α) run := by
  intro state
  unfold Recorded.silent
  cases run state.1 <;> rfl

theorem step {run : Run α} : Follows (recorder.step run) run :=
  performed silent

theorem defineAll (frame : Nat) (names : List Token) (values : List Value) :
    Follows (recorder.defineAll frame names values) (Run.defineAll frame names values) := by
  induction names generalizing values with
  | nil => exact pure
  | cons name names ih =>
      cases values with
      | nil => exact pure
      | cons value values => exact step.bind fun _ => ih values

theorem bindMethod {method : Closure} {id : Nat} :
    Follows (recorder.bindMethod method id) (Run.bind method id) :=
  performed (step.bind fun _ => step.bind fun _ => pure)

theorem newMethod {method : Closure} {id : Nat} :
    Follows (recorder.newMethod method id) (Run.bind method id >>= newFunction) :=
  bindMethod.bind fun _ => step

theorem getProperty {id : Nat} {name : Token} :
    Follows (recorder.getProperty id name) (Run.getProperty id name) := by
  refine get fun state => ?_
  cases state.1.instances[id]? with
  | none => exact throw
  | some found =>
      cases own : found.fields.get? name.lexeme with
      | some value =>
          simp only [own]
          exact pure
      | none =>
          simp only [own]
          cases state.1.hierarchy.method? name.lexeme found.class_ with
          | none => exact step
          | some method => exact newMethod

theorem superMethod {frame : Nat} {keyword : Reference Hops} {name : Token} :
    Follows (recorder.superMethod frame keyword name)
      (Run.superMethod .direct frame keyword name) := by
  unfold Recorder.superMethod Run.superMethod
  cases keyword.target with
  | none => exact throw
  | some hops =>
      refine step.bind fun superclass => step.bind fun this => ?_
      cases superclass with
      | class_ superclass =>
          cases this with
          | instance_ this =>
              refine get fun state => ?_
              cases state.1.hierarchy.method? name.lexeme superclass with
              | none => exact step
              | some method => exact newMethod
          | _ => exact throw
      | _ => exact throw

theorem declareClass {frame : Nat} {name : Token} {superclass : Option (Reference Hops)}
    {methods : List (Function Hops)} :
    Follows (recorder.declareClass frame name superclass methods)
      (Run.declareClass .direct frame name superclass methods) := by
  cases superclass with
  | none => exact step.bind fun _ => step.bind fun _ => step
  | some reference =>
      refine step.bind fun parent => step.bind fun _ => ?_
      -- The frame and its binding are one operation here, and two steps of the run.
      have whole : Follows (do
            let inner ← recorder.inherit frame parent
            let made ← recorder.step
              (newClass name.lexeme (some parent) (methodsIn inner methods))
            recorder.step (define frame name.lexeme made))
          ((do
            let inner ← newFrame frame
            define inner superName (.class_ parent)
            Pure.pure inner) >>= fun inner => do
              let made ← newClass name.lexeme (some parent) (methodsIn inner methods)
              define frame name.lexeme made) :=
        (performed (step.bind fun _ => step.bind fun _ => pure)).bind fun _ =>
          step.bind fun _ => step
      simpa only [bind_assoc, pure_bind] using whole

theorem untilReturn {step : α → Recorded ε Completion} {step' : α → Run Completion}
    (follows : ∀ item, (step item).Follows (step' item)) (items : List α) :
    Follows (untilReturn step items) (Run.untilReturn step' items) := by
  induction items with
  | nil => exact pure
  | cons first more ih =>
      refine (follows first).bind fun completion => ?_
      cases completion with
      | none => exact ih
      | some value => exact pure

theorem collect {step : α → Recorded ε Value} {step' : α → Run Value}
    (follows : ∀ item, (step item).Follows (step' item)) (items : List α) :
    Follows (collect step items) (Run.collect step' items) := by
  induction items with
  | nil => exact pure
  | cons first more ih => exact (follows first).bind fun _ => ih.bind fun _ => pure

theorem loop {test : Recorded ε Value} {test' : Run Value} {body : Recorded ε Completion}
    {body' : Run Completion} (tests : test.Follows test') (follows : body.Follows body')
    (fuel : Nat) : Follows (loop test body fuel) (Run.loop test' body' fuel) := by
  induction fuel with
  | zero => exact throw
  | succ fuel ih =>
      refine tests.bind fun value => ?_
      by_cases holds : value.isTruthy = true
      · simp only [if_pos holds]
        refine follows.bind fun completion => ?_
        cases completion with
        | none => exact ih
        | some value => exact pure
      · simp only [if_neg holds]
        exact pure

theorem statement {frame : Nat} {stmt : Stmt Hops} {recorded : Recorded ε Completion}
    {run : Run Completion} (follows : recorded.Follows run) :
    Follows (recorder.statement frame stmt recorded) run := by
  refine performed (note ?_)
  have ended : Follows (recorded >>= fun completion => do
      recorder.note (.ends stmt completion)
      Pure.pure completion) (run >>= Pure.pure) :=
    follows.bind fun _ => note pure
  rwa [bind_pure] at ended

theorem invoke {exec : Nat → Stmt Hops → Recorded ε Completion}
    {exec' : Nat → Stmt Hops → Run Completion}
    (follows : ∀ frame stmt, (exec frame stmt).Follows (exec' frame stmt)) (closure : Closure)
    (args : List Value) :
    Follows (recorder.invoke exec closure args) (Run.invoke .direct exec' closure args) :=
  performed (note (step.bind fun inner => (defineAll inner _ _).bind fun _ =>
    (untilReturn (follows inner) _).bind fun _ => note step))

end Recorded.Follows

/-- With some room for nested evaluation, runs with a log are the same as runs without. -/
structure RecordingFollows (recorder : Recorder ε) (fuel room : Nat) : Prop where
  expr : ∀ frame expr, (Expr.recorded recorder fuel room frame expr).Follows
    (Expr.eval .direct fuel room frame expr)
  stmt : ∀ frame stmt, (Stmt.recorded recorder fuel room frame stmt).Follows
    (Stmt.exec .direct fuel room frame stmt)
  call : ∀ callee args, (recordedCall recorder fuel room callee args).Follows
    (callValue .direct fuel room callee args)

section Trees

open Recorded

variable {recorder : Recorder ε} {fuel room : Nat} (follows : RecordingFollows recorder fuel room)

include follows

theorem Expr.recorded_follows (frame : Nat) (expr : Expr Hops) :
    (Expr.recorded recorder fuel (room + 1) frame expr).Follows
      (Expr.eval .direct fuel (room + 1) frame expr) := by
  refine .performed ?_
  cases expr with
  | assign target value =>
      exact (follows.expr frame value).bind fun _ => .bind .step fun _ => .pure
  | binary left op token right =>
      exact (follows.expr frame left).bind fun _ => (follows.expr frame right).bind fun _ => .step
  | call callee paren args =>
      refine (follows.expr frame callee).bind fun callee => ?_
      refine (Follows.collect (follows.expr frame) args).bind fun args => ?_
      exact .bind .step fun _ => follows.call callee args
  | get object name =>
      refine (follows.expr frame object).bind fun value => ?_
      cases value with
      | instance_ id => exact .getProperty
      | _ => exact .step
  | grouping inner => exact follows.expr frame inner
  | literal value => exact .pure
  | logical left op token right =>
      refine (follows.expr frame left).bind fun value => ?_
      by_cases short : shortCircuits op value = true
      · simp only [if_pos short]
        exact .pure
      · simp only [if_neg short]
        exact follows.expr frame right
  | set object name value =>
      refine (follows.expr frame object).bind fun holder => ?_
      cases holder with
      | instance_ id =>
          exact (follows.expr frame value).bind fun _ => .bind .step fun _ => .pure
      | _ => exact .step
  | super keyword method => exact .superMethod
  | this keyword => exact .step
  | unary sign token right => exact (follows.expr frame right).bind fun _ => .step
  | var name => exact .step

theorem Stmt.recorded_follows (frame : Nat) (stmt : Stmt Hops) :
    (Stmt.recorded recorder fuel (room + 1) frame stmt).Follows
      (Stmt.exec .direct fuel (room + 1) frame stmt) := by
  refine .statement ?_
  cases stmt with
  | block body => exact .bind .step fun inner => .untilReturn (follows.stmt inner) body
  | function decl => exact .bind .step fun _ => .bind .step fun _ => .pure
  | class_ name superclass methods => exact Follows.declareClass.bind fun _ => .pure
  | expression value => exact (follows.expr frame value).bind fun _ => .pure
  | ifThen cond yes =>
      refine (follows.expr frame cond).bind fun test => ?_
      by_cases holds : test.isTruthy = true
      · simp only [if_pos holds]
        exact follows.stmt frame yes
      · simp only [if_neg holds]
        exact .pure
  | ifElse cond yes no =>
      refine (follows.expr frame cond).bind fun test => ?_
      by_cases holds : test.isTruthy = true
      · simp only [if_pos holds]
        exact follows.stmt frame yes
      · simp only [if_neg holds]
        exact follows.stmt frame no
  | print keyword value =>
      exact (follows.expr frame value).bind fun _ => .bind .step fun _ => .pure
  | return_ keyword value =>
      cases value with
      | none => exact .pure
      | some value => exact (follows.expr frame value).bind fun _ => .pure
  | var name init =>
      cases init with
      | none => exact .bind .step fun _ => .pure
      | some init => exact (follows.expr frame init).bind fun _ => .bind .step fun _ => .pure
  | while_ cond body =>
      exact .loop (.note (follows.expr frame cond)) (follows.stmt frame body) fuel

theorem recordedCall_follows (callee : Value) (args : List Value) :
    (recordedCall recorder fuel (room + 1) callee args).Follows
      (callValue .direct fuel (room + 1) callee args) := by
  cases callee with
  | native id => exact .step
  | function id => exact .bind .step fun closure => .invoke follows.stmt closure args
  | class_ id =>
      refine .bind .step fun made => .bind .step fun initializer => ?_
      cases initializer with
      | none => exact .pure
      | some method =>
          refine Follows.bindMethod.bind fun bound => ?_
          exact (Follows.invoke follows.stmt bound args).bind fun _ => .pure
  | _ => exact .throw

end Trees

/-- The induction is on the room: nested evaluation has less of it. -/
theorem recordingFollows (recorder : Recorder ε) (fuel room : Nat) :
    RecordingFollows recorder fuel room := by
  induction room with
  | zero => exact ⟨fun _ _ => .throw, fun _ _ => .throw, fun _ _ => .throw⟩
  | succ room ih =>
      exact ⟨Expr.recorded_follows ih, Stmt.recorded_follows ih, recordedCall_follows ih⟩

/-- **Writing a log changes nothing else**, whatever is written. -/
theorem recordedStatements_follows (recorder : Recorder ε) (fuel room : Nat)
    (tree : List (Stmt Hops)) :
    (recordedStatements recorder fuel room tree).Follows
      (runStatements .direct fuel room tree) := by
  induction tree with
  | nil => exact .pure
  | cons stmt more ih =>
      exact ((recordingFollows recorder fuel room).stmt Machine.globals stmt).bind fun _ => ih

end Lox
