/-
**Logged worlds.** Recorded runs, on worlds in which everything has a provenance.

* A `LoggedWorld` is a world together with the log of what was done on it.
* `Operation.Valid` is what holds of an operation in a log: what it fixes, which frames it may have
  changed, for an expression from which world it was evaluated, and for an initializer what it
  returned. In a `ValidLog` it holds of every operation, and what operations fix is retained from
  one to the next.
* `LoggedWorld.Ensures` is the logic of runs (`RunLogic`) for these worlds: what a run leaves behind
  is a logged world again, frames have gained only the names that they may, and what was written is
  valid. A step is lifted from what it does to its world (`LoggedWorld.Ensures.of_world`).
-/

import Lox.Proofs.Provenance

namespace Lox

open Layer Run Recorded
open World (Held Returned)

/-! ### Worlds with a log -/

/-- The class of every instance exists. -/
def Machine.Instantiated (machine : Machine) : Prop :=
  ∀ found ∈ machine.instances, found.class_ < machine.hierarchy.classes.size

/-- The class of every instance still exists. -/
theorem Machine.Instantiated.retain {machine later : Machine} (here : machine.Instantiated)
    (same : later.instances = machine.instances) (retains : machine.Retains later) :
    later.Instantiated := by
  intro found member
  have inside := here found (same ▸ member)
  exact (Array.getElem?_eq_some_iff.mp
    (retains.classes found.class_ _ (Array.getElem?_eq_getElem inside))).1

/-- A world and the log of what was done on it, such that everything has a provenance. After every
operation the classes of instances existed, unless native functions make up classes. -/
structure LoggedWorld where
  world : World Site.Firm
  log : List Operation
  provenance : world.machine.Provenance world.foreign log
  instances : ∀ operation ∈ log, world.foreign ∨ operation.after.Instantiated

/-- The class of every instance exists, unless native functions make up classes. -/
theorem World.instantiated {ok : Site Hops → Prop} (world : World ok) :
    world.foreign ∨ world.machine.Instantiated := by
  by_cases foreign : world.foreign
  · exact .inl foreign
  · exact .inr fun found member => (world.sound.instances found member).resolve_left foreign

namespace LoggedWorld

abbrev machine (logged : LoggedWorld) : Machine := logged.world.machine

/-- The machine and the log of a world. -/
abbrev state (logged : LoggedWorld) : Machine × List Operation :=
  (logged.world.machine, logged.log)

/-- References stand where some layers are known, in the frame that fits them, and belong to the
code of the method around it. -/
structure Locates (logged : LoggedWorld) (frame : Nat) (layers : List Layer)
    (references : List (Use × Reference Hops)) : Prop where
  fits : logged.world.Fits frame layers
  belongs : logged.machine.Belongs logged.log frame references

theorem Locates.mono {logged : LoggedWorld} {frame : Nat} {layers : List Layer}
    {fewer references : List (Use × Reference Hops)}
    (locates : logged.Locates frame layers references) (subset : fewer ⊆ references) :
    logged.Locates frame layers fewer :=
  ⟨locates.fits, locates.belongs.mono subset⟩

end LoggedWorld

/-! ### Names that are bound early -/

/-- A variable that is initialized in a frame. -/
structure Initialization where
  frame : Nat
  name : Token
  init : Expr Hops

namespace Initialization

/-- An operation was the declaration of the variable. -/
def Declared (initialization : Initialization) (operation : Operation) : Prop :=
  ∃ before result, operation =
    .exec initialization.frame (.var initialization.name (some initialization.init)) before result

/-- A name is bound early in a frame: it is that of a local variable there, and one of the
references in its initializer assigns to it. -/
structure Early (initialization : Initialization) (references : List (Use × Reference Hops))
    (frame : Nat) (name : String) : Prop where
  frame : frame = initialization.frame
  inner : initialization.frame ≠ Machine.globals
  name : name = initialization.name.lexeme
  assigned : ∃ reference : Reference Hops,
    reference.token.lexeme = initialization.name.lexeme ∧ reference.target = some 0 ∧
      (.assign, reference) ∈ references ∧ (.assign, reference) ∈ initialization.init.references

/-- A variable is being initialized, or its declaration is over later. -/
def Known (current : Option Initialization) (later : List Operation)
    (initialization : Initialization) : Prop :=
  initialization ∈ current ∨ ∃ operation ∈ later, initialization.Declared operation

theorem Early.mono {initialization : Initialization}
    {references more : List (Use × Reference Hops)} {frame : Nat} {name : String}
    (early : initialization.Early references frame name) (subset : references ⊆ more) :
    initialization.Early more frame name := by
  obtain ⟨reference, same, target, inside, init⟩ := early.assigned
  exact ⟨early.frame, early.inner, early.name, reference, same, target, subset inside, init⟩

end Initialization

/-- The names that an expression may bind in a frame. -/
def Expr.mayBind (known : Initialization → Prop) (references : List (Use × Reference Hops))
    (frame : Nat) : Nat → String → Prop :=
  fun holder name => holder = frame ∧ ∃ initialization, known initialization ∧
    initialization.Early references frame name

/-- The name that a statement declares, in its frame. -/
def Stmt.mayBind (stmt : Stmt Hops) (frame : Nat) : Nat → String → Prop :=
  fun holder name => holder = frame ∧ ∃ declared ∈ stmt.declared?, name = declared.lexeme

/-- Nothing. -/
def nothing : Nat → String → Prop :=
  fun _ _ => False

/-! ### Valid logs -/

/-- What holds of the evaluation of an expression: which names it may have bound, and from which
world it was evaluated. -/
structure Expr.Evaluation (current : Option Initialization) (past later : List Operation)
    (frame : Nat) (expr : Expr Hops) (before : Machine) (result : RunResult Value) : Prop where
  widens : before.Widens
    (Expr.mayBind (Initialization.Known current later) expr.references frame) (leftBehind result)
  evaluated : ∃ fuel room, result = Expr.eval .direct fuel (room + 1) frame expr before
  located : ∃ logged : LoggedWorld, logged.machine = before ∧ logged.log <+: past ∧
    ∃ layers, logged.Locates frame layers expr.references ∧ expr.Ready Site.Firm layers

/-- If a function is an initializer and completed, it had been bound to an instance, and returned
that. -/
def Closure.ReturnsInstance (closure : Closure) (past : List Operation)
    (result : RunResult Value) : Prop :=
  ∀ value after, result = .ok value after → closure.isInitializer = true →
    ∃ old ∈ past, ∃ id, old.Binds closure id ∧ value = .instance_ id

/-- What an operation did, between what was written before and after it. -/
def Operation.Effect (current : Option Initialization) (past later : List Operation) :
    Operation → Prop
  | eval frame expr before result => expr.Evaluation current past later frame before result
  | exec frame stmt before result => before.Widens (stmt.mayBind frame) (leftBehind result)
  | call closure _ before result =>
    before.Widens nothing (leftBehind result) ∧ closure.ReturnsInstance past result
  | _ => True

/-- What holds of an operation, between what was written before and after it. -/
structure Operation.Valid (current : Option Initialization) (past later : List Operation)
    (operation : Operation) : Prop where
  fixed : ∀ fixture ∈ operation.fixture?,
    fixture.frame ≠ Machine.globals ∧ fixture.Holds operation.after
  effect : operation.Effect current past later

namespace Operation.Valid

variable {current : Option Initialization} {past later : List Operation}

/-- An operation that fixes nothing, by what it did. -/
theorem of_effect {operation : Operation} (loose : operation.fixture? = none)
    (effect : operation.Effect current past later) : operation.Valid current past later := by
  refine ⟨fun fixture made => ?_, effect⟩
  rw [loose] at made
  cases made

theorem step {machine : Machine} : (Operation.step machine).Valid current past later :=
  of_effect rfl trivial

theorem exec {frame : Nat} {stmt : Stmt Hops} {before : Machine} {result : RunResult Completion}
    (widens : before.Widens (stmt.mayBind frame) (leftBehind result)) :
    (Operation.exec frame stmt before result).Valid current past later :=
  of_effect rfl widens

/-- A variable that is known to be initialized stays so. -/
theorem mono {current' : Option Initialization} {later' : List Operation} {operation : Operation}
    (valid : operation.Valid current past later)
    (known : ∀ initialization, Initialization.Known current later initialization →
      Initialization.Known current' later' initialization) :
    operation.Valid current' past later' := by
  refine ⟨valid.fixed, ?_⟩
  cases operation with
  | eval frame expr before result =>
      have evaluation := valid.effect
      refine ⟨evaluation.widens.mono ?_, evaluation.evaluated, evaluation.located⟩
      rintro holder _ name ⟨same, initialization, here, early⟩
      exact ⟨same, initialization, known initialization here, early⟩
  | _ => exact valid.effect

end Operation.Valid

/-- **A valid log** leads from one machine to another one. All its operations are valid, and what is
fixed before an operation is retained by it. -/
inductive ValidLog (current : Option Initialization) :
    (past : List Operation) → (before : Machine) → List Operation → (after : Machine) → Prop
  | nil {past : List Operation} {before after : Machine} (retains : before.Retains after) :
    ValidLog current past before [] after
  | cons {past later : List Operation} {operation : Operation} {before after : Machine}
    (retains : before.Retains operation.after) (valid : operation.Valid current past later)
    (more : ValidLog current (past ++ [operation]) operation.after later after) :
    ValidLog current past before (operation :: later) after

namespace ValidLog

variable {current : Option Initialization} {past first second : List Operation}
  {operation : Operation} {before middle after : Machine}

theorem refl : ValidLog current past before [] before :=
  .nil (.refl before)

theorem prepend (retains : middle.Retains before)
    (valid : ValidLog current past before first after) :
    ValidLog current past middle first after := by
  cases valid with
  | nil more => exact .nil (retains.trans more)
  | cons more valid rest => exact .cons (retains.trans more) valid rest

theorem append (early : ValidLog current past before first middle)
    (late : ValidLog current (past ++ first) middle second after) :
    ValidLog current past before (first ++ second) after := by
  induction early with
  | nil retains => exact (by simpa using late : ValidLog ..).prepend retains
  | cons retains valid more ih =>
      refine .cons retains (valid.mono fun initialization known => ?_) (ih (by simpa using late))
      exact known.imp_right fun ⟨operation, member, declared⟩ =>
        ⟨operation, List.mem_append_left _ member, declared⟩

theorem concat (early : ValidLog current past before first middle)
    (retains : middle.Retains operation.after)
    (valid : operation.Valid current (past ++ first) []) :
    ValidLog current past before (first ++ [operation]) operation.after :=
  early.append (.cons retains valid .refl)

/-- What is valid without an initializer is valid inside one. -/
theorem widen (valid : ValidLog none past before first after) :
    ValidLog current past before first after := by
  induction valid with
  | nil retains => exact .nil retains
  | cons retains valid more ih =>
      refine .cons retains (valid.mono fun initialization known => ?_) ih
      exact .inr (known.resolve_left (Option.not_mem_none _))

/-- When a declaration is over, its initializer is known without being the current one. -/
theorem close {initialization : Initialization}
    (early : ValidLog (some initialization) past before first middle)
    (declared : initialization.Declared operation) (retains : middle.Retains operation.after)
    (valid : operation.Valid none (past ++ first) []) :
    ValidLog none past before (first ++ [operation]) operation.after := by
  induction early with
  | nil more => exact .cons (more.trans retains) (by simpa using valid) .refl
  | cons more other rest ih =>
      refine .cons more (other.mono fun known' known => .inr ?_) (ih retains (by simpa using valid))
      rcases known with same | ⟨old, member, declared⟩
      · obtain rfl := Option.some.inj same
        exact ⟨operation, List.mem_append_right _ (List.mem_singleton_self _), declared⟩
      · exact ⟨old, List.mem_append_left _ member, declared⟩

/-- What is fixed at the start of a log is retained by all that is written in it. -/
theorem retains (valid : ValidLog current past before first after) :
    before.Retains after ∧ ∀ operation ∈ first, before.Retains operation.after := by
  induction valid with
  | nil retains => exact ⟨retains, List.forall_mem_nil _⟩
  | cons retains valid more ih =>
      refine ⟨retains.trans ih.1, List.forall_mem_cons.mpr ⟨retains, fun later member => ?_⟩⟩
      exact retains.trans (ih.2 later member)

/-- An operation inside a log, and what is written after it. -/
theorem split (valid : ValidLog current past before (first ++ operation :: second) after) :
    operation.Valid current (past ++ first) second ∧
      ValidLog current (past ++ first ++ [operation]) operation.after second after := by
  induction first generalizing past before with
  | nil =>
      cases valid with
      | cons _ valid more => exact ⟨by simpa using valid, by simpa using more⟩
  | cons other rest ih =>
      cases valid with
      | cons _ _ more => simpa using ih more

end ValidLog

/-! ### From one logged world to another -/

namespace LoggedWorld

variable {α β : Type} {may : Nat → String → Prop} {current : Option Initialization}

/-- A run has gone on from one logged world to another. -/
structure Continues (logged : LoggedWorld) (may : Nat → String → Prop)
    (current : Option Initialization) (later : LoggedWorld) : Prop where
  grows : logged.world.Grows later.world.toHeap
  widens : logged.machine.Widens may later.machine
  written : ∃ more, later.log = logged.log ++ more ∧
    ValidLog current logged.log logged.machine more later.machine

namespace Continues

variable {first second third logged later : LoggedWorld}

theorem refl (logged : LoggedWorld) : logged.Continues may current logged :=
  ⟨.refl _, .refl _, [], (List.append_nil _).symm, .refl⟩

theorem trans (early : first.Continues may current second)
    (late : second.Continues may current third) : first.Continues may current third := by
  obtain ⟨some, same, valid⟩ := early.written
  obtain ⟨more, same', valid'⟩ := late.written
  refine ⟨early.grows.trans late.grows, early.widens.trans late.widens, some ++ more, ?_, ?_⟩
  · rw [same', same, List.append_assoc]
  · exact valid.append (same ▸ valid')

theorem longer (continues : logged.Continues may current later) : logged.log ⊆ later.log := by
  obtain ⟨more, same, _⟩ := continues.written
  exact same ▸ List.subset_append_left _ _

/-- Fewer names may be bound, and none of them early. -/
theorem mono {may' : Nat → String → Prop} (continues : logged.Continues may none later)
    (more : ∀ frame < logged.machine.store.size, ∀ name, may frame name → may' frame name) :
    logged.Continues may' current later :=
  let ⟨operations, same, valid⟩ := continues.written
  ⟨continues.grows, continues.widens.mono more, operations, same, valid.widen⟩

theorem locates (continues : logged.Continues may current later) {frame : Nat}
    {layers : List Layer} {references : List (Use × Reference Hops)}
    (locates : logged.Locates frame layers references) : later.Locates frame layers references :=
  ⟨continues.grows.spans locates.fits, locates.belongs.widen continues.widens continues.longer⟩

end Continues

/-- Recorded runs go from one logged world to another, and may fail anywhere. -/
def logic (may : Nat → String → Prop) (current : Option Initialization) :
    RunLogic LoggedWorld (Machine × List Operation) where
  view := state
  le logged later := logged.Continues may current later
  refl := .refl
  trans early late := early.trans late
  fails _ _ := True

/-- What a recorded run comes to. -/
def Ensures (logged : LoggedWorld) (may : Nat → String → Prop) (current : Option Initialization)
    (run : Recorded Operation α) (post : α → LoggedWorld → Prop) : Prop :=
  (logic may current).Ensures logged run post

namespace Ensures

variable {logged : LoggedWorld} {run : Recorded Operation α} {post : α → LoggedWorld → Prop}

theorem pure {value : α} (here : post value logged) :
    logged.Ensures may current (Pure.pure value) post :=
  RunLogic.Ensures.pure here

theorem throw {failure : Failure} :
    logged.Ensures may current (throwThe Failure failure : Recorded Operation α) post :=
  RunLogic.Ensures.throw trivial

theorem bind {mid : α → LoggedWorld → Prop} {next : α → Recorded Operation β}
    {post : β → LoggedWorld → Prop} (first : logged.Ensures may current run mid)
    (then_ : ∀ value later, logged.Continues may current later → mid value later →
      later.Ensures may current (next value) post) :
    logged.Ensures may current (run >>= next) post :=
  RunLogic.Ensures.bind first then_

theorem get {next : Machine × List Operation → Recorded Operation α}
    (then_ : logged.Ensures may current (next logged.state) post) :
    logged.Ensures may current (MonadState.get >>= next) post :=
  then_

theorem weaken {post' : α → LoggedWorld → Prop} (ensures : logged.Ensures may current run post)
    (less : ∀ value later, logged.Continues may current later → post value later →
      post' value later) : logged.Ensures may current run post' :=
  RunLogic.Ensures.weaken ensures less

/-- No event is written. -/
theorem note {event : Event} {next : Unit → Recorded Operation α}
    (then_ : logged.Ensures may current (next ()) post) :
    logged.Ensures may current (Recorder.operations.note event >>= next) post :=
  then_

/-- More names may be bound. -/
theorem mono {may' : Nat → String → Prop} (ensures : logged.Ensures may none run post)
    (more : ∀ frame < logged.machine.store.size, ∀ name, may frame name → may' frame name) :
    logged.Ensures may' current run post :=
  RunLogic.Ends.imp ensures rfl (fun _ continues => continues.mono more) (fun _ _ => id)
    fun _ _ _ => id

/-- More names may be bound, also early. -/
theorem mono_current {may' : Nat → String → Prop} (ensures : logged.Ensures may current run post)
    (more : ∀ frame < logged.machine.store.size, ∀ name, may frame name → may' frame name) :
    logged.Ensures may' current run post :=
  RunLogic.Ends.imp ensures rfl
    (fun _ continues => ⟨continues.grows, continues.widens.mono more, continues.written⟩)
    (fun _ _ => id) fun _ _ _ => id

/-- **Lifting**: what a run does to its world is known without the log. What is left to show is that
everything has a provenance, and what happens to the frames. -/
theorem of_world {plain : Run α} {known : α → World Site.Firm → Prop} {machine : Machine}
    {operations : List Operation} (follows : run.Follows plain)
    (ensures : logged.world.Ensures plain known)
    (ended : leftBehind (run logged.state) = (machine, logged.log ++ operations))
    (provenance : machine.Provenance logged.world.foreign (logged.log ++ operations))
    (widens : logged.machine.Widens may machine)
    (valid : ValidLog current logged.log logged.machine operations machine)
    (instances : ∀ later : World Site.Firm, later.machine = machine →
      logged.world.Grows later.toHeap → ∀ operation ∈ operations,
        later.foreign ∨ operation.after.Instantiated)
    (less : ∀ value later, run logged.state = .ok value later.state → known value later.world →
      post value later) : logged.Ensures may current run post := by
  have reached : ∀ later : World Site.Firm, later.machine = machine →
      logged.world.Grows later.toHeap → ∃ next : LoggedWorld, next.world = later ∧
        next.state = (machine, logged.log ++ operations) ∧
          logged.Continues may current next := by
    rintro later rfl grows
    refine ⟨⟨later, logged.log ++ operations, ?_, ?_⟩, rfl, rfl, grows, widens, operations, rfl,
      valid⟩
    · rwa [propext grows.foreign]
    · refine List.forall_mem_append.mpr ⟨fun operation member => ?_,
        instances later rfl grows⟩
      exact (logged.instances operation member).imp_left grows.foreign.mpr
  have same := follows logged.state
  have ends : World.logic.Ends logged.world known (plain logged.machine) := ensures.ends
  rw [← same] at ends
  show (logic may current).Ends logged post (run logged.state)
  cases result : run logged.state with
  | ok value state =>
      rw [result] at ended ends
      obtain rfl : state = (machine, logged.log ++ operations) := ended
      obtain ⟨later, left, grows, here⟩ := ends
      obtain ⟨next, rfl, there, continues⟩ := reached later left grows
      exact ⟨next, there, continues, less value next (there ▸ result) here⟩
  | error failure state =>
      rw [result] at ended ends
      obtain rfl : state = (machine, logged.log ++ operations) := ended
      obtain ⟨later, left, grows, _⟩ := ends
      obtain ⟨next, _, there, continues⟩ := reached later left grows
      exact ⟨next, there, continues, trivial⟩

/-- Steps that are taken together, and make no instance. -/
theorem of_steps {plain : Run α} {known : α → World Site.Firm → Prop} {machine : Machine}
    {operations : List Operation} (follows : run.Follows plain)
    (ensures : logged.world.Ensures plain known)
    (ended : leftBehind (run logged.state) = (machine, logged.log ++ operations))
    (provenance : machine.Provenance logged.world.foreign (logged.log ++ operations))
    (widens : logged.machine.Widens may machine)
    (valid : ValidLog current logged.log logged.machine operations machine)
    (same : ∀ operation ∈ operations, operation.after.instances = logged.machine.instances)
    (less : ∀ value later, run logged.state = .ok value later.state → known value later.world →
      post value later) : logged.Ensures may current run post := by
  refine of_world follows ensures ended provenance widens valid
    (fun later _ grows operation member => ?_) less
  rcases logged.world.instantiated with foreign | here
  · exact .inl (grows.foreign.mpr foreign)
  · exact .inr (here.retain (same operation member) (valid.retains.2 operation member))

end Ensures

end LoggedWorld

/-! ### Steps -/

/-- A step that makes no function and no class. -/
structure Machine.Quiet (may : Nat → String → Prop) (before after : Machine) : Prop where
  widens : before.Widens may after
  functions : after.functions = before.functions
  hierarchy : after.hierarchy = before.hierarchy

namespace Machine.Quiet

variable {α : Type} {may : Nat → String → Prop} {machine later : Machine}

/-- A step that changes no frame, no function and no class. -/
theorem of_same (store : later.store = machine.store)
    (functions : later.functions = machine.functions)
    (hierarchy : later.hierarchy = machine.hierarchy) : machine.Quiet may later :=
  ⟨.of_store store fun _ _ here => hierarchy ▸ here, functions, hierarchy⟩

theorem of_still {known : Token → Prop} {run : Run α} (still : Still known run)
    (machine : Machine) : machine.Quiet may (leftBehind (run machine)) := by
  rw [still.leftBehind_eq machine]
  exact .of_same rfl rfl rfl

/-- Operations that bind no method are written. -/
theorem provenance {foreign : Prop} {log operations : List Operation}
    (quiet : machine.Quiet may later) (provenance : machine.Provenance foreign log)
    (unbound : ∀ method id before bound after,
      Operation.bind method id before (.ok bound after) ∉ operations) :
    later.Provenance foreign (log ++ operations) :=
  provenance.extend quiet.widens (fun _ member => .inl (quiet.functions ▸ member))
    (fun _ _ here => .inl (quiet.hierarchy ▸ here)) unbound

end Machine.Quiet

namespace LoggedWorld.Ensures

variable {α β : Type} {may : Nat → String → Prop} {current : Option Initialization}
  {logged : LoggedWorld}

/-- The state after a step. -/
theorem leftBehind_step (run : Run α) (state : Machine × List Operation) :
    leftBehind (Recorder.operations.step run state) =
      (leftBehind (run state.1), state.2 ++ [.step (leftBehind (run state.1))]) := by
  unfold Recorder.step Recorder.performed Recorded.silent
  cases run state.1 <;> rfl

/-- A step, by what it does to its world. -/
theorem step_of {run : Run α} {known : α → World Site.Firm → Prop}
    (ensures : logged.world.Ensures run known)
    (widens : logged.machine.Widens may (leftBehind (run logged.machine)))
    (provenance : (leftBehind (run logged.machine)).Provenance logged.world.foreign
      (logged.log ++ [.step (leftBehind (run logged.machine))])) :
    logged.Ensures may current (Recorder.operations.step run) fun value later =>
      known value later.world ∧ run logged.machine = .ok value later.machine := by
  refine of_world .step ensures (leftBehind_step run logged.state) provenance widens
    (.cons widens.toRetains .step .refl) (fun later left _ => ?_) fun value later ended here => ?_
  · exact List.forall_mem_singleton.mpr (left ▸ later.instantiated)
  · have plain : unrecorded (Recorder.operations.step run logged.state) = run logged.machine :=
      Follows.step logged.state
    rw [ended] at plain
    exact ⟨here, plain.symm⟩

/-- A step that makes no function and no class. -/
theorem step {run : Run α} {known : α → World Site.Firm → Prop}
    (ensures : logged.world.Ensures run known)
    (quiet : logged.machine.Quiet may (leftBehind (run logged.machine))) :
    logged.Ensures may current (Recorder.operations.step run) fun value later =>
      known value later.world ∧ run logged.machine = .ok value later.machine :=
  step_of ensures quiet.widens (quiet.provenance logged.provenance (by simp))

/-- A step that only looks. -/
theorem look {run : Run α} {known : α → World Site.Firm → Prop}
    (ensures : logged.world.Ensures run known) (still : Still (fun _ => True) run) :
    logged.Ensures may current (Recorder.operations.step run) fun value later =>
      known value later.world :=
  (step ensures (.of_still still logged.machine)).weaken fun _ _ _ known => known.1

/-- A step that changes no frame, no function and no class. -/
theorem aside {run : Run α} {known : α → World Site.Firm → Prop}
    (ensures : logged.world.Ensures run known)
    (store : (leftBehind (run logged.machine)).store = logged.machine.store)
    (functions : (leftBehind (run logged.machine)).functions = logged.machine.functions)
    (hierarchy : (leftBehind (run logged.machine)).hierarchy = logged.machine.hierarchy) :
    logged.Ensures may current (Recorder.operations.step run) fun value later =>
      known value later.world :=
  (step ensures (.of_same store functions hierarchy)).weaken fun _ _ _ known => known.1

theorem fail {token : Token} {error : RunError} {post : α → LoggedWorld → Prop} :
    logged.Ensures may current (Recorder.operations.step (Run.fail token error)) post := by
  have never : logged.world.Ensures (Run.fail token error : Run α) fun _ _ => False := .fail
  exact (look never (.fail trivial)).weaken fun _ _ _ here => here.elim

/-! ### Frames -/

/-- A new frame inside another one, for the same code. -/
theorem newFrame {frame : Nat} {layers : List Layer} {references : List (Use × Reference Hops)}
    (locates : logged.Locates frame layers references) (scope : LocalScope) :
    logged.Ensures may current (Recorder.operations.step (Run.newFrame frame)) fun inner later =>
      inner = logged.machine.store.size ∧ later.machine.Workable inner ∧
        later.Locates inner (⟨scope, [], none⟩ :: layers) references := by
  refine (step (.newFrame locates.fits scope) ⟨.addFrame _ _, rfl, rfl⟩).weaken ?_
  rintro inner later continues ⟨fits, ended⟩
  obtain ⟨rfl, made⟩ := EStateM.Result.ok.inj ended
  have store : later.machine = logged.machine.addFrame frame := made.symm
  have link : later.machine.store.enclosing? logged.machine.store.size = some frame := by
    rw [store]
    exact Store.enclosing?_push_size locates.belongs.inside
  have empty : ∀ name, ¬ later.machine.store.binds logged.machine.store.size name = true := by
    intro name binds
    obtain ⟨value, found⟩ := Store.binds_iff.mp binds
    rw [store, Machine.get?_addFrame] at found
    cases found
  exact ⟨rfl, ⟨Store.lt_size_of_enclosing? link, fun _ name binds => absurd binds (empty name)⟩,
    fits, (continues.locates locates).belongs.inner (empty thisName) link⟩

theorem define {frame : Nat} {layers : List Layer} {name : String} {value : Value}
    (fits : logged.world.Fits frame layers)
    (hosts : ∀ layer ∈ layers.head?, layer.scope.declares name = true)
    (proper : ProperName name) (holds : logged.world.Holds value)
    (allowed : logged.machine.store.binds frame name = true ∨ may frame name) :
    logged.Ensures may current (Recorder.operations.step (Run.define frame name value))
      fun _ later => later.world.Fits frame (learn name layers) := by
  have inside := logged.world.sound.lt_size fits
  refine (step (.define fits hosts (.of_proper proper value) holds) ?_).weaken
    fun _ _ _ known => known.1
  exact ⟨.bindIn inside proper allowed value, rfl, rfl⟩

/-- Parameters get their arguments. -/
theorem defineAll {frame : Nat} {scope : LocalScope} {sure : List String} {layers : List Layer}
    {params : List Token} {args : List Value}
    (fits : logged.world.Fits frame (⟨scope, sure, none⟩ :: layers))
    (hosts : ∀ param ∈ params, scope.declares param.lexeme = true ∧ ProperName param.lexeme)
    (holds : ∀ arg ∈ args, logged.world.Holds arg) (paired : params.length = args.length)
    (allowed : ∀ name, may frame name) :
    logged.Ensures may current (Recorder.operations.defineAll frame params args) fun _ later =>
      later.world.Fits frame
        (⟨scope, (params.map Token.lexeme).reverse ++ sure, none⟩ :: layers) := by
  induction params generalizing args sure logged with
  | nil => exact .pure fits
  | cons param params ih =>
      cases args with
      | nil => cases paired
      | cons arg args =>
          obtain ⟨host, others⟩ := List.forall_mem_cons.mp hosts
          obtain ⟨first, rest⟩ := List.forall_mem_cons.mp holds
          refine .bind (define fits (fun _ here => ?_) host.2 first (.inr (allowed _)))
            fun _ later continues next => ?_
          · obtain rfl := Option.some.inj here
            exact host.1
          · have further := ih next others
              (fun arg member => continues.grows.holds (rest arg member)) (Nat.succ.inj paired)
            simpa using further

/-- What an assignment does to the frames: unless it is to the variable that is being initialized
right there, its name was bound before. -/
theorem assign_quiet {frame : Nat} {layers : List Layer} {reference : Reference Hops}
    (fits : logged.world.Fits frame layers) (firm : Site.Firm ⟨.assign, reference, layers⟩)
    (pending : ∀ layer ∈ layers.head?, layer.pending = some reference.token.lexeme →
      reference.target = some 0 → may frame reference.token.lexeme) (value : Value) :
    logged.machine.Quiet may (leftBehind (Run.assign frame reference value logged.machine)) := by
  obtain ⟨proper, declared⟩ : ProperName reference.token.lexeme ∧ _ := firm.leads
  have defined : ∀ {holder}, holder < logged.machine.store.size →
      Run.holderOf frame reference logged.machine = .ok holder logged.machine →
      logged.machine.store.binds holder reference.token.lexeme = true ∨
        may holder reference.token.lexeme →
      logged.machine.Quiet may (leftBehind (Run.assign frame reference value logged.machine)) := by
    intro holder inside found allowed
    simp only [Run.assign, Bind.bind, EStateM.bind, found]
    exact ⟨.bindIn inside proper allowed value, rfl, rfl⟩
  cases target : reference.target with
  | none =>
      cases found : logged.machine.store.holder? reference.token.lexeme Machine.globals with
      | none =>
          have failed : Run.holderOf frame reference logged.machine =
              .error (.error (.undefinedVariable reference.token.lexeme) reference.token)
                logged.machine := by
            simp only [Run.holderOf, Run.get_bind, target, found]
            rfl
          simp only [Run.assign, Bind.bind, EStateM.bind, failed]
          exact .of_same rfl rfl rfl
      | some holder =>
          have root := Store.eq_of_holder?_root logged.world.sound.root found
          have inside : holder < logged.machine.store.size :=
            root ▸ logged.world.sound.inhabited
          refine defined inside ?_ (.inl (Store.binds_of_holder? found))
          simp only [Run.holderOf, Run.get_bind, target, found]
          rfl
  | some hops =>
      obtain ⟨layer, at_, _⟩ := declared hops target
      obtain ⟨holder, more, walked, here⟩ := fits.frameAt at_
      refine defined (logged.world.sound.lt_size here) ?_ ?_
      · simp only [Run.holderOf, Run.get_bind, target, walked]
        rfl
      · rcases firm.written rfl hops target with ⟨layer', at', sure⟩ | ⟨rfl, layer', head, same⟩
        · obtain rfl := Option.some.inj (at_.symm.trans at')
          exact .inl (here.2.1 _ sure trivial)
        · obtain rfl := Except.ok.inj walked
          exact .inr (pending layer' head same target)

/-! ### Functions and methods -/

theorem newFunction {closure : Closure} (callable : logged.world.Callable Site.Firm closure)
    (belongs : logged.machine.Belongs logged.log closure.frame closure.decl.lexical)
    (bound : closure.Bound logged.log) :
    logged.Ensures may current (Recorder.operations.step (Run.newFunction closure))
      fun value later => Held value later.world := by
  have widens : logged.machine.Widens may (logged.machine.addFunction closure) :=
    .addFunction _ _
  refine (step_of (.newFunction callable) widens ?_).weaken fun _ _ _ known => known.1
  refine logged.provenance.extend widens (fun other member => ?_) (fun _ _ => .inl) (by simp)
  rcases Array.mem_push.mp member with old | rfl
  · exact .inl old
  · exact .inr ⟨belongs.widen widens (List.subset_append_left _ _),
      bound.mono (List.subset_append_left _ _)⟩

/-- How a method is bound. -/
theorem bindMethod_eq (method : Closure) (id : Nat) (machine : Machine) (log : List Operation) :
    let bound : Closure := { method with frame := machine.store.size }
    let after := machine.enter method.frame thisName (.instance_ id)
    Recorder.operations.bindMethod method id (machine, log) =
      .ok bound (after, log ++ [.step (machine.addFrame method.frame), .step after,
        .bind method id machine (.ok bound after)]) := by
  intro bound after
  have nested : ∀ first second third : Operation,
      log ++ [first, second, third] = ((log ++ [first]) ++ [second]) ++ [third] := by simp
  rw [nested]
  rfl

/-- A bound method: it can be called, and belongs to its own code. -/
structure Binds (logged : LoggedWorld) (method bound : Closure) : Prop where
  callable : logged.world.Callable Site.Firm bound
  decl : bound.decl = method.decl
  belongs : logged.machine.Belongs logged.log bound.frame bound.decl.lexical
  written : bound.Bound logged.log

/-- **Binding a method**: the frame with `this` is made for its code. -/
theorem bindMethod {method : Closure} {id : Nat}
    (bindable : logged.world.Bindable Site.Firm method)
    (holds : logged.world.Holds (.instance_ id))
    (origin : ∃ origin : ClassRun, origin.operation ∈ logged.log ∧
      origin.Provides logged.machine method) :
    logged.Ensures may current (Recorder.operations.bindMethod method id) fun bound later =>
      Binds later method bound := by
  have inside : method.frame < logged.machine.store.size :=
    let ⟨_, fits, _⟩ := bindable
    logged.world.sound.lt_size fits
  have inner : logged.machine.store.size ≠ Machine.globals :=
    Nat.ne_of_gt logged.world.sound.inhabited
  have widens : logged.machine.Widens may _ :=
    .enter logged.machine method.frame thisName (.instance_ id)
  have this := logged.machine.get?_enter method.frame thisName (.instance_ id)
  have run := bindMethod_eq method id logged.machine logged.log
  refine of_steps .bindMethod (.bindMethod bindable holds) (congrArg leftBehind run) ?_ widens ?_
    (by simp [Operation.after, leftBehind, Machine.addFrame, Machine.enter, Machine.bindIn]) ?_
  · refine logged.provenance.grow widens (List.subset_append_left _ _) (fun _ => .inl)
      (fun _ _ => .inl) fun method' id' before bound after member => ?_
    rcases List.mem_append.mp member with old | new
    · exact .inl old
    · obtain ⟨rfl, rfl, rfl, rfl, rfl⟩ : method' = method ∧ id' = id ∧ before = logged.machine ∧
          bound = { method with frame := logged.machine.store.size } ∧
            after = logged.machine.enter method.frame thisName (.instance_ id) := by
        simpa using new
      obtain ⟨origin, written, provides⟩ := origin
      exact .inr ⟨rfl, Machine.enclosing?_enter inside _ _, inner, this, origin,
        List.mem_append_left _ written, provides.widen widens⟩
  · refine .cons (.addFrame _ _) .step (.cons (.bindIn (fun _ => ?_) _) .step (.cons (.refl _)
      ⟨?_, trivial⟩ .refl))
    · exact logged.machine.get?_addFrame method.frame thisName
    · rintro _ ⟨rfl⟩
      exact ⟨inner, this⟩
  · rintro bound later ended ⟨callable, decl⟩
    rw [run] at ended
    obtain ⟨rfl, same⟩ := EStateM.Result.ok.inj ended
    have member : Operation.bind method id logged.machine
        (.ok { method with frame := logged.machine.store.size }
          (logged.machine.enter method.frame thisName (.instance_ id))) ∈ later.log := by
      rw [show later.log = _ from (congrArg Prod.snd same).symm]
      simp
    have belongs : later.machine.Belongs later.log logged.machine.store.size method.decl.lexical :=
      .bound (later.provenance.bound method _ _ _ _ member) member
    exact ⟨callable, decl, belongs, fun _ => ⟨_, member, id, method, _, _, rfl⟩⟩

/-- A method that a class finds, as a function of its own. -/
theorem newMethod {method : Closure} {id : Nat} {name : String} {class_ : Nat}
    (found : logged.machine.hierarchy.method? name class_ = some method)
    (holds : logged.world.Holds (.instance_ id)) :
    logged.Ensures may current (Recorder.operations.newMethod method id) fun value later =>
      Held value later.world :=
  .bind (bindMethod (logged.world.sound.method? found) holds (logged.provenance.method? found))
    fun _ _ _ binds => newFunction binds.callable binds.belongs binds.written

theorem getProperty {id : Nat} {name : Token} (holds : logged.world.Holds (.instance_ id)) :
    logged.Ensures may current (Recorder.operations.getProperty id name) fun value later =>
      Held value later.world := by
  obtain ⟨found, here⟩ : ∃ found, logged.machine.instances[id]? = some found :=
    ⟨_, Array.getElem?_eq_getElem holds⟩
  refine .get ?_
  simp only [here]
  cases field : found.fields.get? name.lexeme with
  | some value =>
      exact .pure
        (logged.world.sound.fields found (Array.mem_of_getElem? here) name.lexeme value field)
  | none =>
      cases inherited : logged.machine.hierarchy.method? name.lexeme found.class_ with
      | some method => exact newMethod inherited holds
      | none => exact fail

theorem superMethod {frame : Nat} {keyword : Reference Hops} {name : Token} {layers : List Layer}
    (fits : logged.world.Fits frame layers) (firm : Site.Firm ⟨.super, keyword, layers⟩) :
    logged.Ensures may current (Recorder.operations.superMethod frame keyword name)
      fun value later => Held value later.world := by
  obtain ⟨hops, target, super, this⟩ := firm.leads
  have target : keyword.target = some (hops + 1) := target
  simp only [Recorder.superMethod, target, Nat.add_sub_cancel]
  refine .bind (look (.getAt fits.weaken super) .getAt) fun superclass later continues known => ?_
  have fits := continues.grows.spans fits
  refine .bind (look (.getAt fits.weaken this) .getAt) fun this last _ known' => ?_
  obtain ⟨superclass, rfl⟩ := known.2.super rfl
  obtain ⟨this, rfl⟩ := known'.2.this rfl
  refine .get ?_
  cases found : last.machine.hierarchy.method? name.lexeme superclass with
  | none => exact fail
  | some method => exact newMethod found known'.1

/-! ### Calls of native functions -/

/-- Calling a native function reads the clock at most. -/
theorem leftBehind_callNative (id : Nat) (args : List Value) (machine : Machine) :
    ∃ readings, leftBehind (Run.callNative id args machine) = { machine with readings } := by
  unfold Run.callNative
  rw [Run.get_bind]
  cases machine.natives[id]? with
  | none => exact ⟨machine.readings, rfl⟩
  | some native =>
      by_cases timed : native.timed = true
      · simp only [if_pos timed]
        exact ⟨_, rfl⟩
      · simp only [if_neg timed]
        exact ⟨machine.readings, rfl⟩

theorem callNative {id : Nat} {args : List Value} (holds : logged.world.Holds (.native id))
    (given : ∀ arg ∈ args, logged.world.Holds arg) :
    logged.Ensures may current (Recorder.operations.step (Run.callNative id args))
      fun value later => Held value later.world := by
  obtain ⟨readings, left⟩ := leftBehind_callNative id args logged.machine
  exact aside (.callNative holds given) (by rw [left]) (by rw [left]) (by rw [left])

/-! ### Operations that consist of others -/

/-- Writing an operation changes nothing else. -/
theorem unrecorded_performed (operation : Machine → RunResult α → Operation)
    (run : Recorded Operation α) (state : Machine × List Operation) :
    unrecorded (Recorder.operations.performed operation run state) = unrecorded (run state) := by
  unfold Recorder.performed
  cases run state <;> rfl

section Performed

variable {run : Recorded Operation α} {mid : α → LoggedWorld → Prop}
  {known : α → World Site.Firm → Prop}

/-- **An operation is over**, and has to be valid. -/
theorem performed {operation : Machine → RunResult α → Operation}
    {current' : Option Initialization} (ensures : logged.Ensures may current run mid)
    (after : ∀ result, (operation logged.machine result).after = leftBehind result)
    (unbound : ∀ result method id before bound after,
      operation logged.machine result ≠ .bind method id before (.ok bound after))
    (valid : ∀ later result, result = unrecorded (run logged.state) →
      logged.Continues may current later → leftBehind result = later.machine →
      (∀ value machine, result = .ok value machine → mid value later) →
        (operation logged.machine result).Valid current' later.log [])
    (finish : ∀ {more machine result},
      ValidLog current logged.log logged.machine more machine →
      machine.Retains (operation logged.machine result).after →
      (operation logged.machine result).Valid current' (logged.log ++ more) [] →
        ValidLog current' logged.log logged.machine (more ++ [operation logged.machine result])
          (operation logged.machine result).after)
    (less : ∀ value later, mid value later → known value later.world) :
    logged.Ensures may current' (Recorder.operations.performed operation run) fun value later =>
      known value later.world := by
  have written : ∀ {later result}, logged.Continues may current later →
      result = unrecorded (run logged.state) → leftBehind result = later.machine →
      (∀ value machine, result = .ok value machine → mid value later) → ∃ last : LoggedWorld,
        last.state = (later.machine, later.log ++ [operation logged.machine result]) ∧
          last.world = later.world ∧ logged.Continues may current' last := by
    intro later result continues same left here
    obtain ⟨more, longer, past⟩ := continues.written
    have ended : (operation logged.machine result).after = later.machine := (after _).trans left
    have quiet : later.machine.Quiet may later.machine := .of_same rfl rfl rfl
    have provenance := quiet.provenance later.provenance fun method id before bound after member =>
      unbound result method id before bound after (List.mem_singleton.mp member).symm
    have holds := valid later result same continues left here
    refine ⟨⟨later.world, later.log ++ [operation logged.machine result], provenance, ?_⟩, rfl, rfl,
      continues.grows, continues.widens, more ++ [operation logged.machine result], ?_, ?_⟩
    · refine List.forall_mem_append.mpr ⟨later.instances, List.forall_mem_singleton.mpr ?_⟩
      rw [ended]
      exact later.world.instantiated
    · show later.log ++ _ = _
      rw [longer, List.append_assoc]
    · have finished := finish past (ended ▸ .refl _) (longer ▸ holds)
      rwa [ended] at finished
  have ends : (logic may current).Ends logged mid (run logged.state) := ensures
  show (logic may current').Ends logged _ (Recorder.operations.performed operation run logged.state)
  unfold Recorder.performed
  cases result : run logged.state with
  | ok value state =>
      rw [result] at ends
      obtain ⟨later, rfl, continues, here⟩ := ends
      obtain ⟨last, same, world, further⟩ := written continues (congrArg unrecorded result.symm) rfl
        (by rintro _ _ ⟨rfl⟩; exact here)
      refine ⟨last, same, further, ?_⟩
      show known value last.world
      rw [world]
      exact less value later here
  | error failure state =>
      rw [result] at ends
      obtain ⟨later, rfl, continues, _⟩ := ends
      obtain ⟨last, same, _, further⟩ := written continues (congrArg unrecorded result.symm) rfl
        (by rintro _ _ ⟨⟩)
      exact ⟨last, same, further, trivial⟩

end Performed

/-- An expression was evaluated. -/
theorem evaluated {run : Recorded Operation Value} {known : Value → World Site.Firm → Prop}
    {frame fuel room : Nat} {layers : List Layer} {expr : Expr Hops}
    (locates : logged.Locates frame layers expr.references) (ready : expr.Ready Site.Firm layers)
    (follows : (Recorder.operations.performed (.eval frame expr) run).Follows
      (Expr.eval .direct fuel (room + 1) frame expr))
    (ensures : logged.Ensures (Expr.mayBind (· ∈ current) expr.references frame) current run
      fun value later => known value later.world) :
    logged.Ensures (Expr.mayBind (· ∈ current) expr.references frame) current
      (Recorder.operations.performed (.eval frame expr) run) fun value later =>
        known value later.world := by
  refine performed ensures (fun _ => rfl) (fun _ _ _ _ _ _ => Operation.noConfusion) ?_ .concat
    fun _ _ => id
  intro later result same continues left _
  rw [← unrecorded_performed (.eval frame expr)] at same
  obtain ⟨more, longer, _⟩ := continues.written
  refine .of_effect rfl ⟨left ▸ continues.widens.mono ?_, ⟨fuel, room, same.trans (follows _)⟩,
    logged, rfl, longer ▸ List.prefix_append _ _, layers, locates, ready⟩
  rintro holder _ name ⟨here, initialization, known, early⟩
  exact ⟨here, initialization, .inl known, early⟩

section Executed

variable {run : Recorded Operation Completion} {known : Completion → World Site.Firm → Prop}
  {frame : Nat}

/-- What a statement consists of, without the events around it. -/
theorem noted {stmt : Stmt Hops}
    (ensures : logged.Ensures may current run fun value later => known value later.world) :
    logged.Ensures may current (do
      Recorder.operations.note (.begins stmt)
      let completion ← run
      Recorder.operations.note (.ends stmt completion)
      Pure.pure completion) fun value later => known value later.world :=
  note (.bind ensures fun _ _ _ here => note (.pure here))

/-- A statement was executed. -/
theorem executed {stmt : Stmt Hops}
    (ensures : logged.Ensures (stmt.mayBind frame) none run fun value later =>
      known value later.world) :
    logged.Ensures (stmt.mayBind frame) none (Recorder.operations.statement frame stmt run)
      fun value later => known value later.world :=
  performed (noted ensures) (fun _ => rfl) (fun _ _ _ _ _ _ => Operation.noConfusion)
    (fun _ _ _ continues left _ => .exec (left ▸ continues.widens)) .concat fun _ _ => id

/-- A variable was declared, which may have been bound early in its initializer. -/
theorem initialized {name : Token} {init : Expr Hops}
    (ensures : logged.Ensures ((Stmt.var name (some init)).mayBind frame)
      (some ⟨frame, name, init⟩) run fun value later => known value later.world) :
    logged.Ensures ((Stmt.var name (some init)).mayBind frame) none
      (Recorder.operations.statement frame (.var name (some init)) run)
      fun value later => known value later.world :=
  performed (noted ensures) (fun _ => rfl) (fun _ _ _ _ _ _ => Operation.noConfusion)
    (fun _ _ _ continues left _ => .exec (left ▸ continues.widens))
    (fun early => early.close ⟨_, _, rfl⟩) fun _ _ => id

end Executed

/-- What is known about the value of a call: it exists, and that of an initializer is the instance
that it was bound to. -/
structure Called (closure : Closure) (value : Value) (later : LoggedWorld) : Prop where
  held : Held value later.world
  instance_ : closure.isInitializer = true →
    ∃ old ∈ later.log, ∃ id, old.Binds closure id ∧ value = .instance_ id

/-- A function was called. -/
theorem called {run : Recorded Operation Value} {closure : Closure} {args : List Value}
    (ensures : logged.Ensures nothing none run (Called closure)) :
    logged.Ensures nothing none (Recorder.operations.performed (.call closure args) run)
      fun value later => Held value later.world := by
  refine performed ensures (fun _ => rfl) (fun _ _ _ _ _ _ => Operation.noConfusion) ?_ .concat
    fun _ _ => Called.held
  intro later result _ continues left here
  exact .of_effect rfl ⟨left ▸ continues.widens,
    fun value after ended => (here value after ended).instance_⟩

/-- What a call of an initializer returns is read where `this` was fixed. -/
theorem callResult {closure : Closure} {completion : Completion} {layers : List Layer}
    (fits : logged.world.Fits closure.frame layers)
    (initializes : closure.isInitializer = true → Sure thisName layers 0)
    (returns : Returned completion logged.world) (bound : closure.Bound logged.log) :
    logged.Ensures may current
      (Recorder.operations.step (Run.callResult .direct closure completion)) (Called closure) := by
  have still : Still (fun _ => True) (Run.callResult .direct closure completion) := .callResult
  refine (step (callResult_meets Lookup.direct_follows_firm fits initializes returns)
    (.of_still still logged.machine)).weaken ?_
  rintro value later continues ⟨held, ended⟩
  refine ⟨held, fun initializer => ?_⟩
  obtain ⟨old, member, id, binds⟩ := bound initializer
  refine ⟨old, continues.longer member, id, binds, ?_⟩
  have found : Run.getAt closure.frame 0 thisName logged.machine =
      .ok (.instance_ id) logged.machine := by
    simp only [Run.getAt, Run.get_bind, Store.getAt, Store.frameAt_zero,
      (logged.provenance.binds member binds).1]
    rfl
  rw [Run.callResult, if_pos initializer] at ended
  exact (EStateM.Result.ok.inj (ended.symm.trans found)).1

end LoggedWorld.Ensures

end Lox
