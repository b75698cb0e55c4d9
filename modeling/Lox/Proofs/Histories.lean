/-
**Histories.** Everything that texts do on a machine, written in a log, and that the log is valid.

* `LoggedWorld.Ensures.function` and `LoggedWorld.Ensures.class_`: function and class statements.
  What they make has a provenance only when they are over, so their steps are taken together.
* `loggedRuns`: running trees whose references are firm leads from one logged world to another. The
  induction is on the room for nested evaluation.
* `History` are the machines that texts lead to, each with all operations on the way, and which
  native functions may be added in between is a parameter. `History.valid` says that the log is
  valid.
-/

import Lox.Proofs.LoggedWorlds

namespace Lox

open Layer Run Recorded
open World (Held Returned)

/-! ### Declarations -/

/-- A machine with one more class, for which its name stands in a frame. -/
def Machine.addClassIn (machine : Machine) (frame : Nat) (name : String) (superclass : Option Nat)
    (methods : Bindings Closure) : Machine :=
  (machine.addClass name superclass methods).bindIn frame name
    (.class_ machine.hierarchy.classes.size)

/-- **A class is made**: it has a provenance as soon as the class statement is over. -/
theorem ClassRun.provenance (origin : ClassRun) {may : Nat → String → Prop} {foreign : Prop}
    {prepared : Machine} {log operations : List Operation} {superclass : Option Nat}
    (provenance : origin.before.Provenance foreign log)
    (quiet : origin.before.Quiet may prepared)
    (made : origin.after = prepared.addClassIn origin.frame origin.name.lexeme superclass
      (methodsIn origin.holder origin.methods))
    (widens : origin.before.Widens may origin.after) (inside : origin.frame < prepared.store.size)
    (last : origin.operation ∈ operations)
    (unbound : ∀ method id before bound after,
      Operation.bind method id before (.ok bound after) ∉ operations)
    (places : origin.Places origin.after origin.holder)
    (founds : foreign ∨ origin.Founds prepared.hierarchy.classes.size
      (prepared.hierarchy.next origin.name.lexeme superclass
        (methodsIn origin.holder origin.methods))) :
    origin.after.Provenance foreign (log ++ operations) := by
  refine provenance.extend widens ?_ ?_ unbound
  · intro closure inside
    rw [made] at inside
    exact .inl (quiet.functions ▸ inside)
  · intro id class_ here
    have hierarchy : origin.after.hierarchy = prepared.hierarchy.push origin.name.lexeme superclass
        (methodsIn origin.holder origin.methods) := by rw [made]; rfl
    have new := here
    rw [hierarchy, Hierarchy.push, Array.getElem?_push] at new
    by_cases next : id = prepared.hierarchy.classes.size
    · rw [if_pos next] at new
      obtain rfl := Option.some.inj new
      subst next
      refine .inr ⟨origin, List.mem_append_right _ last, fun label method found => ?_, founds⟩
      obtain ⟨decl, declared, same⟩ := mem_methodsIn (Bindings.mem_of_get? found)
      obtain rfl : method = _ := same
      refine ⟨⟨declared, prepared.hierarchy.classes.size, label, ?_, ?_⟩, places, rfl⟩
      · rw [made]
        show Bindings.get? _ ((prepared.store.define _ _ _).bindings _) = _
        rw [Store.get?_define inside, if_pos ⟨rfl, rfl⟩]
      · rw [Hierarchy.ownMethod?, here]
        exact found
    · rw [if_neg next] at new
      exact .inl (quiet.hierarchy ▸ new)

/-- No event is written. -/
theorem Recorder.note_operations (event : Event) (state : Machine × List Operation) :
    Recorder.operations.note event state = .ok () state :=
  rfl

section Equations

variable (fuel room frame : Nat) (machine : Machine) (log : List Operation)

/-- How a function statement is executed. -/
theorem recorded_function (decl : Function Hops) :
    let made := machine.addFunction ⟨decl, frame, false⟩
    let after := made.bindIn frame decl.name.lexeme (.function machine.functions.size)
    Stmt.recorded .operations fuel (room + 1) frame (.function decl) (machine, log) =
      .ok none (after, log ++
        [.step made, .step after, .exec frame (.function decl) machine (.ok none after)]) := by
  intro made after
  have nested : ∀ first second third : Operation,
      log ++ [first, second, third] = ((log ++ [first]) ++ [second]) ++ [third] := by simp
  rw [nested, Stmt.recorded]
  rfl

/-- How a class without a superclass is declared. -/
theorem recorded_plain (name : Token) (methods : List (Function Hops)) :
    let first := machine.bindIn frame name.lexeme .nil
    let second := first.addClass name.lexeme none (methodsIn frame methods)
    let after := first.addClassIn frame name.lexeme none (methodsIn frame methods)
    Stmt.recorded .operations fuel (room + 1) frame (.class_ name none methods) (machine, log) =
      .ok none (after, log ++ [.step first, .step second, .step after,
        .exec frame (.class_ name none methods) machine (.ok none after)]) := by
  intro first second after
  have nested : ∀ a b c d : Operation,
      log ++ [a, b, c, d] = (((log ++ [a]) ++ [b]) ++ [c]) ++ [d] := by simp
  rw [nested, Stmt.recorded]
  rfl

variable {frame machine} {reference : Reference Hops}

/-- How a class with a superclass is declared. -/
theorem recorded_derived (name : Token) (methods : List (Function Hops)) {parent : Nat}
    (read : superclassOf .direct frame reference machine = .ok parent machine) :
    let first := machine.bindIn frame name.lexeme .nil
    let third := first.enter frame superName (.class_ parent)
    let own := methodsIn machine.store.size methods
    let after := third.addClassIn frame name.lexeme (some parent) own
    Stmt.recorded .operations fuel (room + 1) frame (.class_ name (some reference) methods)
        (machine, log) =
      .ok none (after, log ++ [.step machine, .step first, .step (first.addFrame frame),
        .step third, .inherit frame parent first (.ok machine.store.size third),
        .step (third.addClass name.lexeme (some parent) own), .step after,
        .exec frame (.class_ name (some reference) methods) machine (.ok none after)]) := by
  intro first third own after
  have nested : ∀ a b c d e f g h : Operation, log ++ [a, b, c, d, e, f, g, h] =
      (((((((log ++ [a]) ++ [b]) ++ [c]) ++ [d]) ++ [e]) ++ [f]) ++ [g]) ++ [h] := by simp
  have looked : Recorder.operations.step (superclassOf .direct frame reference) (machine, log) =
      .ok parent (machine, log ++ [.step machine]) := by
    unfold Recorder.step Recorder.performed silent
    rw [read]
    rfl
  have size : machine.store.size = first.store.size := (Store.size_define _ _ _).symm
  simp only [nested, own, after, size]
  rw [Stmt.recorded]
  simp only [Recorder.statement, Recorder.performed, Recorder.declareClass, Bind.bind, EStateM.bind,
    Recorder.note_operations, looked]
  rfl

/-- How a class is not declared. -/
theorem recorded_orphan (name : Token) (methods : List (Function Hops)) {failure : Failure}
    (read : superclassOf .direct frame reference machine = .error failure machine) :
    Stmt.recorded .operations fuel (room + 1) frame (.class_ name (some reference) methods)
        (machine, log) =
      .error failure (machine, log ++ [.step machine,
        .exec frame (.class_ name (some reference) methods) machine (.error failure machine)]) := by
  have nested : ∀ a b : Operation, log ++ [a, b] = (log ++ [a]) ++ [b] := by simp
  have looked : Recorder.operations.step (superclassOf .direct frame reference) (machine, log) =
      .error failure (machine, log ++ [.step machine]) := by
    unfold Recorder.step Recorder.performed silent
    rw [read]
    rfl
  rw [nested, Stmt.recorded]
  simp only [Recorder.statement, Recorder.performed, Recorder.declareClass, Bind.bind, EStateM.bind,
    Recorder.note_operations, looked]
  rfl

end Equations

namespace LoggedWorld.Ensures

variable {logged : LoggedWorld} {fuel room frame : Nat} {layers : List Layer}

/-- What is known behind a statement. -/
def Behind (frame : Nat) (layers : List Layer) (stmt : Stmt Hops) (completion : Completion)
    (world : World Site.Firm) : Prop :=
  Returned completion world ∧ world.Fits frame (stmt.after layers)

/-- A statement whose steps are taken together. -/
theorem of_exec {stmt : Stmt Hops} {machine : Machine} {operations : List Operation}
    (fits : logged.world.Fits frame layers) (ready : stmt.Ready Site.Firm layers)
    (ended : leftBehind (Stmt.recorded .operations fuel room frame stmt logged.state) =
      (machine, logged.log ++ operations))
    (provenance : machine.Provenance logged.world.foreign (logged.log ++ operations))
    (widens : logged.machine.Widens (stmt.mayBind frame) machine)
    (valid : ValidLog none logged.log logged.machine operations machine)
    (same : ∀ operation ∈ operations, operation.after.instances = logged.machine.instances) :
    logged.Ensures (stmt.mayBind frame) none (Stmt.recorded .operations fuel room frame stmt)
      fun completion later => Behind frame layers stmt completion later.world :=
  of_steps ((recordingFollows _ fuel room).stmt frame stmt)
    ((Lookup.direct_follows_firm.evaluates fuel room).stmt fits ready) ended provenance widens valid
    same fun _ _ _ known => known

/-- **A function statement.** -/
theorem function {decl : Function Hops}
    (locates : logged.Locates frame layers (Stmt.function decl).lexical)
    (ready : (Stmt.function decl).Ready Site.Firm layers) :
    logged.Ensures ((Stmt.function decl).mayBind frame) none
      (Stmt.recorded .operations fuel (room + 1) frame (.function decl)) fun completion later =>
        Behind frame layers (.function decl) completion later.world := by
  have allowed : (Stmt.function decl).mayBind frame frame decl.name.lexeme :=
    ⟨rfl, decl.name, rfl, rfl⟩
  have made : logged.machine.Widens ((Stmt.function decl).mayBind frame)
      (logged.machine.addFunction ⟨decl, frame, false⟩) := .addFunction _ _
  have bound := Machine.Widens.bindIn (Nat.lt_of_lt_of_le locates.belongs.inside made.size)
    (ready.hosts decl.name rfl).1 (.inr allowed) (.function logged.machine.functions.size)
  have widens := made.trans bound
  have run := recorded_function fuel room frame logged.machine logged.log decl
  refine of_exec locates.fits ready (congrArg leftBehind run) ?_ widens
    (.cons made.toRetains .step (.cons bound.toRetains .step
      (.cons (.refl _) (.exec widens) .refl)))
    (by simp [Operation.after, leftBehind, Machine.addFunction, Machine.bindIn])
  refine logged.provenance.extend widens (fun other member => ?_) (fun _ _ => .inl) (by simp)
  rcases Array.mem_push.mp member with old | rfl
  · exact .inl old
  · exact .inr ⟨locates.belongs.widen widens (List.subset_append_left _ _), Bool.noConfusion⟩

section Classes

variable {name : Token} {methods : List (Function Hops)} (fits : logged.world.Fits frame layers)
  (workable : logged.machine.Workable frame)

/-- The superclass of a class exists, unless native functions make up classes. -/
theorem superclass_older {reference : Reference Hops} {parent : Nat}
    (fits : logged.world.Fits frame layers)
    (ready : (Stmt.class_ name (some reference) methods).Ready Site.Firm layers)
    (read : superclassOf .direct frame reference logged.machine = .ok parent logged.machine) :
    logged.world.foreign ∨ parent < logged.machine.hierarchy.classes.size := by
  have parents := (List.forall_mem_append.mp ready.sites).1
  have ends : World.logic.Ends logged.world (fun id (later : World Site.Firm) =>
      later.Holds (.class_ id)) (superclassOf .direct frame reference logged.machine) :=
    (superclassOf_meets Lookup.direct_follows_firm fits (List.forall_mem_singleton.mp parents)
      ready.accepted.1.2).ends
  rw [read] at ends
  obtain ⟨later, same, grows, holds⟩ := ends
  have same : later.machine = logged.machine := same
  exact holds.imp grows.foreign.mp fun older => same ▸ older

include fits workable

/-- A class that inherits from another one: its methods are made in a frame with `super`. -/
theorem heirClass {reference : Reference Hops} {parent : Nat}
    (ready : (Stmt.class_ name (some reference) methods).Ready Site.Firm layers)
    (read : superclassOf .direct frame reference logged.machine = .ok parent logged.machine) :
    logged.Ensures ((Stmt.class_ name (some reference) methods).mayBind frame) none
      (Stmt.recorded .operations fuel (room + 1) frame (.class_ name (some reference) methods))
      fun completion later =>
        Behind frame layers (.class_ name (some reference) methods) completion later.world := by
  have proper := (ready.hosts name rfl).1
  have allowed : (Stmt.class_ name (some reference) methods).mayBind frame frame name.lexeme :=
    ⟨rfl, name, rfl, rfl⟩
  let own := methodsIn logged.machine.store.size methods
  let first := logged.machine.bindIn frame name.lexeme .nil
  let third := first.enter frame superName (.class_ parent)
  have size : first.store.size = logged.machine.store.size := Store.size_define _ _ _
  have inner : logged.machine.store.size ≠ Machine.globals :=
    Nat.ne_of_gt logged.world.sound.inhabited
  have super : (third.store.bindings logged.machine.store.size).get? superName =
      some (.class_ parent) := by
    rw [← size]
    exact first.get?_enter frame superName (.class_ parent)
  -- The name is bound, then the frame is entered, the class made, and its name bound again.
  have named := Machine.Widens.bindIn workable.inside proper (.inr allowed) .nil
  have entered := Machine.Retains.bindIn
    (fun _ => first.get?_addFrame frame superName) (.class_ parent)
  have prepared := named.trans (.enter first frame superName (.class_ parent))
  have made : third.Widens ((Stmt.class_ name (some reference) methods).mayBind frame)
      (third.addClass name.lexeme (some parent) own) := .addClass _ _ _ _
  have inside := Nat.lt_of_lt_of_le workable.inside (prepared.trans made).size
  have bound := Machine.Widens.bindIn inside proper (.inr allowed)
    (.class_ third.hierarchy.classes.size)
  have widens := (prepared.trans made).trans bound
  have run := recorded_derived fuel room logged.log name methods read
  have fixed : ∀ fixture ∈ (Operation.inherit frame parent first
      (.ok logged.machine.store.size third)).fixture?,
      fixture.frame ≠ Machine.globals ∧ fixture.Holds third := by
    rintro _ ⟨rfl⟩
    exact ⟨inner, super⟩
  refine of_exec fits ready (congrArg leftBehind run) ?_ widens
    (.cons (.refl _) .step (.cons named.toRetains .step (.cons (.addFrame _ _) .step
      (.cons entered .step (.cons (.refl _) ⟨fixed, trivial⟩ (.cons made.toRetains .step
        (.cons bound.toRetains .step (.cons (.refl _) (.exec widens) .refl))))))))
    (by simp [Operation.after, leftBehind, Machine.addClassIn, Machine.addClass, Machine.bindIn,
      Machine.enter, Machine.addFrame])
  have kept := (made.trans bound).fixed _ _ _ inner (fun proper => proper.2 rfl) super
  let origin : ClassRun := ⟨frame, name, some reference, methods, logged.machine,
    third.addClassIn frame name.lexeme (some parent) own⟩
  refine origin.provenance logged.provenance ⟨prepared, rfl, rfl⟩ rfl widens
    (Nat.lt_of_lt_of_le workable.inside prepared.size) (List.mem_of_getLast? rfl) (by simp)
    (.inr ⟨parent, ⟨reference, rfl, read⟩, inner, kept⟩) ?_
  refine (superclass_older fits ready read).imp_right fun older => ?_
  have link : (third.hierarchy.next name.lexeme (some parent) own).superclass = some parent := by
    have kept : (some parent).filter (· < logged.machine.hierarchy.classes.size) = some parent := by
      simp [older]
    exact kept
  refine ⟨rfl, rfl, iff_of_false ?_ ?_, fun other => ⟨fun same => ?_, ?_⟩, get?_methodsIn _ methods⟩
  · exact fun none => Option.some_ne_none _ (link.symm.trans none)
  · rintro ⟨⟩
  · obtain rfl := Option.some.inj (link.symm.trans same)
    exact ⟨reference, rfl, read⟩
  · rintro ⟨_, ⟨rfl⟩, found⟩
    cases read.symm.trans found
    exact link

/-- A class without a superclass: its methods are made where the statement stands. -/
theorem plainClass (ready : (Stmt.class_ name none methods).Ready Site.Firm layers) :
    logged.Ensures ((Stmt.class_ name none methods).mayBind frame) none
      (Stmt.recorded .operations fuel (room + 1) frame (.class_ name none methods))
      fun completion later =>
        Behind frame layers (.class_ name none methods) completion later.world := by
  have proper := (ready.hosts name rfl).1
  have allowed : (Stmt.class_ name none methods).mayBind frame frame name.lexeme :=
    ⟨rfl, name, rfl, rfl⟩
  let own := methodsIn frame methods
  let first := logged.machine.bindIn frame name.lexeme .nil
  have prepared := Machine.Widens.bindIn workable.inside proper (.inr allowed) .nil
  have made : first.Widens ((Stmt.class_ name none methods).mayBind frame)
      (first.addClass name.lexeme none own) := .addClass _ _ _ _
  have inside := Nat.lt_of_lt_of_le workable.inside (prepared.trans made).size
  have bound := Machine.Widens.bindIn inside proper (.inr allowed)
    (.class_ first.hierarchy.classes.size)
  have widens := (prepared.trans made).trans bound
  have run := recorded_plain fuel room frame logged.machine logged.log name methods
  refine of_exec fits ready (congrArg leftBehind run) ?_ widens
    (.cons prepared.toRetains .step (.cons made.toRetains .step (.cons bound.toRetains .step
      (.cons (.refl _) (.exec widens) .refl))))
    (by simp [Operation.after, leftBehind, Machine.addClassIn, Machine.addClass, Machine.bindIn])
  let origin : ClassRun := ⟨frame, name, none, methods, logged.machine,
    first.addClassIn frame name.lexeme none own⟩
  refine origin.provenance logged.provenance ⟨prepared, rfl, rfl⟩ rfl widens
    (Nat.lt_of_lt_of_le workable.inside prepared.size) (List.mem_of_getLast? rfl)
    (by simp) (.inl ⟨rfl, workable.widen widens⟩)
    (.inr ⟨rfl, rfl, iff_of_true rfl rfl, fun parent => iff_of_false ?_ ?_,
      get?_methodsIn frame methods⟩)
  · rintro ⟨⟩
  · rintro ⟨_, ⟨⟩, _⟩

/-- A class with a superclass: its methods are made in a frame with `super`. -/
theorem derivedClass {reference : Reference Hops}
    (ready : (Stmt.class_ name (some reference) methods).Ready Site.Firm layers) :
    logged.Ensures ((Stmt.class_ name (some reference) methods).mayBind frame) none
      (Stmt.recorded .operations fuel (room + 1) frame (.class_ name (some reference) methods))
      fun completion later =>
        Behind frame layers (.class_ name (some reference) methods) completion later.world := by
  have still : Still (fun _ => True) (superclassOf .direct frame reference) :=
    .superclassOf trivial
  have left := still.leftBehind_eq logged.machine
  cases read : superclassOf .direct frame reference logged.machine with
  | error failure machine =>
      rw [read] at left
      obtain rfl : machine = logged.machine := left
      have run := recorded_orphan fuel room logged.log name methods read
      have quiet : logged.machine.Quiet nothing logged.machine := .of_same rfl rfl rfl
      exact of_exec fits ready (congrArg leftBehind run)
        (quiet.provenance logged.provenance (by simp)) (.refl _)
        (.cons (.refl _) .step (.cons (.refl _) (.exec (.refl _)) .refl))
        (by simp [Operation.after, leftBehind])
  | ok parent machine =>
      rw [read] at left
      obtain rfl : machine = logged.machine := left
      exact heirClass fits workable ready read

end Classes

/-- **A class statement.** -/
theorem class_ {name : Token} {superclass : Option (Reference Hops)}
    {methods : List (Function Hops)} (fits : logged.world.Fits frame layers)
    (workable : logged.machine.Workable frame)
    (ready : (Stmt.class_ name superclass methods).Ready Site.Firm layers) :
    logged.Ensures ((Stmt.class_ name superclass methods).mayBind frame) none
      (Stmt.recorded .operations fuel (room + 1) frame (.class_ name superclass methods))
      fun completion later =>
        Behind frame layers (.class_ name superclass methods) completion later.world := by
  cases superclass with
  | none => exact plainClass fits workable ready
  | some reference => exact derivedClass fits workable ready

/-- A function that is called belongs to the code of a method, and an initializer was bound. -/
theorem closureOf {may : Nat → String → Prop} {id : Nat}
    (holds : logged.world.Holds (.function id)) :
    logged.Ensures may none (Recorder.operations.step (Run.closureOf id)) fun closure later =>
      later.world.Callable Site.Firm closure ∧
        logged.machine.arity? (.function id) = some closure.decl.params.length ∧
          later.machine.Belongs later.log closure.frame closure.decl.lexical ∧
            closure.Bound later.log := by
  have still : Still (fun _ => True) (Run.closureOf id) := .closureOf
  refine (step (.closureOf holds) (.of_still still logged.machine)).weaken ?_
  rintro closure later continues ⟨⟨callable, arity⟩, ended⟩
  refine ⟨callable, arity, ?_⟩
  have here : logged.machine.functions[id]? = some logged.machine.functions[id] :=
    Array.getElem?_eq_getElem holds
  have member : closure ∈ logged.machine.functions := by
    simp only [Run.closureOf, Run.get_bind, here] at ended
    obtain ⟨rfl, _⟩ := EStateM.Result.ok.inj ended
    exact Array.getElem_mem holds
  exact (logged.provenance.functions closure member).imp
    (·.widen continues.widens continues.longer) (·.mono continues.longer)

end LoggedWorld.Ensures

/-! ### Trees -/

/-- What an expression has to know about variables that are being initialized: if the innermost
scope has one, it is initialized in the same frame, and the references stand in its initializer. -/
structure Initializing (current : Option Initialization) (frame : Nat) (layers : List Layer)
    (references : List (Use × Reference Hops)) : Prop where
  pending : ∀ layer ∈ layers.head?, ∀ name, layer.pending = some name →
    ∃ initialization ∈ current, initialization.frame = frame ∧ initialization.name.lexeme = name
  inside : ∀ initialization ∈ current, references ⊆ initialization.init.references

/-- No variable is being initialized in the innermost scope. -/
def Rests (layers : List Layer) : Prop :=
  ∀ layer ∈ layers.head?, layer.pending = none

theorem Rests.after {layers : List Layer} (rests : Rests layers) (stmt : Stmt Hops) :
    Rests (stmt.after layers) := by
  unfold Stmt.after
  split
  · exact rests
  · cases layers with
    | nil => exact rests
    | cons layer more =>
        rintro _ ⟨⟩
        rfl

theorem Rests.initializing {layers : List Layer} (rests : Rests layers) (frame : Nat)
    (references : List (Use × Reference Hops)) : Initializing none frame layers references where
  pending layer head name pending := by
    rw [rests layer head] at pending
    cases pending
  inside _ member := absurd member (Option.not_mem_none _)

/-- The initializer of a variable knows what is being initialized. -/
theorem Initializing.begin {frame : Nat} {layers : List Layer} {name : Token} (init : Expr Hops) :
    Initializing (some ⟨frame, name, init⟩) frame (Layer.begin name.lexeme layers)
      init.references := by
  refine ⟨fun layer head other pending => ?_, ?_⟩
  · cases layers with
    | nil => cases head
    | cons first more =>
        obtain rfl := Option.some.inj head
        exact ⟨_, rfl, rfl, Option.some.inj pending⟩
  · rintro _ ⟨⟩
    exact List.Subset.refl _

/-- Statements with some references can run in a frame: no variable is being initialized there. -/
structure LoggedWorld.CanRun (logged : LoggedWorld) (frame : Nat) (layers : List Layer)
    (references : List (Use × Reference Hops)) : Prop
    extends logged.Locates frame layers references where
  workable : logged.machine.Workable frame
  rests : Rests layers

namespace LoggedWorld.CanRun

variable {logged later : LoggedWorld} {frame : Nat} {layers : List Layer}
  {references fewer : List (Use × Reference Hops)}

theorem mono (canRun : logged.CanRun frame layers references) (subset : fewer ⊆ references) :
    logged.CanRun frame layers fewer :=
  ⟨canRun.toLocates.mono subset, canRun.workable, canRun.rests⟩

theorem go {may : Nat → String → Prop} {current : Option Initialization}
    (continues : logged.Continues may current later)
    (canRun : logged.CanRun frame layers references) :
    later.CanRun frame layers references :=
  ⟨continues.locates canRun.toLocates, canRun.workable.widen continues.widens, canRun.rests⟩

/-- Statements at top level. -/
theorem globals (logged : LoggedWorld) (references : List (Use × Reference Hops)) :
    logged.CanRun Machine.globals [] references where
  fits := rfl
  belongs := .globals logged.world.sound.root logged.world.sound.inhabited
  workable := ⟨logged.world.sound.inhabited, fun inner => absurd rfl inner⟩
  rests _ head := absurd head (Option.not_mem_none _)

end LoggedWorld.CanRun

/-- Nothing is returned. -/
theorem not_returned (world : World Site.Firm) : Returned none world :=
  fun value member => absurd member (Option.not_mem_none value)

/-- **Running trees leads from logged to logged**, with some room for nested evaluation. -/
structure LoggedRuns (fuel room : Nat) : Prop where
  expr : ∀ {logged : LoggedWorld} {current : Option Initialization} {frame : Nat}
    {layers : List Layer} {expr : Expr Hops}, logged.Locates frame layers expr.references →
      expr.Ready Site.Firm layers → Initializing current frame layers expr.references →
      logged.Ensures (Expr.mayBind (· ∈ current) expr.references frame) current
        (Expr.recorded .operations fuel room frame expr) fun value later => Held value later.world
  stmt : ∀ {logged : LoggedWorld} {frame : Nat} {layers : List Layer} {stmt : Stmt Hops},
    logged.CanRun frame layers stmt.lexical → stmt.Ready Site.Firm layers →
      logged.Ensures (stmt.mayBind frame) none (Stmt.recorded .operations fuel room frame stmt)
        fun completion later => LoggedWorld.Ensures.Behind frame layers stmt completion later.world
  call : ∀ {logged : LoggedWorld} {callee : Value} {args : List Value}, logged.world.Holds callee →
    (∀ arg ∈ args, logged.world.Holds arg) → logged.machine.arity? callee = some args.length →
      logged.Ensures nothing none (recordedCall .operations fuel room callee args)
        fun value later => Held value later.world

namespace LoggedRuns

variable {fuel room : Nat} (runs : LoggedRuns fuel room) {logged : LoggedWorld} {frame : Nat}
  {layers : List Layer}

include runs

/-- A part of an expression. -/
theorem part {current : Option Initialization} {references : List (Use × Reference Hops)}
    {expr : Expr Hops} (locates : logged.Locates frame layers references)
    (initializing : Initializing current frame layers references)
    (subset : expr.references ⊆ references) (ready : expr.Ready Site.Firm layers) :
    logged.Ensures (Expr.mayBind (· ∈ current) references frame) current
      (Expr.recorded .operations fuel room frame expr)
      fun value later => Held value later.world := by
  have fewer : Initializing current frame layers expr.references :=
    ⟨initializing.pending, fun initialization member =>
      List.Subset.trans subset (initializing.inside initialization member)⟩
  refine (runs.expr (locates.mono subset) ready fewer).mono_current ?_
  rintro holder _ name ⟨same, initialization, known, early⟩
  exact ⟨same, initialization, known, early.mono subset⟩

/-- Arguments are evaluated like other parts, one after the other. -/
theorem arguments {current : Option Initialization} {references : List (Use × Reference Hops)}
    {args : List (Expr Hops)} (locates : logged.Locates frame layers references)
    (initializing : Initializing current frame layers references)
    (subset : argumentReferences args ⊆ references)
    (ready : ∀ arg ∈ args, arg.Ready Site.Firm layers) :
    logged.Ensures (Expr.mayBind (· ∈ current) references frame) current
      (collect (fun arg => Expr.recorded .operations fuel room frame arg) args)
      fun values later => ∀ value ∈ values, Held value later.world := by
  have collected : logged.Ensures (Expr.mayBind (· ∈ current) references frame) current
      (collect (fun arg => Expr.recorded .operations fuel room frame arg) args)
      fun values later => later.Locates frame layers references ∧
        ∀ value ∈ values, Held value later.world :=
    RunLogic.Ensures.collect (fun continues held => continues.grows.holds held)
      (fun arg member _ located => (runs.part located initializing
        (List.Subset.trans (references_subset_arguments member) subset) (ready arg member)).weaken
          fun _ _ continues held => ⟨continues.locates located, held⟩)
      locates
  exact collected.weaken fun _ _ _ known => known.2

/-- An expression in a statement that is not a declaration binds nothing. -/
theorem whole {may : Nat → String → Prop} {references : List (Use × Reference Hops)}
    {expr : Expr Hops} (canRun : logged.CanRun frame layers references)
    (subset : expr.references ⊆ references) (ready : expr.Ready Site.Firm layers) :
    logged.Ensures may none (Expr.recorded .operations fuel room frame expr) fun value later =>
      Held value later.world := by
  refine (runs.expr (canRun.mono subset).toLocates ready
    (canRun.rests.initializing frame _)).mono ?_
  rintro _ _ _ ⟨_, initialization, known, _⟩
  exact absurd known (Option.not_mem_none initialization)

/-- Statements one after the other bind names in their frame only. -/
theorem body {body : List (Stmt Hops)} (canRun : logged.CanRun frame layers (lexicalIn body))
    (ready : Ready Site.Firm layers body) :
    logged.Ensures (fun holder _ => holder = frame) none
      (untilReturn (fun stmt => Stmt.recorded .operations fuel room frame stmt) body)
      fun completion later => Returned completion later.world := by
  induction body generalizing logged layers with
  | nil => exact .pure (not_returned _)
  | cons stmt more ih =>
      have first := runs.stmt (canRun.mono (List.subset_append_left _ _)) ready.head
      refine .bind (first.mono fun _ _ _ here => here.1) fun completion later continues known => ?_
      cases completion with
      | some value => exact .pure known.1
      | none =>
          have further := canRun.go continues |>.mono (List.subset_append_right _ _)
          exact ih ⟨⟨known.2, further.belongs⟩, further.workable, canRun.rests.after stmt⟩
            ready.tail

/-- **Calling a function** binds nothing in the frames that were there. -/
theorem invoke {closure : Closure} {args : List Value}
    (callable : logged.world.Callable Site.Firm closure)
    (belongs : logged.machine.Belongs logged.log closure.frame closure.decl.lexical)
    (bound : closure.Bound logged.log) (given : ∀ arg ∈ args, logged.world.Holds arg)
    (paired : closure.decl.params.length = args.length) :
    logged.Ensures nothing none (Recorder.operations.invoke
      (fun inner stmt => Stmt.recorded .operations fuel room inner stmt) closure args)
      fun value later => Held value later.world := by
  obtain ⟨⟨name, params, body⟩, frame, isInitializer⟩ := closure
  obtain ⟨layers, fits, code, initializes⟩ := callable
  have hosts : ∀ param ∈ params, (LocalScope.ofBody params body).declares param.lexeme = true ∧
      ProperName param.lexeme := fun param member =>
    have host := Hosts.of_param layers (by rfl) member (code.accepted.1 param member)
    ⟨host.2 (entering params body) rfl, host.1⟩
  have entered : logged.Ensures (fun holder _ => holder = logged.machine.store.size) none (do
      let inner ← Recorder.operations.step (Run.newFrame frame)
      Recorder.operations.defineAll inner params args
      let completion ←
        untilReturn (fun stmt => Stmt.recorded .operations fuel room inner stmt) body
      Recorder.operations.note (.leaves ⟨.mk name params body, frame, isInitializer⟩ completion)
      Recorder.operations.step
        (Run.callResult .direct ⟨.mk name params body, frame, isInitializer⟩ completion))
      (LoggedWorld.Ensures.Called ⟨.mk name params body, frame, isInitializer⟩) := by
    refine .bind (.newFrame ⟨fits, belongs⟩ (.ofBody params body)) fun inner first early known => ?_
    obtain ⟨rfl, workable, locates⟩ := known
    refine .bind (.defineAll locates.fits hosts
      (fun arg member => early.grows.holds (given arg member)) paired fun _ => rfl)
      fun _ second next fits' => ?_
    rw [List.append_nil] at fits'
    have canRun : second.CanRun logged.machine.store.size (entering params body :: layers)
        (lexicalIn body) :=
      ⟨⟨fits', (next.locates locates).belongs⟩, workable.widen next.widens, by rintro _ ⟨⟩; rfl⟩
    refine .bind (runs.body canRun (.ofBody code.sites code.accepted.2))
      fun completion third last returns => .note ?_
    have continues := (early.trans next).trans last
    exact .callResult (continues.grows.spans fits) initializes returns
      (bound.mono continues.longer)
  refine .called (.note (entered.mono ?_))
  rintro holder inside _ rfl
  exact Nat.lt_irrefl _ inside

end LoggedRuns

section Trees

variable {fuel room : Nat} (runs : LoggedRuns fuel room) {logged : LoggedWorld} {frame : Nat}
  {layers : List Layer}

include runs

theorem Expr.recorded_ensures {current : Option Initialization} {expr : Expr Hops}
    (locates : logged.Locates frame layers expr.references) (ready : expr.Ready Site.Firm layers)
    (initializing : Initializing current frame layers expr.references) :
    logged.Ensures (Expr.mayBind (· ∈ current) expr.references frame) current
      (Expr.recorded .operations fuel (room + 1) frame expr)
      fun value later => Held value later.world := by
  refine .evaluated locates ready ((recordingFollows _ fuel (room + 1)).expr frame expr) ?_
  cases expr with
  | assign target value =>
      obtain ⟨fine, rest⟩ := List.forall_mem_cons.mp ready
      -- What is assigned to comes early only if it is the variable that is being initialized.
      have early : ∀ layer ∈ layers.head?, layer.pending = some target.token.lexeme →
          target.target = some 0 → Expr.mayBind (· ∈ current) (Expr.assign target value).references
            frame frame target.token.lexeme := by
        intro layer head pending here
        obtain ⟨initialization, known, rfl, same⟩ := initializing.pending layer head _ pending
        refine ⟨rfl, initialization, known, rfl, ?_, same.symm, target, same.symm, here,
          List.mem_cons_self, initializing.inside initialization known List.mem_cons_self⟩
        cases layers with
        | nil => cases head
        | cons => exact logged.world.sound.ne_globals locates.fits
      refine .bind (runs.part locates initializing (List.subset_cons_self _ _) rest)
        fun value later continues holds => ?_
      have fits := continues.grows.spans locates.fits
      obtain ⟨proper, leads⟩ := fine.leads
      exact .bind (.step (.assign fits proper leads holds)
        (LoggedWorld.Ensures.assign_quiet fits fine early value)) fun _ last more _ =>
          .pure (more.grows.holds holds)
  | binary left op token right =>
      obtain ⟨first, second⟩ := ready_append.mp ready
      refine .bind (runs.part locates initializing (List.subset_append_left _ _) first)
        fun left later continues _ => ?_
      refine .bind (runs.part (continues.locates locates) initializing
        (List.subset_append_right _ _) second) fun right last _ _ => ?_
      exact .look .applyBinary (.applyBinary trivial)
  | call callee paren args =>
      obtain ⟨first, rest⟩ := ready_append.mp ready
      refine .bind (runs.part locates initializing (List.subset_append_left _ _) first)
        fun called later continues holds => ?_
      refine .bind (runs.arguments (continues.locates locates) initializing
        (List.subset_append_right _ _) (ready_arguments rest)) fun values next more given => ?_
      refine .bind (.look .checkCall (.checkCall trivial)) fun _ last most paired => ?_
      refine (runs.call ((more.trans most).grows.holds holds)
        (fun value member => most.grows.holds (given value member)) paired).mono ?_
      exact fun _ _ _ never => never.elim
  | get object name =>
      refine .bind (runs.part locates initializing (List.Subset.refl _) ready)
        fun value later continues holds => ?_
      cases value with
      | instance_ id => exact .getProperty holds
      | _ => exact .fail
  | grouping inner => exact runs.part locates initializing (List.Subset.refl _) ready
  | literal value => exact .pure (by cases value <;> trivial)
  | logical left op token right =>
      obtain ⟨first, second⟩ := ready_append.mp ready
      refine .bind (runs.part locates initializing (List.subset_append_left _ _) first)
        fun left later continues holds => ?_
      by_cases short : shortCircuits op left = true
      · simp only [if_pos short]
        exact .pure holds
      · simp only [if_neg short]
        exact runs.part (continues.locates locates) initializing
          (List.subset_append_right _ _) second
  | set object name value =>
      obtain ⟨first, second⟩ := ready_append.mp ready
      refine .bind (runs.part locates initializing (List.subset_append_left _ _) first)
        fun target later continues _ => ?_
      cases target with
      | instance_ id =>
          refine .bind (runs.part (continues.locates locates) initializing
            (List.subset_append_right _ _) second) fun value next _ holds => ?_
          exact .bind (.aside (.setField holds) rfl rfl rfl) fun _ last more _ =>
            .pure (more.grows.holds holds)
      | _ => exact .fail
  | super keyword method => exact .superMethod locates.fits (List.forall_mem_singleton.mp ready)
  | this keyword =>
      have firm := List.forall_mem_singleton.mp ready
      exact .look (this_meets Lookup.direct_follows_firm locates.fits firm) (.follow trivial)
  | unary sign token right =>
      refine .bind (runs.part locates initializing (List.Subset.refl _) ready) fun _ _ _ _ => ?_
      exact .look .applySign (.applySign trivial)
  | var name =>
      have fine := List.forall_mem_singleton.mp ready
      exact .look (.read locates.fits.weaken fine.leads) (.follow trivial)

/-- A branch declares nothing. -/
theorem LoggedRuns.branch {may : Nat → String → Prop} {references : List (Use × Reference Hops)}
    {branch : Stmt Hops} (canRun : logged.CanRun frame layers references)
    (subset : branch.lexical ⊆ references) (sites : ∀ site ∈ branch.sites layers, site.Firm)
    (accepted : branch.Each Accepted) (plain : branch.declared? = none) :
    logged.Ensures may none (Stmt.recorded .operations fuel room frame branch)
      fun completion later => Returned completion later.world ∧
        later.world.Fits frame layers := by
  have run := runs.stmt (canRun.mono subset) ⟨sites, accepted, by simp [plain]⟩
  refine (run.mono ?_).weaken fun _ _ _ known => ⟨known.1, ?_⟩
  · rintro _ _ _ ⟨_, declared, here, _⟩
    rw [plain] at here
    cases here
  · have fits := known.2
    rwa [Stmt.after_plain plain] at fits

theorem LoggedRuns.block {body : List (Stmt Hops)}
    (canRun : logged.CanRun frame layers (Stmt.block body).lexical)
    (ready : (Stmt.block body).Ready Site.Firm layers) :
    logged.Ensures (fun holder _ => holder = logged.machine.store.size) none (do
        let inner ← Recorder.operations.step (Run.newFrame frame)
        untilReturn (fun stmt => Stmt.recorded .operations fuel room inner stmt) body)
      fun completion later => Returned completion later.world ∧
        later.world.Fits frame layers := by
  refine .bind (.newFrame canRun.toLocates (.ofBody [] body)) fun _ later continues known => ?_
  obtain ⟨rfl, workable, locates⟩ := known
  have inside : later.CanRun logged.machine.store.size (entering [] body :: layers)
      (lexicalIn body) := ⟨locates, workable, by rintro _ ⟨⟩; rfl⟩
  exact (runs.body inside (.ofBody ready.sites ready.accepted.2)).weaken
    fun _ last more returns => ⟨returns, (continues.grows.trans more.grows).spans canRun.fits⟩

/-- The body of a loop declares nothing, so every turn starts where the first one did. -/
theorem LoggedRuns.turns {may : Nat → String → Prop} {cond : Expr Hops} {body : Stmt Hops}
    (canRun : logged.CanRun frame layers (Stmt.while_ cond body).lexical)
    (ready : (Stmt.while_ cond body).Ready Site.Firm layers) :
    logged.Ensures may none
      (loop (Recorder.operations.note (.turns cond) >>= fun _ =>
          Expr.recorded .operations fuel room frame cond)
        (Stmt.recorded .operations fuel room frame body) fuel)
      fun completion later => Returned completion later.world ∧
        later.CanRun frame layers (Stmt.while_ cond body).lexical := by
  obtain ⟨test, branch⟩ := List.forall_mem_append.mp ready.sites
  have plain := ready.accepted.1.1.branches body List.mem_cons_self
  refine RunLogic.Ensures.loop (fun now => ?_) (fun now => ?_) (fun _ => trivial)
    ⟨not_returned _, canRun⟩
  · exact (runs.whole now.2 (List.subset_append_left _ _) test).weaken
      fun _ _ continues _ => ⟨not_returned _, now.2.go continues⟩
  · exact (runs.branch now.2 (List.subset_append_right _ _) branch ready.accepted.2.2 plain).weaken
      fun _ _ continues known => ⟨known.1, now.2.go continues⟩

theorem Stmt.recorded_ensures {stmt : Stmt Hops} (canRun : logged.CanRun frame layers stmt.lexical)
    (ready : stmt.Ready Site.Firm layers) :
    logged.Ensures (stmt.mayBind frame) none (Stmt.recorded .operations fuel (room + 1) frame stmt)
      fun completion later =>
        LoggedWorld.Ensures.Behind frame layers stmt completion later.world := by
  have fits := canRun.fits
  cases stmt with
  | function decl => exact .function canRun.toLocates ready
  | class_ name superclass methods => exact .class_ fits canRun.workable ready
  | block body =>
      refine .executed ((runs.block canRun ready).mono ?_)
      rintro holder inside _ rfl
      exact absurd inside (Nat.lt_irrefl _)
  | expression value =>
      refine .executed (.bind (runs.whole canRun (List.Subset.refl _) ready.sites)
        fun _ later continues _ => ?_)
      exact .pure ⟨not_returned _, continues.grows.spans fits⟩
  | ifThen cond yes =>
      obtain ⟨test, branch⟩ := List.forall_mem_append.mp ready.sites
      refine .executed (.bind (runs.whole canRun (List.subset_append_left _ _) test)
        fun value later continues _ => ?_)
      by_cases truthy : value.isTruthy = true
      · simp only [if_pos truthy]
        exact runs.branch (canRun.go continues) (List.subset_append_right _ _) branch
          ready.accepted.2.2 (ready.accepted.1.1.branches yes List.mem_cons_self)
      · simp only [if_neg truthy]
        exact .pure ⟨not_returned _, continues.grows.spans fits⟩
  | ifElse cond yes no =>
      obtain ⟨tested, second⟩ := List.forall_mem_append.mp ready.sites
      obtain ⟨test, first⟩ := List.forall_mem_append.mp tested
      have left : cond.references ++ yes.lexical ⊆ (Stmt.ifElse cond yes no).lexical :=
        List.subset_append_left _ _
      refine .executed (.bind (runs.whole canRun
        (List.Subset.trans (List.subset_append_left _ _) left) test)
        fun value later continues _ => ?_)
      have canRun := canRun.go continues
      by_cases truthy : value.isTruthy = true
      · simp only [if_pos truthy]
        exact runs.branch canRun (List.Subset.trans (List.subset_append_right _ _) left) first
          ready.accepted.2.2.1 (ready.accepted.1.1.branches yes List.mem_cons_self)
      · simp only [if_neg truthy]
        exact runs.branch canRun (List.subset_append_right _ _) second
          ready.accepted.2.2.2 (ready.accepted.1.1.branches no (by simp [Stmt.branches]))
  | print token value =>
      refine .executed (.bind (runs.whole canRun (List.Subset.refl _) ready.sites)
        fun value later continues _ => ?_)
      refine .bind (.aside (.print value) rfl rfl rfl) fun _ last more _ => ?_
      exact .pure ⟨not_returned _, (continues.grows.trans more.grows).spans fits⟩
  | return_ keyword value =>
      cases value with
      | none => exact .executed (.pure ⟨by rintro _ ⟨⟩; trivial, fits⟩)
      | some value =>
          refine .executed (.bind (runs.whole canRun (List.Subset.refl _) ready.sites)
            fun value later continues holds => ?_)
          exact .pure ⟨by rintro _ ⟨⟩; exact holds, continues.grows.spans fits⟩
  | var name init =>
      have hosts := ready.hosts name rfl
      cases init with
      | none =>
          refine .executed (.bind (.define fits hosts.2 hosts.1 trivial
            (.inr ⟨rfl, name, rfl, rfl⟩)) fun _ later _ known => ?_)
          exact .pure ⟨not_returned _, known⟩
      | some init =>
          have begun : logged.Locates frame (begin name.lexeme layers) init.references :=
            ⟨fits.begin name.lexeme, canRun.belongs⟩
          refine .initialized (.bind ((runs.expr begun ready.sites (.begin init)).mono_current
            ?_) fun value later continues holds => ?_)
          · rintro holder _ other ⟨same, initialization, ⟨⟩, early⟩
            exact ⟨same, name, rfl, early.name⟩
          · refine .bind (.define (continues.grows.spans fits) hosts.2 hosts.1 holds
              (.inr ⟨rfl, name, rfl, rfl⟩)) fun _ last _ known => ?_
            exact .pure ⟨not_returned _, known⟩
  | while_ cond body =>
      exact .executed ((runs.turns canRun ready).weaken fun _ _ continues known =>
        ⟨known.1, continues.grows.spans fits⟩)

theorem recordedCall_ensures {callee : Value} {args : List Value}
    (holds : logged.world.Holds callee) (given : ∀ arg ∈ args, logged.world.Holds arg)
    (paired : logged.machine.arity? callee = some args.length) :
    logged.Ensures nothing none (recordedCall .operations fuel (room + 1) callee args)
      fun value later => Held value later.world := by
  cases callee with
  | native id => exact .callNative holds given
  | function id =>
      refine .bind (.closureOf holds) fun closure later continues found => ?_
      have arity := Option.some.inj (found.2.1.symm.trans paired)
      exact runs.invoke found.1 found.2.2.1 found.2.2.2
        (fun arg member => continues.grows.holds (given arg member)) arity
  | class_ id =>
      refine .bind (.aside (.newInstance holds) rfl rfl rfl) fun made first early result => ?_
      refine .bind (.look (.initializerOf id) .initializerOf) fun method second more found => ?_
      cases method with
      | none => exact .pure (more.grows.holds result.1)
      | some method =>
          have arity : method.decl.params.length = args.length := by
            have same := Option.some.inj paired
            rw [Machine.classArity, ← result.2, ← found.1] at same
            exact same
          have inherited : first.machine.hierarchy.method? initName id = some method :=
            found.1.symm
          obtain ⟨origin, written, provides⟩ := first.provenance.method? inherited
          refine .bind (.bindMethod (found.2 method rfl) (more.grows.holds result.1)
            ⟨origin, more.longer written, provides.widen more.widens⟩)
            fun closure third most bound => ?_
          have kept := (early.trans more).trans most
          refine .bind (runs.invoke bound.callable bound.belongs bound.written
            (fun arg member => kept.grows.holds (given arg member)) (bound.decl ▸ arity))
            fun _ last final _ => ?_
          exact .pure (((more.trans most).trans final).grows.holds result.1)
  | _ => cases paired

end Trees

/-- **Running trees leads from logged to logged**, however much room there is. -/
theorem loggedRuns (fuel room : Nat) : LoggedRuns fuel room := by
  induction room with
  | zero => exact ⟨fun _ _ _ => .throw, fun _ _ => .throw, fun _ _ _ => .throw⟩
  | succ room ih =>
      exact ⟨Expr.recorded_ensures ih, Stmt.recorded_ensures ih, recordedCall_ensures ih⟩

/-- Statements at top level bind only globals. -/
theorem recordedStatements_ensures (fuel room : Nat) {tree : List (Stmt Hops)}
    (ready : Ready Site.Firm [] tree) (logged : LoggedWorld) :
    logged.Ensures (fun holder _ => holder = Machine.globals) none
      (recordedStatements .operations fuel room tree) fun _ _ => True := by
  induction tree generalizing logged with
  | nil => exact .pure trivial
  | cons stmt more ih =>
      have first := (loggedRuns fuel room).stmt (.globals logged stmt.lexical) ready.head
      refine .bind (first.mono fun _ _ _ here => here.1) fun _ later _ _ => ?_
      have rest := ready.tail
      rw [stmt.after_nil] at rest
      exact ih rest later

/-! ### Histories -/

/-- The log after statements at top level were run. -/
def logOf (turns room : Nat) (tree : List (Stmt Hops)) (machine : Machine)
    (log : List Operation) : List Operation :=
  (leftBehind (recordedStatements .operations turns room tree (machine, log))).2

theorem leftBehind_recordedStatements (turns room : Nat) (tree : List (Stmt Hops))
    (machine : Machine) (log : List Operation) :
    leftBehind (recordedStatements .operations turns room tree (machine, log)) =
      (leftBehind (runStatements .direct turns room tree machine),
        logOf turns room tree machine log) := by
  refine Prod.ext ?_ rfl
  rw [← leftBehind_unrecorded, recordedStatements_follows .operations turns room tree _]

/-- Recording changes nothing: all that is run on a machine ends as it does without a log. -/
def RecordsFaithfully (machine : Machine) (log : List Operation) : Prop :=
  ∀ turns room tree,
    unrecorded (recordedStatements .operations turns room tree (machine, log)) =
      runStatements .direct turns room tree machine

theorem recordsFaithfully (machine : Machine) (log : List Operation) :
    RecordsFaithfully machine log :=
  fun turns room tree => recordedStatements_follows .operations turns room tree (machine, log)

/-- **The machines that texts lead to** from a new one, each with everything that was done on the
way. A text that passes is run within any bounds, and may fail. In between, native functions may be
added, as far as they are allowed. -/
inductive History (allowed : Native → Prop) : Machine → List Operation → Prop
  | start (time : Clock) : History allowed (.standard time) []
  | native {machine : Machine} {log : List Operation} (history : History allowed machine log)
    {native : Native} (here : allowed native) : History allowed (machine.defineNative native) log
  | run {machine : Machine} {log : List Operation} (history : History allowed machine log)
    {text : String} {tree : List (Stmt Hops)} {nesting : Nat} (passes : Passes text tree nesting)
    (turns room : Nat) :
    History allowed (leftBehind (runStatements .direct turns room tree machine))
      (logOf turns room tree machine log)

namespace LoggedWorld

/-- A new world, on which nothing was done. -/
def standard (time : Clock) (foreign : Prop) : LoggedWorld where
  world := .standard Site.Firm time foreign
  log := []
  provenance := {
    functions := fun _ member => absurd member (Array.not_mem_empty _)
    classes := fun _ _ here => by cases here
    bound := fun _ _ _ _ _ member => absurd member List.not_mem_nil }
  instances _ member := absurd member List.not_mem_nil

/-- A logged world with one more native function. -/
def defineNative (logged : LoggedWorld) (native : Native)
    (lawful : native.Lawful ∧ (logged.world.foreign ∨ native.Faithful)) : LoggedWorld where
  world := logged.world.defineNative native lawful
  log := logged.log
  provenance := logged.provenance.grow (.defineNative logged.world.sound.inhabited native)
    (List.Subset.refl _) (fun _ => .inl) (fun _ _ => .inl) fun _ _ _ _ _ => .inl
  instances := logged.instances

/-- A text that passes leads from one logged world to another one. -/
theorem exists_run (logged : LoggedWorld) {text : String} {tree : List (Stmt Hops)} {nesting : Nat}
    (passes : Passes text tree nesting) (turns room : Nat) :
    ∃ later : LoggedWorld,
      later.state = (leftBehind (runStatements .direct turns room tree logged.machine),
        logOf turns room tree logged.machine logged.log) ∧
      logged.Continues (fun holder _ => holder = Machine.globals) none later := by
  obtain ⟨later, ended, continues⟩ := RunLogic.Ends.exists_later
    (recordedStatements_ensures turns room passes.firm logged)
  exact ⟨later, ended.trans (leftBehind_recordedStatements turns room tree _ _), continues⟩

end LoggedWorld

/-- **A history leads to a logged world, by a valid log.** Native functions make up no classes if
those that are allowed do not. -/
theorem History.valid {allowed : Native → Prop} {foreign : Prop}
    (lawful : ∀ native, allowed native → native.Lawful ∧ (foreign ∨ native.Faithful))
    {machine : Machine} {log : List Operation} (history : History allowed machine log) :
    ∃ logged : LoggedWorld, logged.state = (machine, log) ∧ (logged.world.foreign ↔ foreign) ∧
      ∃ first, ValidLog none [] first log machine := by
  induction history with
  | start time => exact ⟨.standard time foreign, rfl, .rfl, _, .refl⟩
  | native history here ih =>
      obtain ⟨logged, same, known, first, valid⟩ := ih
      cases same
      refine ⟨logged.defineNative _ ?_, rfl, known, first, ?_⟩
      · rw [known]
        exact lawful _ here
      · exact List.append_nil logged.log ▸ valid.append (.nil (.defineNative logged.machine _))
  | run history passes turns room ih =>
      obtain ⟨logged, same, known, first, valid⟩ := ih
      cases same
      obtain ⟨later, ended, continues⟩ := logged.exists_run passes turns room
      refine ⟨later, ended, continues.grows.foreign.trans known, first, ?_⟩
      obtain ⟨left, written⟩ := Prod.mk.inj ended
      obtain ⟨more, longer, further⟩ := continues.written
      rw [← left, ← written, longer]
      exact valid.append (by simpa using further)

/-- What is known of a history with lawful native functions. -/
theorem History.known {machine : Machine} {log : List Operation}
    (history : History Native.Lawful machine log) :
    machine.Provenance True log ∧ ∃ first, ValidLog none [] first log machine := by
  have foreign : ∀ native : Native, native.Lawful → native.Lawful ∧ (True ∨ native.Faithful) :=
    fun _ lawful => ⟨lawful, .inl trivial⟩
  obtain ⟨logged, same, known, valid⟩ := history.valid foreign
  cases same
  exact ⟨propext known ▸ logged.provenance, valid⟩

/-- **A history goes on with every text.** -/
theorem History.run_text {allowed : Native → Prop}
    (lawful : ∀ native, allowed native → native.Lawful)
    {session : Session} {log : List Operation} (history : History allowed session.machine log)
    (text : String) : ∃ more, History allowed (session.run text).1.machine (log ++ more) := by
  rcases session.run_machine text with idle | ⟨tree, passes, run⟩
  · exact ⟨[], by rwa [idle, List.append_nil]⟩
  · have foreign : ∀ native, allowed native → native.Lawful ∧ (True ∨ native.Faithful) :=
      fun native here => ⟨lawful native here, .inl trivial⟩
    obtain ⟨logged, same, _⟩ := history.valid foreign
    have left : logged.machine = session.machine := congrArg Prod.fst same
    have written : logged.log = log := congrArg Prod.snd same
    obtain ⟨later, ended, continues⟩ :=
      logged.exists_run passes session.limits.turns session.limits.room
    obtain ⟨more, longer, _⟩ := continues.written
    refine ⟨more, ?_⟩
    rw [run, ← written, ← longer, (Prod.mk.inj ended).2, left, written]
    exact history.run passes _ _

/-- The machine of a session has a history. -/
theorem Session.Reached.history {session : Session} (reached : session.Reached) :
    ∃ log, History Native.Lawful session.machine log := by
  induction reached with
  | start report time checkOnly limits => exact ⟨[], .start time⟩
  | run reached text ih =>
      obtain ⟨log, history⟩ := ih
      obtain ⟨more, further⟩ := history.run_text (fun _ => id) text
      exact ⟨_, further⟩
  | reset reached ih => exact ih
  | native reached lawful ih =>
      obtain ⟨log, history⟩ := ih
      exact ⟨log, history.native lawful⟩
  | within reached passes turns room ih =>
      obtain ⟨log, history⟩ := ih
      exact ⟨_, history.run passes turns room⟩

end Lox
