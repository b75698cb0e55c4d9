/-
**Returns.** What a statement returns is taken by the call of the function that it belongs to.

* `Passes.allReturnWell`: in a text that passes, every return stands in a function, and those of an
  initializer have no value.
* `Cleared` are the logs in which everything that is returned is taken: from the return on, nothing
  happens but that the statements around it end, and then the innermost call takes the value.
* `Stmt.recorded_completes`: so it is in every run of a statement, up to the call that it runs in.
* `Session.Reached.returns_taken`: so it is in every run of a text that passes, and no return
  reaches the top.
-/

import Lox.Proofs.Carried
import Lox.Proofs.Recording
import Lox.Proofs.Violations

namespace Lox

open Verdict (yields_bind yields_descend yields_objectIf yields_pure)

open Run

/-! ### Where returns stand -/

section Places

variable {ρ : Type}

/-- Whether a statement is a return. -/
def Stmt.isReturn : Stmt ρ → Bool
  | .return_ _ _ => true
  | _ => false

/-- A return stands in a function, and it has no value if that is an initializer. -/
def Stmt.ReturnsWell (frames : List (Surrounding ρ)) (stmt : Stmt ρ) : Prop :=
  ∀ keyword value, stmt = .return_ keyword value →
    routineOf frames ≠ .none ∧ (routineOf frames = .initializer → value = none)

/-- All returns in statements stand where they may. -/
def AllReturnWell (around : List (Surrounding ρ)) (body : List (Stmt ρ)) : Prop :=
  ∀ frames stmt, Occurs around body frames stmt → stmt.ReturnsWell frames

variable {around : List (Surrounding ρ)} {stmt : Stmt ρ} {more : List (Stmt ρ)}

theorem allReturnWell_nil : AllReturnWell around ([] : List (Stmt ρ)) := by
  intro frames stmt occurs
  obtain ⟨_, member, _⟩ := occurs_iff.mp occurs
  exact absurd member List.not_mem_nil

theorem AllReturnWell.cons (first : AllReturnWell around [stmt])
    (rest : AllReturnWell around more) : AllReturnWell around (stmt :: more) := by
  intro frames inner occurs
  obtain ⟨top, member, found⟩ := occurs_iff.mp occurs
  rcases List.mem_cons.mp member with rfl | later
  · exact first frames inner (occurs_iff.mpr ⟨top, List.mem_singleton_self top, found⟩)
  · exact rest frames inner (occurs_iff.mpr ⟨top, later, found⟩)

/-- All returns in a statement stand where they may: itself, and those in its parts. -/
theorem AllReturnWell.single (here : stmt.ReturnsWell around)
    (parts : ∀ part ∈ stmt.parts around, AllReturnWell part.1 part.2) :
    AllReturnWell around [stmt] := by
  intro frames inner occurs
  obtain ⟨top, member, found⟩ := occurs_iff.mp occurs
  obtain rfl := List.mem_singleton.mp member
  rcases found with ⟨rfl, rfl⟩ | ⟨part, listed, deeper⟩
  · exact here
  · exact parts part listed frames inner deeper

end Places

theorem Enclosing.mark_routine (name : String) (complete : Bool) (around : Enclosing) :
    (around.mark name complete).routine = around.routine := by
  unfold mark
  split <;> rfl

theorem declare_routine {around after : Enclosing} {name : Token} {quiet : Prop}
    (yields : (declare around name : Verdict _).Yields quiet after) :
    after.routine = around.routine := by
  simp only [declare, yields_bind, yields_objectIf, yields_pure, exists_const] at yields
  obtain ⟨_, rfl⟩ := yields
  exact around.mark_routine _ _

theorem introduce_routine {around after : Enclosing} {name : Token} {quiet : Prop}
    (yields : (introduce around name : Verdict _).Yields quiet after) :
    after.routine = around.routine := by
  simp only [introduce, yields_bind, yields_pure] at yields
  obtain ⟨declared, first, rfl⟩ := yields
  rw [Enclosing.mark_routine, declare_routine first]

theorem introduceAll_routine {around after : Enclosing} {params : List Token} {quiet : Prop}
    (yields : (introduceAll around params : Verdict _).Yields quiet after) :
    after.routine = around.routine := by
  induction params generalizing around with
  | nil =>
      obtain rfl := yields_pure.mp yields
      rfl
  | cons param more ih =>
      rw [introduceAll, yields_bind] at yields
      obtain ⟨next, first, rest⟩ := yields
      rw [ih rest, introduce_routine first]

/-- What resolution makes sure of at a statement: its returns stand where they may, and what stands
behind it belongs to the same function. -/
structure Stmt.Settles (around after : Enclosing) (resolved : Stmt Hops) : Prop where
  routine : after.routine = around.routine
  returns : ∀ frames, around.routine = routineOf frames → AllReturnWell frames [resolved]

/-- A statement that is no return, by what is in it. -/
theorem Stmt.Settles.of_parts {around after : Enclosing} {resolved : Stmt Hops}
    (routine : after.routine = around.routine)
    (other : resolved.isReturn = false)
    (parts : ∀ frames, around.routine = routineOf frames →
      ∀ part ∈ resolved.parts frames, AllReturnWell part.1 part.2) :
    resolved.Settles around after := by
  refine ⟨routine, fun frames same => .single ?_ (parts frames same)⟩
  rintro _ _ rfl
  exact Bool.noConfusion other

mutual

theorem Stmt.resolve_returns : {room : Nat} → {around after : Enclosing} → (stmt : Stmt Unit) →
    {resolved : Stmt Hops} → (stmt.resolve around room : Verdict _).Yields True (resolved, after) →
    resolved.Settles around after
  | _, around, _, .block body, _, yields => by
    simp only [Stmt.resolve, yields_descend, yields_bind, yields_pure, Prod.mk.injEq] at yields
    obtain ⟨_, body', inner, rfl, rfl⟩ := yields
    refine .of_parts rfl rfl fun frames same => ?_
    exact List.forall_mem_singleton.mpr (resolveAll_returns body inner frames same)
  | _, around, _, .function decl, _, yields => by
    simp only [Stmt.resolve, yields_descend, yields_bind, yields_pure, Prod.mk.injEq] at yields
    obtain ⟨_, next, first, decl', inner, rfl, rfl⟩ := yields
    refine .of_parts (introduce_routine first) rfl fun frames _ => ?_
    exact List.forall_mem_singleton.mpr ((decl.resolve_returns inner).2 _ rfl)
  | _, around, _, .class_ name superclass methods, _, yields => by
    simp only [Stmt.resolve, yields_descend, yields_bind, yields_pure, Prod.mk.injEq] at yields
    obtain ⟨_, next, first, superclass', parent, methods', inner, rfl, rfl⟩ := yields
    refine .of_parts (introduce_routine first) rfl fun frames _ => ?_
    intro part listed
    obtain ⟨method, member, rfl⟩ := List.mem_map.mp listed
    exact resolveMethods_returns methods inner method member _
  | _, around, _, .expression value, _, yields
  | _, around, _, .print _ value, _, yields => by
    simp only [Stmt.resolve, yields_descend, yields_bind, yields_pure, Prod.mk.injEq] at yields
    obtain ⟨_, value', inner, rfl, rfl⟩ := yields
    exact .of_parts rfl rfl fun _ _ => List.forall_mem_nil _
  | _, around, _, .ifThen cond branch, _, yields
  | _, around, _, .while_ cond branch, _, yields => by
    simp only [Stmt.resolve, yields_descend, yields_bind, yields_pure, Prod.mk.injEq] at yields
    obtain ⟨_, cond', test, ⟨branch', _⟩, inner, rfl, rfl⟩ := yields
    have own := branch.resolve_returns inner
    refine .of_parts own.routine rfl fun frames same => ?_
    exact List.forall_mem_singleton.mpr (own.returns frames same)
  | _, around, _, .ifElse cond yes no, _, yields => by
    simp only [Stmt.resolve, yields_descend, yields_bind, yields_pure, Prod.mk.injEq] at yields
    obtain ⟨_, cond', test, ⟨yes', _⟩, first, ⟨no', _⟩, second, rfl, rfl⟩ := yields
    have own := yes.resolve_returns first
    have other := no.resolve_returns second
    refine .of_parts (other.routine.trans own.routine) rfl ?_
    intro frames same
    refine List.forall_mem_singleton.mpr (.cons (own.returns frames same) ?_)
    exact other.returns frames (own.routine.trans same)
  | _, around, _, .return_ keyword value, _, yields => by
    simp only [Stmt.resolve, yields_descend, yields_bind, yields_objectIf, yields_pure,
      Prod.mk.injEq, exists_const] at yields
    obtain ⟨_, inside, valueless, value', inner, rfl, rfl⟩ := yields
    refine ⟨rfl, fun frames same => .single ?_ (List.forall_mem_nil _)⟩
    rintro _ _ ⟨⟩
    rw [← same]
    refine ⟨by simpa using inside trivial, fun initializer => ?_⟩
    cases value with
    | none => exact (yields_pure.mp inner).symm
    | some value => simp [initializer] at valueless
  | _, around, _, .var name init, _, yields => by
    simp only [Stmt.resolve, yields_descend, yields_bind, yields_pure, Prod.mk.injEq] at yields
    obtain ⟨_, declared, first, init', inner, rfl, rfl⟩ := yields
    refine .of_parts ?_ rfl fun _ _ => List.forall_mem_nil _
    rw [Enclosing.mark_routine, declare_routine first]

theorem resolveAll_returns : {room : Nat} → {around : Enclosing} → (body : List (Stmt Unit)) →
    {resolved : List (Stmt Hops)} → (resolveAll around room body : Verdict _).Yields True resolved →
    ∀ frames, around.routine = routineOf frames → AllReturnWell frames resolved
  | _, _, [], _, yields, _, _ => by
    obtain rfl := yields_pure.mp yields
    exact allReturnWell_nil
  | _, _, stmt :: more, _, yields, frames, same => by
    simp only [resolveAll, yields_bind, yields_pure] at yields
    obtain ⟨⟨stmt', next⟩, first, more', rest, rfl⟩ := yields
    have own := stmt.resolve_returns first
    refine .cons (own.returns frames same) (resolveAll_returns more rest frames ?_)
    exact own.routine.trans same

theorem Function.resolve_returns : {room : Nat} → {around : Enclosing} → (decl : Function Unit) →
    {resolved : Function Hops} → (decl.resolve around room : Verdict _).Yields True resolved →
    resolved.name = decl.name ∧
      ∀ frames, around.routine = routineOf frames → AllReturnWell frames resolved.body
  | _, _, .mk name params body, _, yields => by
    simp only [Function.resolve, yields_descend, yields_bind, yields_pure] at yields
    obtain ⟨_, inside, first, body', inner, rfl⟩ := yields
    refine ⟨rfl, fun frames same => resolveAll_returns body inner frames ?_⟩
    rw [introduceAll_routine first]
    exact same

theorem resolveMethods_returns : {room : Nat} → {around : Enclosing} →
    (methods : List (Function Unit)) → {resolved : List (Function Hops)} →
    (resolveMethods around room methods : Verdict _).Yields True resolved →
    ∀ method ∈ resolved, ∀ frames, AllReturnWell (.method method :: frames) method.body
  | _, _, [], _, yields => by
    obtain rfl := yields_pure.mp yields
    exact List.forall_mem_nil _
  | _, _, method :: more, _, yields => by
    simp only [resolveMethods, yields_bind, yields_pure] at yields
    obtain ⟨method', first, more', rest, rfl⟩ := yields
    obtain ⟨named, own⟩ := method.resolve_returns first
    refine List.forall_mem_cons.mpr ⟨fun frames => own _ ?_, resolveMethods_returns more rest⟩
    show methodRoutine method.name = methodRoutine method'.name
    rw [named]

end

/-- **Returns of a text that passes stand where they may.** -/
theorem Passes.allReturnWell {text : String} {tree : List (Stmt Hops)} {nesting : Nat}
    (passes : Passes text tree nesting) : AllReturnWell [] tree :=
  resolveAll_returns _ passes.yields [] rfl

/-! ### Statements of texts -/

/-- The code of a function or method that stands around something. -/
def Surrounding.code? : Surrounding Hops → Option (Function Hops × Bool)
  | function decl => some (decl, false)
  | method decl => some decl.methodCode
  | class_ _ => none

/-- A statement stands in a text that passes, and the given code is that of the nearest function
around it there. There is none at top level. -/
def Stmt.Stands (code : Option (Function Hops × Bool)) (stmt : Stmt Hops) : Prop :=
  ∃ text tree nesting frames, Passes text tree nesting ∧ Occurs [] tree frames stmt ∧
    (nearestRoutine frames).bind Surrounding.code? = code

/-- A function comes from a text that passes. -/
def FromText (code : Function Hops × Bool) : Prop :=
  ∀ stmt ∈ code.1.body, stmt.Stands (some code)

namespace Stmt.Stands

variable {code : Option (Function Hops × Bool)}

/-- A statement inside another one, in the same function. -/
theorem part {outer inner : Stmt Hops} {part : List (Stmt Hops)} (stands : outer.Stands code)
    (listed : ∀ frames, (frames, part) ∈ outer.parts frames) (member : inner ∈ part) :
    inner.Stands code := by
  obtain ⟨text, tree, nesting, frames, passes, occurs, same⟩ := stands
  exact ⟨text, tree, nesting, frames, passes, .inside occurs (listed frames) member, same⟩

theorem function {decl : Function Hops} (stands : (Stmt.function decl).Stands code) (frame : Nat) :
    FromText (Closure.code ⟨decl, frame, false⟩) := by
  intro stmt member
  obtain ⟨text, tree, nesting, frames, passes, occurs, _⟩ := stands
  exact ⟨text, tree, nesting, _, passes, .inside occurs (List.mem_singleton_self _) member, rfl⟩

theorem method {name : Token} {superclass : Option (Reference Hops)}
    {methods : List (Function Hops)} (stands : (Stmt.class_ name superclass methods).Stands code) :
    ∀ method ∈ methods, FromText method.methodCode := by
  intro method declared stmt member
  obtain ⟨text, tree, nesting, frames, passes, occurs, _⟩ := stands
  have listed : (.method method :: .class_ superclass :: frames, method.body) ∈
      (Stmt.class_ name superclass methods).parts frames :=
    List.mem_map.mpr ⟨method, declared, rfl⟩
  exact ⟨text, tree, nesting, _, passes, .inside occurs listed member, rfl⟩

end Stmt.Stands

/-- A return gives a value in a call of a function: it stands in a text that passes, the function is
the nearest one around it there, and the value is nil if that is an initializer. -/
def Gives (closure : Closure) (keyword : Token) (arg : Option (Expr Hops)) (value : Value) : Prop :=
  ∃ text tree nesting frames routine, Passes text tree nesting ∧
    Occurs [] tree frames (.return_ keyword arg) ∧ nearestRoutine frames = some routine ∧
    routine.code? = some closure.code ∧ (closure.isInitializer = true → value = .nil)

/-- The nearest function around a place has code, and that of an initializer is one. -/
theorem nearestRoutine_code {frames : List (Surrounding Hops)} (inside : routineOf frames ≠ .none) :
    ∃ routine decl initializes, nearestRoutine frames = some routine ∧
      routine.code? = some (decl, initializes) ∧
      (initializes = true → routineOf frames = .initializer) := by
  cases found : nearestRoutine frames with
  | none => exact absurd (routineOf_eq_none.mpr found) inside
  | some routine =>
      cases routine with
      | class_ superclass => exact absurd (List.find?_some found) Bool.noConfusion
      | function decl => exact ⟨_, decl, false, rfl, rfl, Bool.noConfusion⟩
      | method decl =>
          refine ⟨_, decl, _, rfl, rfl, fun named => ?_⟩
          exact routineOf_eq_initializer.mpr ⟨decl, found, beq_iff_eq.mp named⟩

/-- A return runs in a function only, and gives what it evaluates to. -/
theorem Stmt.Stands.gives {call : Option Closure} {keyword : Token} {arg : Option (Expr Hops)}
    {value : Value} (stands : (Stmt.return_ keyword arg).Stands (call.map Closure.code))
    (plain : arg = none → value = .nil) :
    ∃ closure, call = some closure ∧ Gives closure keyword arg value := by
  obtain ⟨text, tree, nesting, frames, passes, occurs, same⟩ := stands
  obtain ⟨inside, valueless⟩ := passes.allReturnWell frames _ occurs keyword arg rfl
  obtain ⟨routine, decl, initializes, nearest, coded, initializer⟩ := nearestRoutine_code inside
  rw [nearest, Option.bind_some, coded] at same
  obtain ⟨closure, rfl, code⟩ := Option.map_eq_some_iff.mp same.symm
  refine ⟨closure, rfl, text, tree, nesting, frames, routine, passes, occurs, nearest, ?_, ?_⟩
  · rw [coded, code]
  · obtain ⟨_, rfl⟩ := Prod.mk.inj code
    exact fun holds => plain (valueless (initializer holds))

/-! ### Logs in which returns are taken -/

/-- What a completion returns, if the event is one. -/
def Event.returned? : Event → Option Value
  | ends _ completion | leaves _ completion => completion
  | begins _ | turns _ | enters _ => none

/-- The calls that are open after an event. -/
def Event.track (calls : List Closure) : Event → List Closure
  | enters closure => closure :: calls
  | leaves _ _ => calls.tail
  | begins _ | turns _ | ends _ _ => calls

/-- The calls that are open at the end of a log, the innermost first. -/
def openCalls (log : List Event) : List Closure :=
  log.foldl Event.track []

theorem openCalls_append (log more : List Event) :
    openCalls (log ++ more) = more.foldl Event.track (openCalls log) :=
  List.foldl_append

/-- What follows a log is a return and what happens before the value is taken: only statements
around the return end, and then it is the innermost call that takes the value. -/
structure Takes (log : List Event) (keyword : Token) (arg : Option (Expr Hops)) (value : Value)
    (passed : List Event) (closure : Closure) : Prop where
  innermost : (openCalls log).head? = some closure
  gives : Gives closure keyword arg value
  passed : ∀ event ∈ passed, ∃ stmt, event = .ends stmt (some value)

/-- A return, the ends of the statements around it, and the call that takes the value. -/
def taking (keyword : Token) (arg : Option (Expr Hops)) (value : Value) (passed : List Event)
    (closure : Closure) : List Event :=
  .ends (.return_ keyword arg) (some value) :: passed ++ [.leaves closure (some value)]

/-- **Everything that is returned is taken.** -/
inductive Cleared : List Event → Prop
  | nil : Cleared []
  | note {log : List Event} {event : Event} (cleared : Cleared log)
      (plain : event.returned? = none) : Cleared (log ++ [event])
  | taken {log passed : List Event} {keyword : Token} {arg : Option (Expr Hops)} {value : Value}
      {closure : Closure} (cleared : Cleared log)
      (takes : Takes log keyword arg value passed closure) :
      Cleared (log ++ taking keyword arg value passed closure)

theorem Takes.openCalls_passed {log passed : List Event} {keyword : Token}
    {arg : Option (Expr Hops)} {value : Value} {closure : Closure}
    (takes : Takes log keyword arg value passed closure) (calls : List Closure) :
    passed.foldl Event.track calls = calls := by
  have ends := takes.passed
  clear takes
  induction passed with
  | nil => rfl
  | cons event more ih =>
      obtain ⟨⟨stmt, rfl⟩, rest⟩ := List.forall_mem_cons.mp ends
      exact ih rest

/-- The state of a run in the given calls, when nothing is being returned. -/
structure Stays (calls : List Closure) (state : Machine × List Event) : Prop where
  carries : state.1.Carries FromText
  cleared : Cleared state.2
  calls : openCalls state.2 = calls

/-- The state of a run in the given calls, when a value is being returned. -/
structure Returning (calls : List Closure) (value : Value) (state : Machine × List Event) :
    Prop where
  carries : state.1.Carries FromText
  pending : ∃ log keyword arg passed closure,
    state.2 = log ++ .ends (.return_ keyword arg) (some value) :: passed ∧ Cleared log ∧
      openCalls log = calls ∧ Takes log keyword arg value passed closure

/-- The state of a run after a statement. -/
def Completes (calls : List Closure) : Completion → Machine × List Event → Prop
  | none => Stays calls
  | some value => Returning calls value

theorem Stays.start {machine : Machine} (carries : machine.Carries FromText) :
    Stays [] (machine, []) :=
  ⟨carries, .nil, rfl⟩

/-- An event with no value. -/
theorem Stays.note {calls : List Closure} {state : Machine × List Event}
    (stays : Stays calls state) (event : Event) (plain : event.returned? = none) :
    Stays (event.track calls) (state.1, state.2 ++ [event]) := by
  refine ⟨stays.carries, stays.cleared.note plain, ?_⟩
  rw [openCalls_append, stays.calls]
  rfl

/-- At top level nothing can be returned. -/
theorem Returning.calls_ne_nil {calls : List Closure} {value : Value}
    {state : Machine × List Event} (returning : Returning calls value state) : calls ≠ [] := by
  rintro rfl
  obtain ⟨log, _, _, _, closure, _, _, none, takes⟩ := returning.pending
  have inner := takes.innermost
  rw [none] at inner
  cases inner

/-- The end of a statement around a return. -/
theorem Returning.note {calls : List Closure} {value : Value} {state : Machine × List Event}
    (returning : Returning calls value state) (stmt : Stmt Hops) :
    Returning calls value (state.1, state.2 ++ [.ends stmt (some value)]) := by
  obtain ⟨carries, log, keyword, arg, passed, closure, written, cleared, same, takes⟩ := returning
  refine ⟨carries, log, keyword, arg, passed ++ [.ends stmt (some value)], closure, ?_, cleared,
    same, takes.innermost, takes.gives, ?_⟩
  · show state.2 ++ [Event.ends stmt (some value)] = _
    rw [written, List.append_assoc, List.cons_append]
  · refine List.forall_mem_append.mpr ⟨takes.passed, ?_⟩
    exact List.forall_mem_singleton.mpr ⟨stmt, rfl⟩

/-- The innermost call takes what is returned. -/
theorem Returning.take {closure : Closure} {calls : List Closure} {value : Value}
    {state : Machine × List Event} (returning : Returning (closure :: calls) value state) :
    Stays calls (state.1, state.2 ++ [.leaves closure (some value)]) := by
  obtain ⟨carries, log, keyword, arg, passed, taker, written, cleared, same, takes⟩ := returning
  obtain rfl : closure = taker := by
    have inner := takes.innermost
    rw [same] at inner
    exact Option.some.inj inner
  have shape : state.2 ++ [.leaves closure (some value)] =
      log ++ taking keyword arg value passed closure := by
    rw [written, List.append_assoc]
    rfl
  refine ⟨carries, ?_, ?_⟩
  · show Cleared (state.2 ++ [.leaves closure (some value)])
    rw [shape]
    exact cleared.taken takes
  · show openCalls (state.2 ++ [.leaves closure (some value)]) = calls
    rw [shape, openCalls_append, same, taking, List.cons_append, List.foldl_cons, List.foldl_append,
      takes.openCalls_passed]
    rfl

/-! ### Where nothing is written -/

/-- Computations that write nothing, however they end. -/
def unwritten : RunLogic (Machine × List Event) (Machine × List Event) where
  view state := state
  le state later := later.2 = state.2
  refl _ := rfl
  trans early late := late.trans early
  fails _ _ := True

/-- No event is written, however a computation ends. -/
def Recorded.WritesNothing {α : Type} (run : Recorded Event α) : Prop :=
  ∀ state, unwritten.Ensures state run fun _ _ => True

namespace Recorded.WritesNothing

variable {α β : Type}

theorem pure {value : α} : WritesNothing (Pure.pure value) :=
  fun _ => .pure trivial

theorem throw {failure : Failure} : WritesNothing (throwThe Failure failure : Recorded Event α) :=
  fun _ => .throw trivial

theorem bind {run : Recorded Event α} {next : α → Recorded Event β} (first : WritesNothing run)
    (then_ : ∀ value, WritesNothing (next value)) : WritesNothing (run >>= next) :=
  fun state => (first state).bind fun value later _ _ => then_ value later

theorem get {next : Machine × List Event → Recorded Event α}
    (then_ : ∀ state, WritesNothing (next state)) : WritesNothing (MonadState.get >>= next) :=
  fun state => .get (then_ state state)

/-- Operations are not written. -/
theorem performed_events (operation : Machine → RunResult α → Operation)
    (run : Recorded Event α) : Recorder.events.performed operation run = run := by
  funext state
  unfold Recorder.performed
  cases run state <;> rfl

theorem step {run : Run α} : WritesNothing (Recorder.events.step run) := by
  intro state
  rw [Recorder.step, performed_events]
  show unwritten.Ends state _ (silent run state)
  unfold silent
  cases run state.1 with
  | ok value machine => exact ⟨_, rfl, rfl, trivial⟩
  | error failure machine => exact ⟨_, rfl, rfl, trivial⟩

theorem defineAll (frame : Nat) (names : List Token) (values : List Value) :
    WritesNothing (Recorder.events.defineAll frame names values) := by
  induction names generalizing values with
  | nil => exact pure
  | cons name names ih =>
      cases values with
      | nil => exact pure
      | cons value values => exact step.bind fun _ => ih values

theorem bindMethod {method : Closure} {id : Nat} :
    WritesNothing (Recorder.events.bindMethod method id) := by
  rw [Recorder.bindMethod, performed_events]
  exact step.bind fun _ => step.bind fun _ => pure

theorem newMethod {method : Closure} {id : Nat} :
    WritesNothing (Recorder.events.newMethod method id) :=
  bindMethod.bind fun _ => step

theorem getProperty {id : Nat} {name : Token} :
    WritesNothing (Recorder.events.getProperty id name) := by
  refine get fun state => ?_
  cases state.1.instances[id]? with
  | none => exact throw
  | some found =>
      simp only
      cases found.fields.get? name.lexeme with
      | some value => exact pure
      | none =>
          cases state.1.hierarchy.method? name.lexeme found.class_ with
          | some method => exact newMethod
          | none => exact step

theorem superMethod {frame : Nat} {keyword : Reference Hops} {name : Token} :
    WritesNothing (Recorder.events.superMethod frame keyword name) := by
  unfold Recorder.superMethod
  cases keyword.target with
  | none => exact throw
  | some hops =>
      refine step.bind fun superclass => step.bind fun this => ?_
      split
      · refine get fun state => ?_
        split
        · exact newMethod
        · exact step
      · exact throw

theorem declareClass {frame : Nat} {name : Token} {superclass : Option (Reference Hops)}
    {methods : List (Function Hops)} :
    WritesNothing (Recorder.events.declareClass frame name superclass methods) := by
  have inherit : ∀ parent, WritesNothing (Recorder.events.inherit frame parent) := fun parent => by
    rw [Recorder.inherit, performed_events]
    exact step.bind fun _ => step.bind fun _ => pure
  cases superclass with
  | none => exact step.bind fun _ => step.bind fun _ => step
  | some reference =>
      exact step.bind fun _ => step.bind fun _ => (inherit _).bind fun _ => step.bind fun _ => step

end Recorded.WritesNothing

/-! ### Runs with events -/

/-- Runs in which events are written. If one fails, everything that was returned has been taken. -/
def clearing : RunLogic (Machine × List Event) (Machine × List Event) where
  view state := state
  le _ _ := True
  refl _ := trivial
  trans _ _ := trivial
  fails _ state := state.1.Carries FromText ∧ Cleared state.2

/-- What a run with events comes to. -/
abbrev Clears {α : Type} (state : Machine × List Event) (run : Recorded Event α)
    (post : α → Machine × List Event → Prop) : Prop :=
  clearing.Ensures state run post

section Clears

variable {α β : Type} {state : Machine × List Event} {calls : List Closure}

theorem Stays.fails (stays : Stays calls state) (failure : Failure) :
    clearing.fails failure state :=
  ⟨stays.carries, stays.cleared⟩

/-- Where nothing is written, only the functions of the machine matter. -/
theorem Stays.silent {recorded : Recorded Event α} {run : Run α} {post : α → Prop}
    (stays : Stays calls state) (follows : recorded.Follows run)
    (nothing : recorded.WritesNothing) (keeps : Run.Keeps FromText (fun _ => True) run post) :
    Clears state recorded fun value later => Stays calls later ∧ post value := by
  have unwritten : unwritten.Ends state _ (recorded state) := nothing state
  have kept : (Run.keeping FromText fun _ => True).Ends ⟨state.1, stays.carries⟩
      (fun value _ => post value) (run state.1) := keeps _
  rw [← follows state] at kept
  show clearing.Ends state _ (recorded state)
  cases ended : recorded state with
  | ok value later =>
      rw [ended] at unwritten kept
      obtain ⟨_, rfl, same, _⟩ := unwritten
      obtain ⟨⟨machine, carries⟩, rfl, _, known⟩ := kept
      exact ⟨_, rfl, trivial, ⟨carries, same ▸ stays.cleared, same ▸ stays.calls⟩, known⟩
  | error failure later =>
      rw [ended] at unwritten kept
      obtain ⟨_, rfl, same, _⟩ := unwritten
      obtain ⟨⟨machine, carries⟩, rfl, _⟩ := kept
      exact ⟨_, rfl, trivial, carries, same ▸ stays.cleared⟩

/-- Where nothing is written, and nothing needs to be known about the result. -/
theorem Stays.silently {recorded : Recorded Event α} {run : Run α} (stays : Stays calls state)
    (follows : recorded.Follows run) (nothing : recorded.WritesNothing)
    (keeps : Run.Keeps FromText (fun _ => True) run fun _ => True) :
    Clears state recorded fun _ => Stays calls :=
  (stays.silent follows nothing keeps).weaken fun _ _ _ known => known.1

/-- A single step. -/
theorem Stays.step {run : Run α} (stays : Stays calls state)
    (keeps : Run.Keeps FromText (fun _ => True) run fun _ => True) :
    Clears state (Recorder.events.step run) fun _ => Stays calls :=
  stays.silently .step .step keeps

/-- What is written comes first. -/
theorem Clears.note {event : Event} {next : Unit → Recorded Event β}
    {post : β → Machine × List Event → Prop}
    (then_ : Clears (state.1, state.2 ++ [event]) (next ()) post) :
    Clears state (Recorder.events.note event >>= next) post :=
  RunLogic.Ends.after trivial then_

/-- Operations are not written. -/
theorem Clears.performed {operation : Machine → RunResult α → Operation} {run : Recorded Event α}
    {post : α → Machine × List Event → Prop} (clears : Clears state run post) :
    Clears state (Recorder.events.performed operation run) post := by
  rwa [Recorded.WritesNothing.performed_events]

/-- A statement that is no return ends as what it consists of does. -/
theorem Stays.statement {frame : Nat} {stmt : Stmt Hops} {run : Recorded Event Completion}
    (stays : Stays calls state)
    (inner : ∀ {later}, Stays calls later → Clears later run (Completes calls)) :
    Clears state (Recorder.events.statement frame stmt run) (Completes calls) := by
  refine Clears.performed ?_
  refine Clears.note (.bind (inner (stays.note (.begins stmt) rfl))
    fun completion later _ completes => ?_)
  refine Clears.note (.pure ?_)
  cases completion with
  | none => exact Stays.note completes (.ends stmt none) rfl
  | some value => exact Returning.note completes stmt

/-- **A return** begins to return a value, which the function around it will take. -/
theorem Stays.return_ {frame : Nat} {keyword : Token} {arg : Option (Expr Hops)}
    {run : Recorded Event Completion} (stays : Stays calls state)
    (stands : (Stmt.return_ keyword arg).Stands (calls.head?.map Closure.code))
    (inner : ∀ {later}, Stays calls later → Clears later run fun completion last =>
      Stays calls last ∧ ∃ value, completion = some value ∧ (arg = none → value = .nil)) :
    Clears state (Recorder.events.statement frame (.return_ keyword arg) run)
      (Completes calls) := by
  refine Clears.performed ?_
  refine Clears.note (.bind (inner (stays.note (.begins _) rfl)) fun completion later _ known =>
    Clears.note (.pure ?_))
  obtain ⟨stays, value, rfl, plain⟩ := known
  obtain ⟨closure, innermost, gives⟩ := stands.gives plain
  rw [← stays.calls] at innermost
  exact ⟨stays.carries, later.2, keyword, arg, [], closure, rfl, stays.cleared, stays.calls,
    innermost, gives, List.forall_mem_nil _⟩

/-- Statements of the same function one after the other. -/
theorem Stays.untilReturn {exec : Stmt Hops → Recorded Event Completion}
    (clears : ∀ {later stmt}, Stays calls later → stmt.Stands (calls.head?.map Closure.code) →
      Clears later (exec stmt) (Completes calls))
    (stays : Stays calls state) {body : List (Stmt Hops)}
    (stand : ∀ stmt ∈ body, stmt.Stands (calls.head?.map Closure.code)) :
    Clears state (untilReturn exec body) (Completes calls) := by
  let ready (body : List (Stmt Hops)) (state : Machine × List Event) : Prop :=
    Stays calls state ∧ ∀ stmt ∈ body, stmt.Stands (calls.head?.map Closure.code)
  have each : ∀ {state stmt more}, ready (stmt :: more) state →
      Clears state (exec stmt) fun completion later =>
        completion.elim (ready more later) fun value => Completes calls (some value) later := by
    rintro state stmt more ⟨stays, stand⟩
    obtain ⟨first, rest⟩ := List.forall_mem_cons.mp stand
    refine (clears stays first).weaken fun completion later _ completes => ?_
    cases completion with
    | none => exact ⟨completes, rest⟩
    | some value => exact completes
  exact RunLogic.Ensures.untilReturn (fun here => here.1) each ⟨stays, stand⟩

/-- **A call takes what its body returns.** -/
theorem Stays.invoke {exec : Nat → Stmt Hops → Recorded Event Completion}
    (clears : ∀ {calls later frame stmt}, Stays calls later →
      stmt.Stands (calls.head?.map Closure.code) → Clears later (exec frame stmt) (Completes calls))
    (stays : Stays calls state) {closure : Closure} (known : FromText closure.code)
    (args : List Value) :
    Clears state (Recorder.events.invoke exec closure args) fun _ => Stays calls := by
  refine Clears.performed ?_
  have entered := stays.note (.enters closure) rfl
  refine Clears.note (.bind (entered.step .newFrame) fun inner _ _ stays => ?_)
  refine .bind (stays.silently (.defineAll _ _ _) (.defineAll _ _ _) (.defineAll _ _))
    fun _ _ _ stays => ?_
  refine .bind (stays.untilReturn clears known) fun completion last _ completes => Clears.note ?_
  have left : Stays calls (last.1, last.2 ++ [.leaves closure completion]) := by
    cases completion with
    | none => exact Stays.note completes (.leaves closure none) rfl
    | some value => exact Returning.take completes
  exact left.step (.of_still .callResult)

end Clears

/-! ### Trees -/

/-- With some room for nested evaluation, everything that is returned is taken. -/
structure RunsClear (fuel room : Nat) : Prop where
  expr : ∀ {calls : List Closure} {state : Machine × List Event} (frame : Nat) (expr : Expr Hops),
    Stays calls state →
      Clears state (Expr.recorded .events fuel room frame expr) fun _ => Stays calls
  stmt : ∀ {calls : List Closure} {state : Machine × List Event} {frame : Nat} {stmt : Stmt Hops},
    Stays calls state → stmt.Stands (calls.head?.map Closure.code) →
      Clears state (Stmt.recorded .events fuel room frame stmt) (Completes calls)
  call : ∀ {calls : List Closure} {state : Machine × List Event} (callee : Value)
    (args : List Value), Stays calls state →
      Clears state (recordedCall .events fuel room callee args) fun _ => Stays calls

section Trees

variable {fuel room : Nat} (clear : RunsClear fuel room) {calls : List Closure}
  {state : Machine × List Event}

include clear

theorem Expr.recorded_clears (frame : Nat) (expr : Expr Hops) (stays : Stays calls state) :
    Clears state (Expr.recorded .events fuel (room + 1) frame expr) fun _ => Stays calls := by
  refine Clears.performed ?_
  cases expr with
  | assign target value =>
      refine .bind (clear.expr frame value stays) fun _ _ _ stays => ?_
      exact .bind (stays.step (.assign trivial)) fun _ _ _ stays => .pure stays
  | binary left op token right =>
      refine .bind (clear.expr frame left stays) fun _ _ _ stays => ?_
      refine .bind (clear.expr frame right stays) fun _ _ _ stays => ?_
      exact stays.step (.of_still (.applyBinary trivial))
  | call callee paren args =>
      refine .bind (clear.expr frame callee stays) fun callee _ _ stays => ?_
      have collected : Clears _
          (collect (fun arg => Expr.recorded .events fuel room frame arg) args)
          fun values later => Stays calls later ∧ ∀ value ∈ values, True :=
        RunLogic.Ensures.collect (fun _ _ => trivial) (fun arg _ _ stays =>
          (clear.expr frame arg stays).weaken fun _ _ _ stays => ⟨stays, trivial⟩) stays
      refine .bind collected fun args _ _ known => ?_
      refine .bind (known.1.step (.of_still (.checkCall trivial))) fun _ _ _ stays => ?_
      exact clear.call callee args stays
  | get object name =>
      refine .bind (clear.expr frame object stays) fun value _ _ stays => ?_
      cases value with
      | instance_ id => exact stays.silently .getProperty .getProperty (.getProperty trivial)
      | _ => exact stays.step (.fail trivial)
  | grouping inner => exact clear.expr frame inner stays
  | literal value => exact .pure stays
  | logical left op token right =>
      refine .bind (clear.expr frame left stays) fun value _ _ stays => ?_
      by_cases short : shortCircuits op value = true
      · simp only [if_pos short]
        exact .pure stays
      · simp only [if_neg short]
        exact clear.expr frame right stays
  | set object name value =>
      refine .bind (clear.expr frame object stays) fun holder _ _ stays => ?_
      cases holder with
      | instance_ id =>
          refine .bind (clear.expr frame value stays) fun value _ _ stays => ?_
          exact .bind (stays.step .setField) fun _ _ _ stays => .pure stays
      | _ => exact stays.step (.fail trivial)
  | super keyword method =>
      exact stays.silently .superMethod .superMethod (.superMethod trivial)
  | this keyword => exact stays.step (.of_still (.follow trivial))
  | unary sign token right =>
      refine .bind (clear.expr frame right stays) fun _ _ _ stays => ?_
      exact stays.step (.of_still (.applySign trivial))
  | var name => exact stays.step (.of_still (.follow trivial))

theorem Stmt.recorded_completes {frame : Nat} {stmt : Stmt Hops} (stays : Stays calls state)
    (stands : stmt.Stands (calls.head?.map Closure.code)) :
    Clears state (Stmt.recorded .events fuel (room + 1) frame stmt) (Completes calls) := by
  have inside : ∀ {part : List (Stmt Hops)}, (∀ frames, (frames, part) ∈ stmt.parts frames) →
      ∀ inner ∈ part, inner.Stands (calls.head?.map Closure.code) :=
    fun listed inner member => stands.part listed member
  cases stmt with
  | block body =>
      refine stays.statement fun stays => .bind (stays.step .newFrame) fun _ _ _ stays => ?_
      exact stays.untilReturn clear.stmt (inside fun _ => List.mem_singleton_self _)
  | function decl =>
      refine stays.statement fun stays => ?_
      refine .bind (stays.step (.newFunction (stands.function frame))) fun _ _ _ stays => ?_
      exact .bind (stays.step .define) fun _ _ _ stays => .pure stays
  | class_ name superclass methods =>
      refine stays.statement fun stays => ?_
      refine .bind (stays.silently .declareClass .declareClass (.declareClass ?_ stands.method))
        fun _ _ _ stays => .pure stays
      exact fun _ _ => trivial
  | expression value =>
      refine stays.statement fun stays => ?_
      exact .bind (clear.expr frame value stays) fun _ _ _ stays => .pure stays
  | ifThen cond yes =>
      obtain branch := inside (fun _ => List.mem_singleton_self _) yes List.mem_cons_self
      refine stays.statement fun stays => ?_
      refine .bind (clear.expr frame cond stays) fun test _ _ stays => ?_
      by_cases holds : test.isTruthy = true
      · simp only [if_pos holds]
        exact clear.stmt stays branch
      · simp only [if_neg holds]
        exact .pure stays
  | ifElse cond yes no =>
      have branches : ∀ branch ∈ [yes, no], branch.Stands (calls.head?.map Closure.code) :=
        inside fun _ => List.mem_singleton_self _
      refine stays.statement fun stays => ?_
      refine .bind (clear.expr frame cond stays) fun test _ _ stays => ?_
      by_cases holds : test.isTruthy = true
      · simp only [if_pos holds]
        exact clear.stmt stays (branches yes List.mem_cons_self)
      · simp only [if_neg holds]
        exact clear.stmt stays (branches no (List.mem_cons_of_mem _ List.mem_cons_self))
  | print keyword value =>
      refine stays.statement fun stays => ?_
      refine .bind (clear.expr frame value stays) fun _ _ _ stays => ?_
      exact .bind (stays.step .print) fun _ _ _ stays => .pure stays
  | return_ keyword arg =>
      cases arg with
      | none => exact stays.return_ stands fun stays => .pure ⟨stays, .nil, rfl, fun _ => rfl⟩
      | some value =>
          refine stays.return_ stands fun stays => ?_
          refine .bind (clear.expr frame value stays) fun value _ _ stays => ?_
          exact .pure ⟨stays, value, rfl, fun none => absurd none (Option.some_ne_none _)⟩
  | var name init =>
      cases init with
      | none =>
          refine stays.statement fun stays => ?_
          exact .bind (stays.step .define) fun _ _ _ stays => .pure stays
      | some init =>
          refine stays.statement fun stays => ?_
          refine .bind (clear.expr frame init stays) fun _ _ _ stays => ?_
          exact .bind (stays.step .define) fun _ _ _ stays => .pure stays
  | while_ cond body =>
      obtain again := inside (fun _ => List.mem_singleton_self _) body List.mem_cons_self
      refine stays.statement fun stays => ?_
      have test : ∀ {later}, Stays calls later → Clears later
          (Recorder.events.note (.turns cond) >>= fun _ =>
            Expr.recorded .events fuel room frame cond) fun _ => Stays calls :=
        fun stays => Clears.note (clear.expr frame cond (stays.note (.turns cond) rfl))
      exact RunLogic.Ensures.loop test (fun stays => clear.stmt stays again)
        (fun stays => Stays.fails stays _) stays

theorem recordedCall_clears (callee : Value) (args : List Value) (stays : Stays calls state) :
    Clears state (recordedCall .events fuel (room + 1) callee args) fun _ => Stays calls := by
  cases callee with
  | native id => exact stays.step .callNative
  | function id =>
      refine .bind (stays.silent .step .step .closureOf) fun closure _ _ found => ?_
      exact found.1.invoke clear.stmt found.2 args
  | class_ id =>
      refine .bind (stays.step .newInstance) fun made _ _ stays => ?_
      refine .bind (stays.silent .step .step .initializerOf) fun initializer _ _ found => ?_
      cases initializer with
      | none => exact .pure found.1
      | some method =>
          refine .bind (found.1.silent .bindMethod .bindMethod (.bindMethod (found.2 method rfl)))
            fun bound _ _ found => ?_
          exact .bind (found.1.invoke clear.stmt found.2 args) fun _ _ _ stays => .pure stays
  | _ => exact .throw (stays.fails _)

end Trees

/-- The induction is on the room: nested evaluation has less of it. -/
theorem runsClear (fuel room : Nat) : RunsClear fuel room := by
  induction room with
  | zero => exact ⟨fun _ _ stays => .throw (stays.fails _), fun stays _ => .throw (stays.fails _),
      fun _ _ stays => .throw (stays.fails _)⟩
  | succ room ih =>
      exact ⟨Expr.recorded_clears ih, Stmt.recorded_completes ih, recordedCall_clears ih⟩

/-! ### Texts -/

theorem recordedStatements_clears (fuel room : Nat) {tree : List (Stmt Hops)}
    (stand : ∀ stmt ∈ tree, stmt.Stands none) {state : Machine × List Event}
    (stays : Stays [] state) :
    Clears state (recordedStatements .events fuel room tree) fun _ => Stays [] := by
  induction tree generalizing state with
  | nil => exact .pure stays
  | cons stmt more ih =>
      obtain ⟨first, rest⟩ := List.forall_mem_cons.mp stand
      refine .bind ((runsClear fuel room).stmt stays first) fun completion later _ completes => ?_
      cases completion with
      | none => exact ih rest completes
      | some value => exact absurd rfl (Returning.calls_ne_nil completes)

/-- However a text ends, everything that was returned has been taken. -/
theorem recordedStatements_cleared (fuel room : Nat) {tree : List (Stmt Hops)}
    (stand : ∀ stmt ∈ tree, stmt.Stands none) {machine : Machine}
    (carries : machine.Carries FromText) :
    let last := leftBehind (recordedStatements .events fuel room tree (machine, []))
    last.1.Carries FromText ∧ Cleared last.2 := by
  have ends : clearing.Ends (machine, []) (fun _ => Stays [])
      (recordedStatements .events fuel room tree (machine, [])) :=
    recordedStatements_clears fuel room stand (.start carries)
  cases ended : recordedStatements .events fuel room tree (machine, []) with
  | ok value later =>
      rw [ended] at ends
      obtain ⟨_, rfl, _, stays⟩ := ends
      exact ⟨stays.carries, stays.cleared⟩
  | error failure later =>
      rw [ended] at ends
      obtain ⟨_, rfl, _, failed⟩ := ends
      exact failed

/-- At top level no statement returns. -/
theorem Stmt.exec_topLevel {fuel room : Nat} {stmt : Stmt Hops} {machine later : Machine}
    {completion : Completion} (carries : machine.Carries FromText)
    (stands : stmt.Stands none)
    (executed : stmt.exec .direct fuel room Machine.globals machine = .ok completion later) :
    completion = none := by
  have follows : unrecorded (stmt.recorded .events fuel room Machine.globals (machine, [])) =
      stmt.exec .direct fuel room Machine.globals machine :=
    (recordingFollows .events fuel room).stmt Machine.globals stmt (machine, [])
  have ends : clearing.Ends (machine, []) (Completes [])
      (stmt.recorded .events fuel room Machine.globals (machine, [])) :=
    (runsClear fuel room).stmt (.start carries) stands
  rw [executed] at follows
  cases ended : stmt.recorded .events fuel room Machine.globals (machine, []) with
  | error failure state =>
      rw [ended] at follows
      cases follows
  | ok result state =>
      rw [ended] at follows ends
      cases follows
      obtain ⟨_, rfl, _, completes⟩ := ends
      cases completion with
      | none => rfl
      | some value => exact absurd rfl (Returning.calls_ne_nil completes)

/-- A run without a log keeps the functions of the machine known. -/
theorem runStatements_carries (fuel room : Nat) {tree : List (Stmt Hops)}
    (stand : ∀ stmt ∈ tree, stmt.Stands none) {machine : Machine}
    (carries : machine.Carries FromText) :
    (leftBehind (runStatements .direct fuel room tree machine)).Carries FromText := by
  rw [← recordedStatements_follows .events fuel room tree (machine, []), leftBehind_unrecorded]
  exact (recordedStatements_cleared fuel room stand carries).1

/-- The statements of a text that passes stand there, at top level. -/
theorem Passes.stand {text : String} {tree : List (Stmt Hops)} {nesting : Nat}
    (passes : Passes text tree nesting) : ∀ stmt ∈ tree, stmt.Stands none :=
  fun _ member => ⟨text, tree, nesting, [], passes, .here member, rfl⟩

/-- The functions of a session come from texts that passed. -/
theorem Session.Reached.carries {session : Session} (reached : session.Reached) :
    session.machine.Carries FromText := by
  induction reached with
  | start report time checkOnly limits =>
      refine ⟨fun closure member => ?_, fun class_ member => ?_⟩
      · exact absurd member (Array.not_mem_empty closure)
      · exact absurd member (Array.not_mem_empty class_)
  | @run session reached text ih =>
      rcases session.run_machine text with idle | ⟨tree, passes, run⟩
      · rw [idle]
        exact ih
      · rw [run]
        exact runStatements_carries _ _ passes.stand ih
  | reset reached ih => exact ih
  | native reached lawful ih => exact ⟨ih.functions, ih.methods⟩
  | within reached passes turns room ih => exact runStatements_carries _ _ passes.stand ih

/-- Whenever a statement ends with a value, it is on the way from a return to the call that takes
it. -/
def ReturnsTaken (log : List Event) : Prop :=
  ∀ early stmt value rest, log = early ++ .ends stmt (some value) :: rest →
    ∃ before keyword arg passed closure after,
      log = before ++ taking keyword arg value passed closure ++ after ∧
      before.length ≤ early.length ∧ early.length ≤ before.length + passed.length ∧
      Takes before keyword arg value passed closure

/-- An element of two lists in a row is one of the first or one of the second. -/
theorem append_split {α : Type} {front back early rest : List α} {item : α}
    (split : front ++ back = early ++ item :: rest) :
    (∃ mid, front = early ++ item :: mid) ∨
      ∃ mid, early = front ++ mid ∧ back = mid ++ item :: rest := by
  rcases List.append_eq_append_iff.mp split with ⟨mid, same, behind⟩ | ⟨mid, same, behind⟩
  · exact .inr ⟨mid, same, behind⟩
  · cases mid with
    | nil =>
        rw [List.append_nil] at same
        exact .inr ⟨[], by rw [same, List.append_nil], behind.symm⟩
    | cons first mid =>
        obtain ⟨rfl, _⟩ := List.cons.inj behind
        exact .inl ⟨mid, same⟩

/-- What is written behind a log is one more value that is taken, or none. -/
theorem ReturnsTaken.append {log more : List Event} (taken : ReturnsTaken log)
    (last : ∀ mid stmt value rest, more = mid ++ .ends stmt (some value) :: rest →
      ∃ keyword arg passed closure, more = taking keyword arg value passed closure ∧
        mid.length ≤ passed.length ∧ Takes log keyword arg value passed closure) :
    ReturnsTaken (log ++ more) := by
  intro early stmt value rest split
  rcases append_split split with ⟨mid, inside⟩ | ⟨mid, rfl, behind⟩
  · obtain ⟨before, keyword, arg, passed, closure, after, same, placed⟩ :=
      taken early stmt value mid inside
    refine ⟨before, keyword, arg, passed, closure, after ++ more, ?_, placed⟩
    rw [same, List.append_assoc]
  · obtain ⟨keyword, arg, passed, closure, rfl, bound, takes⟩ := last mid stmt value rest behind
    refine ⟨log, keyword, arg, passed, closure, [], (List.append_nil _).symm, ?_, ?_, takes⟩
    · rw [List.length_append]
      exact Nat.le_add_right _ _
    · rw [List.length_append]
      exact Nat.add_le_add_left bound _

theorem Cleared.returnsTaken {log : List Event} (cleared : Cleared log) : ReturnsTaken log := by
  induction cleared with
  | nil =>
      intro early stmt value rest split
      exact absurd split.symm (List.append_ne_nil_of_right_ne_nil _ (List.cons_ne_nil _ _))
  | @note log event cleared plain ih =>
      refine ih.append fun mid stmt value rest split => ?_
      obtain ⟨rfl, same⟩ | ⟨_, ⟨⟩⟩ := List.singleton_eq_append_iff.mp split
      obtain ⟨rfl, _⟩ := List.cons.inj same
      cases plain
  | @taken log passed keyword arg value closure cleared takes ih =>
      refine ih.append fun mid stmt given rest split => ?_
      have ends : ∀ event ∈ Event.ends (.return_ keyword arg) (some value) :: passed,
          ∃ stmt, event = .ends stmt (some value) :=
        List.forall_mem_cons.mpr ⟨⟨_, rfl⟩, takes.passed⟩
      rcases append_split split with ⟨between, inside⟩ | ⟨mid, rfl, behind⟩
      · obtain ⟨other, same⟩ := ends (.ends stmt (some given)) (by rw [inside]; simp)
        cases same
        have length := congrArg List.length inside
        rw [List.length_append, List.length_cons, List.length_cons] at length
        exact ⟨keyword, arg, passed, closure, rfl, by omega, takes⟩
      · obtain ⟨_, same⟩ | ⟨_, ⟨⟩⟩ := List.singleton_eq_append_iff.mp behind
        cases same

/-- **What is returned is taken by the function that the return belongs to.** On the machine of any
session, whatever was run before, a text that passes runs within whatever bounds, and writing a log
changes nothing about it. No statement at top level returns. Whenever a statement ends with a value,
it does so between a return and the end of the innermost call, which takes the value: what was
called is the nearest function around the return, and in between no statement begins and no loop
takes another turn. What an initializer is given is nil. -/
theorem Session.Reached.returns_taken {session : Session} (reached : session.Reached)
    {text : String} {tree : List (Stmt Hops)} {nesting : Nat} (passes : Passes text tree nesting)
    (turns room : Nat) :
    unrecorded (recordedStatements .events turns room tree (session.machine, [])) =
        runStatements .direct turns room tree session.machine ∧
      (∀ before stmt after machine completion later, tree = before ++ stmt :: after →
        runStatements .direct turns room before session.machine = .ok () machine →
        Stmt.exec .direct turns room Machine.globals stmt machine = .ok completion later →
          completion = none) ∧
      ReturnsTaken
        (leftBehind (recordedStatements .events turns room tree (session.machine, []))).2 := by
  have carries := reached.carries
  refine ⟨recordedStatements_follows .events turns room tree _, ?_, ?_⟩
  · intro before stmt after machine completion later split ran executed
    have stand := passes.stand
    rw [split] at stand
    obtain ⟨early, here⟩ := List.forall_mem_append.mp stand
    have kept := runStatements_carries turns room early carries
    rw [ran] at kept
    exact Stmt.exec_topLevel kept (here stmt List.mem_cons_self) executed
  · exact (recordedStatements_cleared turns room passes.stand carries).2.returnsTaken

/-- A text that returns from a loop in an initializer and from one in a method. -/
def returningText : String :=
  "class A { init(n) { while (true) { if (n) return; n = 1; } } m() { for (;;) { return 2; } } }
  print A(nil).m();"

theorem Session.Reached.returns_taken_loops :
    ∃ tree, Passes returningText tree ∧ ∀ turns room,
      let session := Session.start {} .zero false
      unrecorded (recordedStatements .events turns room tree (session.machine, [])) =
          runStatements .direct turns room tree session.machine ∧
        (∀ before stmt after machine completion later, tree = before ++ stmt :: after →
          runStatements .direct turns room before session.machine = .ok () machine →
          Stmt.exec .direct turns room Machine.globals stmt machine = .ok completion later →
            completion = none) ∧
        ReturnsTaken
          (leftBehind (recordedStatements .events turns room tree (session.machine, []))).2 := by
  obtain ⟨tree, passes⟩ : ∃ tree, Passes returningText tree := exists_passes (by decide +kernel)
  exact ⟨tree, passes, Session.Reached.returns_taken (.start {} .zero false {}) passes⟩

end Lox
