/-
**Loops with three clauses**, as they are read and as they are meant.

* A `ForLoop` is read into a statement, `ForLoop.toStmt`: a loop with one clause in up to two
  blocks. `ForLoop.resolve` and `ForLoop.exec` take it as it is meant: condition, body and increment
  stand directly in one scope.
* `ForLoop.Unfolds` relates a resolved loop to the resolved statement that it is read into, in which
  the body may stand one scope further in.
* `Passes.forLoop_meant`: wherever the loop stands in a text that passes, the two come to the same
  on every machine.
-/

import Lox.Proofs.Places
import Lox.Proofs.Room
import Lox.Proofs.Safety

namespace Lox

open Verdict (yields_bind yields_descend yields_pure)

open Run

/-- A loop with three clauses. -/
structure ForLoop (ρ : Type) where
  init : Option (Stmt ρ)
  cond : Option (Expr ρ)
  increment : Option (Expr ρ)
  body : Stmt ρ

namespace ForLoop

/-- The statement that a loop is read into. -/
def toStmt {ρ : Type} (loop : ForLoop ρ) : Stmt ρ :=
  .forLoop loop.init loop.cond loop.increment loop.body

/-! ### The loop as it is meant -/

/-- Resolves the initializer, in the scope that it opens, and gives what stands around the rest of
the loop. -/
def resolveInit (around : Enclosing) (room : Nat) :
    Option (Stmt Unit) → Verdict (Option (Stmt Hops) × Enclosing)
  | none => return (none, around)
  | some init => do
    let (init, inside) ← init.resolve (around.enter []) room
    return (some init, inside)

/-- Resolves a loop: condition, body and increment all stand directly in its scope. Like other
statements it takes two calls, and like a block one more if it has a scope. -/
def resolve (around : Enclosing) (room : Nat) (loop : ForLoop Unit) : Verdict (ForLoop Hops) :=
  Resolver.descend (if loop.init.isSome then 3 else 2) room fun room => do
    let (init, inside) ← resolveInit around room loop.init
    let cond ← resolveOptional inside room loop.cond
    let (body, _) ← loop.body.resolve inside room
    let increment ← resolveOptional inside room loop.increment
    return ⟨init, cond, increment, body⟩

section Trees

variable (lookup : Lookup) (fuel : Nat)

/-- Tests the condition, which is true if there is none. -/
def test (room frame : Nat) : Option (Expr Hops) → Run Value
  | none => pure (.bool true)
  | some cond => cond.eval lookup fuel room frame

/-- Evaluates the increment if there is one. -/
def advance (room frame : Nat) : Option (Expr Hops) → Run Unit
  | none => pure ()
  | some increment => do
    let _ ← increment.eval lookup fuel room frame

/-- Runs the body and, unless it returned, evaluates the increment. -/
def turn (room frame : Nat) (increment : Option (Expr Hops)) (body : Stmt Hops) :
    Run Completion := do
  match ← body.exec lookup fuel room frame with
  | some value => pure (some value)
  | none =>
    advance lookup fuel room frame increment
    pure none

/-- Takes turns while the condition holds, until one of them returns. -/
def turns (room frame : Nat) (loop : ForLoop Hops) : Run Completion :=
  Run.loop (test lookup fuel room frame loop.cond)
    (turn lookup fuel room frame loop.increment loop.body) fuel

/-- Executes a loop. With an initializer it has a frame of its own, in which the initializer runs
once. -/
def exec : (room frame : Nat) → ForLoop Hops → Run Completion
  | 0, _, _ => throw .overflow
  | room + 1, frame, loop =>
    match loop.init with
    | none => loop.turns lookup fuel room frame
    | some init => do
      let inner ← newFrame frame
      match ← init.exec lookup fuel room inner with
      | some value => pure (some value)
      | none => loop.turns lookup fuel room inner

end Trees

/-! ### The loop as it is read -/

/-- A condition, and the expression that it is read into. -/
inductive UnfoldsTest : Option (Expr Hops) → Expr Hops → Prop
  | always : UnfoldsTest none (.literal (.bool true))
  | asked {cond cond' : Expr Hops} : cond.Shifts id cond' → UnfoldsTest (some cond) cond'

/-- An increment and a body, and the statement that they are read into. With an increment, both
stand one scope further in. -/
inductive UnfoldsTurn : Option (Expr Hops) → Stmt Hops → Stmt Hops → Prop
  | plain {body body' : Stmt Hops} : body.Shifts id body' → UnfoldsTurn none body body'
  | stepped {increment increment' : Expr Hops} {body body' : Stmt Hops} :
      body.Shifts Nat.succ body' → increment.Shifts Nat.succ increment' →
      UnfoldsTurn (some increment) body (.block [body', .expression increment'])

/-- What is repeated in a loop, and the loop with one clause that it is read into. -/
inductive UnfoldsTurns (cond increment : Option (Expr Hops)) (body : Stmt Hops) : Stmt Hops → Prop
  | while_ {cond' : Expr Hops} {turn : Stmt Hops} : UnfoldsTest cond cond' →
      UnfoldsTurn increment body turn → UnfoldsTurns cond increment body (.while_ cond' turn)

/-- **A resolved loop, and the resolved statement that it is read into.** -/
inductive Unfolds : ForLoop Hops → Stmt Hops → Prop
  | bare {cond increment : Option (Expr Hops)} {body stmt : Stmt Hops} :
      UnfoldsTurns cond increment body stmt → Unfolds ⟨none, cond, increment, body⟩ stmt
  | entered {init body stmt : Stmt Hops} {cond increment : Option (Expr Hops)} :
      UnfoldsTurns cond increment body stmt →
      Unfolds ⟨some init, cond, increment, body⟩ (.block [init, stmt])

section Resolving

variable {quiet : Prop} {around : Enclosing} {room more : Nat}

theorem resolveOptional_some {value : Expr Unit} {resolved : Expr Hops}
    (yields : (value.resolve around room : Verdict _).Yields quiet resolved) :
    (resolveOptional around room (some value) : Verdict _).Yields quiet (some resolved) :=
  yields_bind.mpr ⟨resolved, yields, yields_pure.mpr rfl⟩

/-- What it takes to resolve a body and an increment in a block. -/
theorem resolve_steps {body : Stmt Unit} {increment : Expr Unit} {resolved : Stmt Hops}
    {after : Enclosing}
    (yields : (Stmt.resolve around room (.block [body, .expression increment]) : Verdict _).Yields
      quiet (resolved, after)) :
    ∃ body' inside increment',
      (body.resolve (around.enter []) (room - 3) : Verdict _).Yields quiet (body', inside) ∧
      (increment.resolve inside (room - 3 - 2) : Verdict _).Yields quiet increment' ∧
      resolved = .block [body', .expression increment'] := by
  simp only [Stmt.resolve, resolveAll, yields_descend, yields_bind, yields_pure, Prod.exists,
    Prod.mk.injEq] at yields
  obtain ⟨_, _, ⟨body', inside, first, _, ⟨_, _, ⟨_, second⟩, _, rfl, rfl⟩, rfl⟩, rfl, _⟩ := yields
  obtain ⟨increment', second, rfl, _⟩ := second
  exact ⟨body', inside, increment', first, second, rfl⟩

theorem resolve_test (le : room ≤ more) {cond : Option (Expr Unit)}
    (spelled : Spelled (cond.getD (.literal (.bool true))).references) {resolved : Expr Hops}
    (yields : ((cond.getD (.literal (.bool true))).resolve around room : Verdict _).Yields quiet
      resolved) :
    ∃ test, (resolveOptional around more cond : Verdict _).Yields quiet test ∧
      UnfoldsTest test resolved := by
  cases cond with
  | none =>
      refine ⟨none, yields_pure.mpr rfl, ?_⟩
      obtain rfl := yields_pure.mp (yields_descend.mp yields).2
      exact .always
  | some cond =>
      obtain ⟨test, fine, same⟩ := cond.resolve_shifts (.refl around) le spelled yields
      exact ⟨some test, resolveOptional_some fine, .asked same⟩

/-- The body and the increment of a loop, one scope further in or not, and with less room. -/
theorem resolve_turn (le : room ≤ more) (settled : around.Settled) {body : Stmt Unit}
    {increment : Option (Expr Unit)} (formed : (body.withIncrement increment).Each Formed)
    (plain : body.declared? = none) (spelled : Spelled (body.withIncrement increment).references)
    {resolved : Stmt Hops} {after : Enclosing}
    (yields : ((body.withIncrement increment).resolve around room : Verdict _).Yields quiet
      (resolved, after)) :
    ∃ direct step, (body.resolve around more : Verdict _).Yields quiet (direct, around) ∧
      (resolveOptional around more increment : Verdict _).Yields quiet step ∧
      UnfoldsTurn step direct resolved := by
  cases increment with
  | none =>
      obtain ⟨direct, _, fine, same, _⟩ :=
        body.resolve_shifts le (.refl around) (.inl rfl) spelled yields
      obtain rfl := body.resolve_plain formed plain fine
      exact ⟨direct, none, fine, yields_pure.mpr rfl, .plain same⟩
  | some increment =>
      have formed : body.Each Formed := formed.2.1
      obtain ⟨spelled, spelled'⟩ := List.forall_mem_append.mp spelled
      have spelled' : Spelled increment.references := (List.forall_mem_append.mp spelled').1
      have further : around.Shifts Nat.succ (around.enter []) := ⟨rfl, rfl, .here settled (.same _)⟩
      obtain ⟨body', inside, increment', first, second, rfl⟩ := resolve_steps yields
      have le' : room - 3 ≤ more := Nat.le_trans (Nat.sub_le room 3) le
      obtain ⟨direct, _, fine, same, onward⟩ :=
        body.resolve_shifts le' further (.inr ⟨formed, plain⟩) spelled first
      obtain rfl := body.resolve_plain formed plain fine
      obtain ⟨step, fine', same'⟩ :=
        increment.resolve_shifts onward (Nat.le_trans (Nat.sub_le _ 2) le') spelled' second
      exact ⟨direct, some step, fine, resolveOptional_some fine', .stepped same same'⟩

theorem resolve_turns (le : room ≤ more + 2) (settled : around.Settled)
    {cond increment : Option (Expr Unit)} {body : Stmt Unit} (plain : body.declared? = none)
    (formed : (Stmt.forLoop none cond increment body).Each Formed)
    (spelled : Spelled (Stmt.forLoop none cond increment body).references)
    {resolved : Stmt Hops} {after : Enclosing}
    (yields : ((Stmt.forLoop none cond increment body).resolve around room : Verdict _).Yields
      quiet (resolved, after)) :
    ∃ test step direct, (resolveOptional around more cond : Verdict _).Yields quiet test ∧
      (body.resolve around more : Verdict _).Yields quiet (direct, around) ∧
      (resolveOptional around more increment : Verdict _).Yields quiet step ∧
      UnfoldsTurns test step direct resolved := by
  have le : room - 2 ≤ more := Nat.sub_le_of_le_add le
  obtain ⟨spelled, spelled'⟩ := List.forall_mem_append.mp spelled
  simp only [Stmt.forLoop, Stmt.withInit, Stmt.resolve, yields_descend, yields_bind, yields_pure,
    Prod.exists, Prod.mk.injEq] at yields
  obtain ⟨_, _, tested, _, _, turned, rfl, rfl⟩ := yields
  obtain ⟨test, fine, same⟩ := resolve_test le spelled tested
  obtain ⟨direct, step, fine', fine'', same'⟩ :=
    resolve_turn le settled formed.2.2 plain spelled' turned
  exact ⟨test, step, direct, fine, fine', fine'', .while_ same same'⟩

/-- **Resolving a loop** as it is meant, given that the statement that it is read into can be
resolved. -/
theorem resolve_unfolds {loop : ForLoop Unit} (orderly : Orderly around [loop.toStmt])
    (plain : loop.body.declared? = none) {resolved : Stmt Hops} {after : Enclosing}
    (yields : (loop.toStmt.resolve around room : Verdict _).Yields quiet (resolved, after)) :
    ∃ direct, (loop.resolve around room).Yields quiet direct ∧ direct.Unfolds resolved := by
  obtain ⟨init, cond, increment, body⟩ := loop
  have formed := orderly.formed.1
  have spelled := orderly.spelled_head
  simp only [resolve, yields_descend, yields_bind, yields_pure, Prod.exists]
  cases init with
  | none =>
      have fits : 2 ≤ room := (yields_descend.mp yields).1
      have le : room ≤ room - 2 + 2 := by omega
      obtain ⟨test, step, direct, fine, fine', fine'', same⟩ :=
        resolve_turns le orderly.settled plain formed spelled yields
      exact ⟨_, ⟨fits, none, around, yields_pure.mpr rfl, test, fine, direct, around,
        fine', step, fine'', rfl⟩, .bare same⟩
  | some init =>
      obtain ⟨spelled, spelled'⟩ := List.forall_mem_append.mp spelled
      have spelled' := (List.forall_mem_append.mp spelled').1
      simp only [toStmt, Stmt.forLoop, Stmt.withInit] at yields
      rw [Stmt.resolve] at yields
      simp only [resolveAll, yields_descend, yields_bind, yields_pure, Prod.exists,
        Prod.mk.injEq] at yields
      obtain ⟨fits, _, ⟨init', inside, first, _, inner, rfl⟩, rfl, rfl⟩ := yields
      obtain ⟨_, _, second, _, rfl, rfl⟩ := inner
      have settled := init.resolve_settled formed.2.1 (.enter around) first
      obtain ⟨test, step, direct, fine, fine', fine'', same⟩ :=
        resolve_turns (Nat.le_add_right _ 2) settled plain formed.2.2.1 spelled' second
      have opened : (resolveInit around (room - 3) (some init)).Yields quiet
          (some init', inside) :=
        yields_bind.mpr ⟨_, first, yields_pure.mpr rfl⟩
      exact ⟨_, ⟨fits, some init', inside, opened, test, fine, direct, inside, fine', step,
        fine'', rfl⟩, .entered same⟩

end Resolving

end ForLoop

/-! ### Executing a loop -/

theorem Run.untilReturn_single {α : Type} (step : α → Run Completion) (item : α) :
    untilReturn step [item] = step item := by
  refine Eq.trans ?_ (bind_pure (step item))
  refine bind_congr fun completion => ?_
  cases completion with
  | none => rfl
  | some value => rfl

namespace ForLoop

open Twin (Same)

variable {twin : Twin} {tight : Tight} {fuel room room' frame frame' : Nat}

theorem test_concurs (fits : tight.Fits 1 room room') (sees : twin.Sees id frame frame')
    {cond : Option (Expr Hops)} {cond' : Expr Hops} (unfolds : UnfoldsTest cond cond') :
    twin.Concur tight (test .direct fuel room frame cond) (cond'.eval .direct fuel room' frame')
      Same := by
  cases unfolds with
  | always =>
      rcases fits.inner with ⟨rfl, rfl⟩ | ⟨less, rfl, _⟩
      · exact .inl ⟨_, rfl⟩
      · exact .pure rfl
  | asked shifts => exact Twin.eval_concurs fits.less sees shifts

theorem turn_concurs (fits : tight.Fits 2 room room') (sees : twin.Sees id frame frame')
    {increment : Option (Expr Hops)} {body stmt : Stmt Hops}
    (unfolds : UnfoldsTurn increment body stmt) :
    twin.Concur tight (turn .direct fuel room frame increment body)
      (stmt.exec .direct fuel room' frame') Same := by
  cases unfolds with
  | plain shifts =>
      rw [← bind_pure (stmt.exec .direct fuel room' frame')]
      refine .bind (Twin.exec_concurs fits.less.less sees shifts) ?_
      rintro completion _ later grows rfl
      cases completion with
      | some value => exact .pure rfl
      | none => exact .pure rfl
  | stepped shifts shifts' =>
      rcases fits.inner with ⟨rfl, rfl⟩ | ⟨less, rfl, inside⟩
      · exact .inl ⟨_, rfl⟩
      -- Only on the second side there is a frame for the turn.
      · rw [← pure_bind () fun _ => turn .direct fuel room frame _ body]
        refine .bind (.inr (.newFrame_second sees)) fun _ inner middle _ behind => ?_
        refine .bind (Twin.exec_concurs inside.less behind shifts) ?_
        rintro completion _ later grows rfl
        cases completion with
        | some value => exact .pure rfl
        | none =>
            simp only [advance, bind_assoc, pure_bind, untilReturn_single]
            rcases inside.inner with ⟨rfl, rfl⟩ | ⟨least, rfl, last⟩
            · exact .inl ⟨_, rfl⟩
            · refine .bind (Twin.eval_concurs last (grows.sees behind) shifts') ?_
              exact fun _ _ _ _ _ => .pure rfl

theorem turns_concurs (fits : tight.Fits 2 room room') (sees : twin.Sees id frame frame')
    {init : Option (Stmt Hops)} {cond increment : Option (Expr Hops)} {body stmt : Stmt Hops}
    (unfolds : UnfoldsTurns cond increment body stmt) :
    twin.Concur tight (turns .direct fuel room frame ⟨init, cond, increment, body⟩)
      (stmt.exec .direct fuel (room' + 1) frame') Same := by
  cases unfolds with
  | while_ tests turns =>
      exact .loop (fun grows => grows.sees) (fun sees => test_concurs fits.less sees tests)
        (fun sees => turn_concurs fits sees turns) sees fuel

/-- **Executing a loop** as it is meant, and the statement that it is read into. -/
theorem exec_concurs (fits : tight.Fits 3 room room') (sees : twin.Sees id frame frame')
    {loop : ForLoop Hops} {stmt : Stmt Hops} (unfolds : loop.Unfolds stmt) :
    twin.Concur tight (loop.exec .direct fuel room frame) (stmt.exec .direct fuel room' frame')
      Same := by
  rcases fits.outer with ⟨rfl, rfl⟩ | ⟨rfl, rfl⟩ | ⟨less, less', rfl, rfl, inside⟩
  · exact .inl ⟨_, rfl⟩
  · cases unfolds <;> exact .inl ⟨_, rfl⟩
  · cases unfolds with
    | bare turns => exact turns_concurs inside.less sees turns
    | entered turns =>
        refine .bind (.inr (.newFrame sees)) fun inner inner' middle _ entered => ?_
        rw [under_id_eq] at entered
        refine .bind (Twin.exec_concurs inside.less.less.less entered (.refl (fun _ => rfl) _)) ?_
        rintro completion _ later grows rfl
        cases completion with
        | some value => exact .pure rfl
        | none =>
            simp only [untilReturn_single]
            rcases inside.inner with ⟨rfl, rfl⟩ | ⟨least, rfl, last⟩
            · exact .inl ⟨_, rfl⟩
            · exact turns_concurs last (grows.sees entered) turns

end ForLoop

/-! ### Machines -/

/-- Functions and methods were made in frames that exist. -/
structure Machine.Closed (machine : Machine) : Prop where
  inhabited : Machine.globals < machine.store.size
  functions : ∀ closure ∈ machine.functions, closure.frame < machine.store.size
  methods : ∀ class_ ∈ machine.hierarchy.classes, ∀ own ∈ class_.methods,
    own.2.frame < machine.store.size

theorem World.closed {ok : Site Hops → Prop} (world : World ok) : world.machine.Closed where
  inhabited := world.sound.inhabited
  functions closure member := by
    obtain ⟨_, fits, _⟩ := world.sound.functions closure member
    exact world.sound.lt_size fits
  methods class_ member own here := by
    obtain ⟨_, fits, _⟩ := world.sound.classes class_ member own here
    exact world.sound.lt_size fits

theorem Session.Reached.closed {session : Session} (reached : session.Reached) :
    session.machine.Closed := by
  obtain ⟨world, same, _⟩ := reached.world
  exact same ▸ world.closed

/-- A machine beside itself. -/
def Pair.self (machine : Machine) : Pair :=
  ⟨machine, machine, id⟩

theorem Pair.sees_self {machine : Machine} {frame : Nat} (inside : frame < machine.store.size) :
    (Pair.self machine).Sees id frame frame where
  inside := inside
  inside' := inside
  walks hops := by
    show machine.store.frameAt frame hops = (machine.store.frameAt frame hops).map id
    cases machine.store.frameAt frame hops with
    | ok found => rfl
    | error fault => rfl

theorem Machine.Closed.alike {machine : Machine} (closed : machine.Closed) :
    (Pair.self machine).Alike where
  inhabited := closed.inhabited
  globals := rfl
  inside _ inside := inside
  apart _ _ _ _ same := same
  bindings _ _ := rfl
  natives := rfl
  functions := List.forall₂_same.mpr fun closure member =>
    { initializer := rfl
      code := ⟨id, Pair.sees_self (closed.functions closure (Array.mem_toList_iff.mp member)),
        .refl (under_id fun _ => rfl) closure.decl, fun _ => rfl⟩ }
  classes := List.forall₂_same.mpr fun class_ member =>
    { name := rfl
      superclass := rfl
      methods := List.forall₂_same.mpr fun own here => ⟨rfl, rfl, id,
        Pair.sees_self (closed.methods class_ (Array.mem_toList_iff.mp member) own here),
        .refl (under_id (under_id fun _ => rfl)) own.2.decl⟩ }
  instances := rfl
  printed := rfl
  clock := rfl
  readings := rfl

/-- A closed machine is its own twin. -/
def Machine.Closed.twin {machine : Machine} (closed : machine.Closed) : Twin :=
  ⟨Pair.self machine, closed.alike⟩

/-- Two machines that came of one, with no difference but in frames that are new: the same lines are
printed, frames that were there bind the same and have the same links, and instances are the same.
Values have the same texts, and the machines are twins, so that functions and classes also do the
same. -/
structure Machine.Resemble (machine first second : Machine) : Prop where
  printed : second.printed = first.printed
  bindings : ∀ frame < machine.store.size,
    second.store.bindings frame = first.store.bindings frame
  links : ∀ frame < machine.store.size,
    second.store.enclosing? frame = first.store.enclosing? frame
  instances : second.instances = first.instances
  text : second.text = first.text
  twins : ∃ twin : Twin, twin.first = first ∧ twin.second = second ∧
    ∀ frame < machine.store.size, twin.partner frame = frame

/-- Two computations on one machine end the same way. -/
inductive Machine.EndAlike (machine : Machine) :
    (first second : EStateM.Result Failure Machine Completion) → Prop
  | ok {first second : Machine} (completion : Completion)
      (same : machine.Resemble first second) :
      EndAlike machine (.ok completion first) (.ok completion second)
  | error {first second : Machine} (failure : Failure) (same : machine.Resemble first second) :
      EndAlike machine (.error failure first) (.error failure second)

theorem Pair.Grows.resemble {machine : Machine} {later : Twin}
    (grows : (Pair.self machine).Grows later.toPair) :
    machine.Resemble later.first later.second where
  printed := later.alike.printed
  bindings frame inside := by
    rw [← later.alike.bindings frame (Nat.lt_of_lt_of_le inside grows.size),
      grows.partner frame inside]
    rfl
  links frame inside := (grows.links' frame inside).trans (grows.links frame inside).symm
  instances := later.alike.instances
  text := later.alike.text
  twins := ⟨later, rfl, rfl, grows.partner⟩

theorem Twin.Agree.endAlike {machine : Machine} {closed : machine.Closed}
    {run other : Run Completion} (agree : closed.twin.Agree run other Same) :
    machine.EndAlike (run machine) (other machine) := by
  cases agree with
  | @ok completion _ later ended ended' grows here =>
      obtain rfl := here
      have ended : run machine = .ok completion later.first := ended
      have ended' : other machine = .ok completion later.second := ended'
      rw [ended, ended']
      exact .ok completion grows.resemble
  | error failure later failed failed' grows =>
      have failed : run machine = .error failure later.first := failed
      have failed' : other machine = .error failure later.second := failed'
      rw [failed, failed']
      exact .error failure grows.resemble

theorem Verdict.Yields.eq {α : Type} {verdict : Verdict α} {value : α}
    (yields : verdict.Yields True value) : verdict = ⟨[], some value⟩ := by
  obtain ⟨complaints, found⟩ := verdict
  obtain ⟨rfl, quiet⟩ := yields
  exact congrArg (Verdict.mk · (some value)) (quiet trivial)

/-- **A loop with three clauses means what it should.** Wherever in a text that passes such a loop
stands, with whichever of its clauses, resolution accepts both the statement that it is read into
and the loop as it is meant. Executed in the same frame of the same machine, the two print the same
lines, end the same way, be it with a value to return or with an error, and leave the same behind in
all frames that were there and in all instances. The statement nests up to three levels deeper: so
it is if there is room for it, and, given as much more room, if there is room for the loop. -/
theorem Passes.forLoop_meant {text : String} {tree : List (Stmt Hops)} {limit : Nat}
    (passes : Passes text tree limit) {around : Enclosing} {nesting : Nat} {loop : ForLoop Unit}
    (visits : Visits ⟨around, nesting, loop.toStmt⟩ .topLevel limit (parse text).tree)
    (plain : loop.body.declared? = none) :
    ∃ read after meant,
      (loop.toStmt.resolve around nesting : Verdict _) = ⟨[], some (read, after)⟩ ∧
      loop.resolve around nesting = ⟨[], some meant⟩ ∧
      ∀ machine : Machine, machine.Closed → ∀ frame < machine.store.size, ∀ fuel room,
        ((∀ last, read.exec .direct fuel room frame machine ≠ .error .overflow last) →
          machine.EndAlike (meant.exec .direct fuel room frame machine)
            (read.exec .direct fuel room frame machine)) ∧
        ((∀ last, meant.exec .direct fuel room frame machine ≠ .error .overflow last) →
          machine.EndAlike (meant.exec .direct fuel room frame machine)
            (read.exec .direct fuel (room + 3) frame machine)) := by
  have accepted :
      (resolve (parse text).tree limit).Yields True tree :=
    ⟨passes.tree, fun _ => passes.resolved⟩
  obtain ⟨read, after, yields⟩ := visits.yields accepted
  obtain ⟨meant, fine, unfolds⟩ :=
    ForLoop.resolve_unfolds (visits.orderly (.parsed text)) plain yields
  refine ⟨read, after, meant, yields.eq, fine.eq, fun machine closed frame inside fuel room => ?_⟩
  have concur (tight : Tight) (room' : Nat) (fits : tight.Fits 3 room room') :
      closed.twin.Concur tight (meant.exec .direct fuel room frame)
        (read.exec .direct fuel room' frame) Twin.Same :=
    ForLoop.exec_concurs fits (Pair.sees_self inside) unfolds
  constructor
  · intro enough
    rcases concur .second room (Nat.le_refl room) with ⟨last, failed⟩ | agree
    · exact absurd failed (enough last)
    · exact agree.endAlike
  · intro enough
    rcases concur .first (room + 3) (Nat.le_refl (room + 3)) with ⟨last, failed⟩ | agree
    · exact absurd failed (enough last)
    · exact agree.endAlike

/-- A text with a loop whose variable is captured and changed in its body, and which fails in the
end. -/
def capturedText : String :=
  "for (var i = 0; i < 50; i = i + 1) { fun f() { i = i + 10; return i; } print f();
  if (i > 20) i.x; }"

/-- The loop that a statement was read from, if it had all its clauses. -/
def ForLoop.ofStmt? : Stmt Unit → Option (ForLoop Unit)
  | .block [init, .while_ cond (.block [body, .expression increment])] =>
    some ⟨some init, some cond, some increment, body⟩
  | _ => none

theorem ForLoop.toStmt_ofStmt? {stmt : Stmt Unit} {loop : ForLoop Unit}
    (found : ofStmt? stmt = some loop) : loop.toStmt = stmt := by
  unfold ofStmt? at found
  split at found
  · rw [← Option.some.inj found]
    rfl
  · cases found

/-- The lines that were printed in the end, and the error of the program if there was one. -/
structure Account where
  lines : List String
  error : Option RunError
deriving DecidableEq

/-- What can be told of the end of a computation. -/
def accountOf : EStateM.Result Failure Machine Completion → Account
  | .error (.error error _) last => ⟨last.printed.toList, some error⟩
  | .ok _ last | .error _ last => ⟨last.printed.toList, none⟩

theorem accountOf_ne_overflow {result : EStateM.Result Failure Machine Completion}
    {lines : List String} {error : RunError} (told : accountOf result = ⟨lines, some error⟩)
    (last : Machine) : result ≠ .error .overflow last := by
  rintro rfl
  cases told

theorem Passes.forLoop_meant_captured :
    let machine := Machine.standard .zero
    let told : Account := ⟨["10", "21"], some .propertyOfNonInstance⟩
    ∃ (tree : List (Stmt Hops)) (loop : ForLoop Unit), Passes capturedText tree ∧
      Visits ⟨.topLevel, maxNesting, loop.toStmt⟩ .topLevel maxNesting (parse capturedText).tree ∧
      loop.body.declared? = none ∧ machine.Closed ∧
      ∃ read after meant,
        (loop.toStmt.resolve .topLevel maxNesting : Verdict _) = ⟨[], some (read, after)⟩ ∧
        loop.resolve .topLevel maxNesting = ⟨[], some meant⟩ ∧
        accountOf (read.exec .direct 100 100 Machine.globals machine) = told ∧
        accountOf (meant.exec .direct 100 100 Machine.globals machine) = told ∧
        machine.EndAlike (meant.exec .direct 100 100 Machine.globals machine)
          (read.exec .direct 100 100 Machine.globals machine) ∧
        machine.EndAlike (meant.exec .direct 100 100 Machine.globals machine)
          (read.exec .direct 100 103 Machine.globals machine) := by
  obtain ⟨clean, facts⟩ : ((parse capturedText).complaints = [] ∧
      (resolve (parse capturedText).tree).complaints = [] ∧
        (resolve (parse capturedText).tree).value.isSome) ∧
      (((parse capturedText).tree.head?.bind ForLoop.ofStmt?).map fun loop =>
        (loop.body.declared?,
          (loop.toStmt.resolve .topLevel maxNesting : Verdict _).value.map fun read =>
            accountOf (read.1.exec .direct 100 100 Machine.globals (.standard .zero)),
          (loop.resolve .topLevel maxNesting).value.map fun meant =>
            accountOf (meant.exec .direct 100 100 Machine.globals (.standard .zero)))) =
        some (none, some ⟨["10", "21"], some .propertyOfNonInstance⟩,
          some ⟨["10", "21"], some .propertyOfNonInstance⟩) := by decide +kernel
  obtain ⟨tree, passes⟩ := exists_passes clean
  have closed : (Machine.standard .zero).Closed := (Session.Reached.start {} .zero false {}).closed
  obtain ⟨loop, found, told⟩ := Option.map_eq_some_iff.mp facts
  obtain ⟨stmt, first, found⟩ := Option.bind_eq_some_iff.mp found
  simp only [Prod.mk.injEq] at told
  obtain ⟨plain, ofRead, ofMeant⟩ := told
  have visits : Visits ⟨.topLevel, maxNesting, loop.toStmt⟩ .topLevel maxNesting
      (parse capturedText).tree := by
    obtain ⟨more, whole⟩ := List.head?_eq_some_iff.mp first
    rw [whole, ← ForLoop.toStmt_ofStmt? found]
    exact .here
  obtain ⟨read, after, meant, resolved, resolved', alike⟩ := passes.forLoop_meant visits plain
  obtain ⟨same, same'⟩ := alike _ closed Machine.globals closed.inhabited 100 100
  rw [resolved] at ofRead
  rw [resolved'] at ofMeant
  have ofRead := Option.some.inj ofRead
  have ofMeant := Option.some.inj ofMeant
  exact ⟨tree, loop, passes, visits, plain, closed, read, after, meant, resolved, resolved', ofRead,
    ofMeant, same (accountOf_ne_overflow ofRead), same' (accountOf_ne_overflow ofMeant)⟩

end Lox
