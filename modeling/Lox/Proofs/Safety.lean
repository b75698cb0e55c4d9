/-
**Safety.** Texts that pass without an issue run without a reference that leads nowhere.

* `Lookup.watched` finds names as resolution has placed them, and also looks at what it finds:
  `this` must stand for an instance and `super` for a class.
* `Session.Reached` are the sessions that any sequence of texts leads to from a new machine,
  whatever became of the texts. `Session.Reached.world`: their machines are those of worlds.
* `Session.Reached.runs_safely`: on such a machine, a text that passes runs the same if it is
  watched, and fails only in ways that a program can bring about.
-/

import Lox.Proofs.Evaluation
import Lox.Proofs.LexicalScope
import Lox.Session

namespace Lox

open Layer

/-! ### Watched lookups -/

/-- Whether a value is an instance. -/
def Value.isInstance : Value → Bool
  | instance_ _ => true
  | _ => false

/-- Whether a value is a class. -/
def Value.isClass : Value → Bool
  | class_ _ => true
  | _ => false

theorem Value.isInstance_iff {value : Value} :
    value.isInstance = true ↔ ∃ id, value = .instance_ id := by
  cases value <;> simp [isInstance]

theorem Value.isClass_iff {value : Value} : value.isClass = true ↔ ∃ id, value = .class_ id := by
  cases value <;> simp [isClass]

instance (value : Value) (name : String) : Decidable (value.Befits name) :=
  decidable_of_iff
    ((name = thisName → value.isInstance = true) ∧ (name = superName → value.isClass = true))
    ⟨fun both => ⟨fun same => Value.isInstance_iff.mp (both.1 same),
        fun same => Value.isClass_iff.mp (both.2 same)⟩,
      fun befits => ⟨fun same => Value.isInstance_iff.mpr (befits.this same),
        fun same => Value.isClass_iff.mpr (befits.super same)⟩⟩

/-- What a name stands for in the frame a number of links out, which has to befit the name. -/
def Run.getWatched (frame hops : Nat) (name : String) : Run Value := do
  let value ← Run.getAt frame hops name
  if value.Befits name then pure value else throw .misbound

/-- Names are found where resolution has placed them, and what is found is looked at. -/
def Lookup.watched : Lookup where
  bound := Run.getWatched
  read := Lookup.follow Run.getWatched
  write := Run.assign

theorem Run.getWatched_eq {ok : Site Hops → Prop} {world : World ok} {frame hops : Nat}
    {name : String} {layers : List Layer} (spans : world.Spans (· = name) frame layers)
    (sure : Sure name layers hops) :
    Run.getWatched frame hops name world.machine = Run.getAt frame hops name world.machine := by
  obtain ⟨value, found, _, befits⟩ := world.sound.getAt spans sure
  have direct : Run.getAt frame hops name world.machine = .ok value world.machine := by
    rw [Run.getAt, Run.get_bind, found]
    rfl
  simp only [Run.getWatched, Bind.bind, EStateM.bind, direct, if_pos befits]
  rfl

theorem Lookup.watched_follows : Lookup.watched.Follows Site.Leads where
  leads := id
  bound := Run.getWatched_eq
  read {world frame site} leads use spans := by
    obtain ⟨use, ⟨token, target⟩, layers⟩ := site
    subst use
    cases target with
    | none => rfl
    | some hops => exact Run.getWatched_eq spans (leads hops rfl)
  write _ _ _ _ := rfl

/-! ### Texts that pass -/

/-- A text passes without an issue: nothing is wrong with it when it is parsed and resolved, and it
is not nested too deeply for the room. -/
structure Passes (text : String) (tree : List (Stmt Hops)) (room : Nat := maxNesting) : Prop where
  parsed : (parse text).complaints = []
  resolved : (resolve (parse text).tree room).complaints = []
  tree : (resolve (parse text).tree room).value = some tree

/-- It can be computed whether a text passes. -/
theorem exists_passes {text : String} {room : Nat}
    (clean : (parse text).complaints = [] ∧ (resolve (parse text).tree room).complaints = [] ∧
      (resolve (parse text).tree room).value.isSome) :
    ∃ tree, Passes text tree room := by
  obtain ⟨parsed, resolved, whole⟩ := clean
  obtain ⟨tree, found⟩ := Option.isSome_iff_exists.mp whole
  exact ⟨tree, parsed, resolved, found⟩

theorem Ready.topLevel {ok : Site Hops → Prop} {tree : List (Stmt Hops)}
    (sites : ∀ site ∈ sitesIn [] tree, ok site) (accepted : eachIn Accepted tree) :
    Ready ok [] tree where
  sites := sites
  accepted := accepted
  hosts stmt member name declared :=
    ⟨(eachIn_iff.mp accepted stmt member).here.1.names name declared, nofun⟩

namespace Passes

variable {text : String} {tree : List (Stmt Hops)} {room : Nat} (passes : Passes text tree room)

include passes

theorem yields : (resolve (parse text).tree room).Yields True tree :=
  ⟨passes.tree, fun _ => passes.resolved⟩

theorem accepted : eachIn Accepted tree :=
  (resolve_corresponds passes.yields).accepted trivial

/-- A text that passes can run: its references lead somewhere. -/
theorem ready : Ready Site.Leads [] tree :=
  .topLevel (resolve_leads passes.yields) passes.accepted

end Passes

/-! ### What a session does to its machine -/

theorem Report.resolveTree_sound {report next : Report} {tree : List (Stmt Unit)} {room : Nat}
    {resolved : List (Stmt Hops)} (done : report.resolveTree tree room = (next, .done resolved))
    (well : ¬ next.sick = true) :
    (resolve tree room).complaints = [] ∧ (resolve tree room).value = some resolved := by
  have found := report.resolveTree_done (congrArg Prod.snd done)
  rw [resolveTree_eq] at done
  obtain ⟨rfl, _⟩ := Prod.mk.inj done
  exact ⟨List.map_eq_nil_iff.mp (fileAll_ok rfl well), found⟩

theorem runProgram_machine (tree : List (Stmt Hops)) (machine : Machine) (limits : Limits) :
    (runProgram tree machine limits).1 =
      leftBehind (runStatements .direct limits.turns limits.room tree machine) := by
  unfold runProgram leftBehind
  split <;> rename_i ended <;> rw [ended]

theorem Session.proceed_machine (session : Session) (report : Report) (tree : List (Stmt Hops)) :
    (session.proceed report tree).1.machine = session.machine ∨
      (session.proceed report tree).1.machine =
        (runProgram tree session.machine session.limits).1 := by
  unfold proceed
  simp only
  split
  · exact .inl rfl
  · exact .inr rfl

/-- **A text leaves the machine alone, or it passes and is run.** -/
theorem Session.run_machine (session : Session) (text : String) :
    (session.run text).1.machine = session.machine ∨
      ∃ tree, Passes text tree session.limits.nesting ∧ (session.run text).1.machine =
        leftBehind (runStatements .direct session.limits.turns session.limits.room tree
          session.machine) := by
  unfold run
  split
  · exact .inl rfl
  · rename_i report tree parsed
    split
    · exact .inl rfl
    · rename_i well
      obtain ⟨clean, rfl⟩ := Report.parseText_sound parsed well
      simp only
      split
      · exact .inl rfl
      · split <;> exact .inl rfl
      · rename_i next resolved done
        split
        · exact .inl rfl
        · rename_i well
          obtain ⟨quiet, found⟩ := Report.resolveTree_sound done well
          rcases session.proceed_machine next resolved with same | run
          · exact .inl same
          · rw [runProgram_machine] at run
            exact .inr ⟨resolved, ⟨clean, quiet, found⟩, run⟩

/-! ### Machines of worlds -/

/-- A machine without globals, with a clock, and nothing in any scope. -/
def Heap.fresh (time : Clock) (foreign : Prop) : Heap where
  machine := { Machine.fresh with clock := time }
  scopes _ := ⟨[], []⟩
  foreign := foreign

theorem Heap.fresh_sound (ok : Site Hops → Prop) (time : Clock) (foreign : Prop) :
    (Heap.fresh time foreign).Sound ok where
  root := rfl
  inhabited := Nat.zero_lt_one
  bindings frame name value found := by
    have none : ((Heap.fresh time foreign).machine.store.bindings frame).get? name = none := by
      change ((Store.empty.push none).bindings frame).get? name = none
      rw [Store.bindings_push]
      rfl
    rw [none] at found
    cases found
  natives _ member := absurd member (Array.not_mem_empty _)
  functions _ member := absurd member (Array.not_mem_empty _)
  classes _ member := absurd member (Array.not_mem_empty _)
  instances _ member := absurd member (Array.not_mem_empty _)
  fields _ member := absurd member (Array.not_mem_empty _)

/-- A heap with one more native function. -/
def Heap.defineNative (heap : Heap) (native : Native) : Heap where
  machine := heap.machine.defineNative native
  scopes := heap.scopes
  foreign := heap.foreign

theorem Heap.extends_defineNative {heap : Heap} (ok : Site Hops → Prop) {native : Native}
    (inside : Machine.globals < heap.machine.store.size)
    (lawful : native.Lawful ∧ (heap.foreign ∨ native.Faithful)) :
    heap.Extends ok (heap.defineNative native) where
  grows := {
    size := by simp [defineNative, Machine.defineNative]
    links := by simp [defineNative, Machine.defineNative]
    bound := fun frame name known => (Store.binds_define inside _ _ frame name).mpr (.inr known)
    natives := by simp [defineNative, Machine.defineNative] }
  bindings frame name value found := by
    rw [defineNative, Machine.defineNative, Store.get?_define inside] at found
    by_cases same : frame = Machine.globals ∧ name = native.name
    · rw [if_pos same] at found
      obtain rfl := Option.some.inj found
      refine .inr ⟨?_, fun inner => absurd same.1 inner, fun inner => absurd same.1 inner⟩
      simp [defineNative, Machine.defineNative, Holds]
    · rw [if_neg same] at found
      exact .inl found
  natives other member := by
    rcases Array.mem_push.mp member with old | rfl
    · exact .inl old
    · exact .inr lawful

namespace World

variable {ok : Site Hops → Prop}

/-- A world with one more native function. -/
def defineNative (world : World ok) (native : Native)
    (lawful : native.Lawful ∧ (world.foreign ∨ native.Faithful)) : World ok :=
  ⟨world.toHeap.defineNative native,
    world.sound.extend (Heap.extends_defineNative ok world.sound.inhabited lawful)⟩

theorem clock_lawful : clock.Lawful := by
  intro machine args holds
  cases args with
  | nil => trivial
  | cons time more => exact holds time List.mem_cons_self

theorem clock_faithful : clock.Faithful := by
  intro machine args holds
  cases args with
  | nil => trivial
  | cons time more => exact holds time List.mem_cons_self

/-- A world on which programs run. -/
def standard (ok : Site Hops → Prop) (time : Clock) (foreign : Prop) : World ok :=
  defineNative ⟨.fresh time foreign, Heap.fresh_sound ok time foreign⟩ clock
    ⟨clock_lawful, .inr clock_faithful⟩

end World

/-! ### Sessions -/

/-- The sessions that lead from a new machine through any texts, whatever became of them. The report
may be reset in between, native functions may be added that give only values that exist, and a text
that passes may also be run with other bounds on its nesting and its loops. -/
inductive Session.Reached : Session → Prop
  | start (report : Report) (time : Clock) (checkOnly : Bool) (limits : Limits) :
    Reached (.start report time checkOnly limits)
  | run {session : Session} (reached : Reached session) (text : String) :
    Reached (session.run text).1
  | reset {session : Session} (reached : Reached session) : Reached session.reset
  | native {session : Session} (reached : Reached session) {native : Native}
    (lawful : native.Lawful) :
    Reached { session with machine := session.machine.defineNative native }
  | within {session : Session} (reached : Reached session) {text : String}
    {tree : List (Stmt Hops)} {nesting : Nat} (passes : Passes text tree nesting)
    (turns room : Nat) :
    Reached { session with
      machine := leftBehind (runStatements .direct turns room tree session.machine) }

/-- The machine of a session belongs to a world. -/
theorem Session.Reached.world {session : Session} (reached : session.Reached) :
    ∃ world : World Site.Leads, world.machine = session.machine ∧ world.foreign := by
  have runs : ∀ {world : World Site.Leads} {text : String} {tree : List (Stmt Hops)} {nesting},
      world.foreign → Passes text tree nesting → ∀ turns room, ∃ later : World Site.Leads,
        later.machine = leftBehind (runStatements .direct turns room tree world.machine) ∧
          later.foreign := by
    intro world text tree nesting foreign passes turns room
    obtain ⟨later, same, grows⟩ := RunLogic.Ends.exists_later
      (runStatements_meets Lookup.watched_follows turns room passes.ready).ends
    exact ⟨later, same, grows.foreign.mpr foreign⟩
  induction reached with
  | start report time checkOnly limits => exact ⟨.standard _ time True, rfl, trivial⟩
  | @run session reached text ih =>
      obtain ⟨world, same, foreign⟩ := ih
      rcases session.run_machine text with idle | ⟨tree, passes, run⟩
      · exact ⟨world, same.trans idle.symm, foreign⟩
      · rw [run, ← same]
        exact runs foreign passes _ _
  | reset reached ih => exact ih
  | native reached lawful ih =>
      obtain ⟨world, same, foreign⟩ := ih
      exact ⟨world.defineNative _ ⟨lawful, .inl foreign⟩, congrArg (Machine.defineNative · _) same,
        foreign⟩
  | within reached passes turns room ih =>
      obtain ⟨world, same, foreign⟩ := ih
      rw [← same]
      exact runs foreign passes turns room

/-- **Texts that pass run safely.** On the machine of any session, whatever was run before, a text
that passes without an issue runs the same whether or not every name that is looked up directly is
watched: it is bound the right number of links out, `this` to an instance and `super` to a class.
So a run that fails, within whatever bounds, fails by an error of the program, by nesting too deeply
or by a loop that takes all its turns. -/
theorem Session.Reached.runs_safely {session : Session} (reached : session.Reached) {text : String}
    {tree : List (Stmt Hops)} {nesting : Nat} (passes : Passes text tree nesting)
    (turns room : Nat) :
    runStatements .watched turns room tree session.machine =
        runStatements .direct turns room tree session.machine ∧
      ∀ failure machine, runStatements .watched turns room tree session.machine =
        .error failure machine → failure.Benign := by
  obtain ⟨world, same, _⟩ := reached.world
  have meets : world.Meets (runStatements .direct turns room tree)
      (runStatements .watched turns room tree) fun _ _ => True :=
    runStatements_meets Lookup.watched_follows turns room passes.ready
  rw [← same]
  refine ⟨meets.same, fun failure machine failed => ?_⟩
  have ends : World.logic.Ends world _ (runStatements .direct turns room tree world.machine) :=
    meets.ends
  rw [← meets.same, failed] at ends
  obtain ⟨_, _, _, benign⟩ := ends
  exact benign

/-- A session whose first text failed while it ran. -/
def crashedSession : Session :=
  ((Session.start {} .zero false).run "class C { init(x) { this.x = x; } } C();").1.reset

/-- A text in which a closure uses `this` and `super`. -/
def inheritanceText : String :=
  "class A { m() { return this; } }
  class B < A { m() { fun g() { return super.m() == this; } return g; } }
  { var b = B(); print b.m()(); }"

theorem Session.Reached.runs_safely_inheritance :
    crashedSession.Reached ∧ ∃ tree, Passes inheritanceText tree ∧ ∀ turns room,
      runStatements .watched turns room tree crashedSession.machine =
          runStatements .direct turns room tree crashedSession.machine ∧
        ∀ failure machine, runStatements .watched turns room tree crashedSession.machine =
          .error failure machine → failure.Benign := by
  have reached : crashedSession.Reached := .reset (.run (.start {} .zero false {}) _)
  obtain ⟨tree, passes⟩ : ∃ tree, Passes inheritanceText tree := exists_passes (by decide +kernel)
  exact ⟨reached, tree, passes, reached.runs_safely passes⟩

end Lox
