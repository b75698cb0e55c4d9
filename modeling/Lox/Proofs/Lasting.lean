/-
**Bindings that last.** What `this` and `super` stand for in a frame is fixed when the frame is
made.

* A method that is bound to an instance fixes `this`, and the frame for a superclass fixes `super`
  (`Operation.fixture?`). `Lasting` is what becomes of that in a history.
* `Session.Reached.fixtures_last`: whatever texts a session runs, fixtures hold for ever, and calls
  of initializers that complete return the instance they were bound to.
-/

import Lox.Proofs.Histories

namespace Lox

/-- What `this` and `super` stand for lasts, from the operation that fixed it to the end of a
history, and initializers return what they were bound to. -/
structure Lasting (machine : Machine) (log : List Operation) : Prop where
  /-- What an operation fixes holds when it is over, after every later operation and at the end. -/
  fixed : ∀ earlier operation later, log = earlier ++ operation :: later →
    ∀ fixture ∈ operation.fixture?, fixture.Holds operation.after ∧
      (∀ next ∈ later, fixture.Holds next.after) ∧ fixture.Holds machine
  /-- A call of `init` that completes returns the instance that it was bound to. -/
  returns : ∀ earlier closure args before value after later,
    log = earlier ++ .call closure args before (.ok value after) :: later →
      closure.decl.name.lexeme = initName →
        ∀ old ∈ log, ∀ id, old.Binds closure id → value = .instance_ id
  /-- What was called as an initializer is an `init` that had been bound before. -/
  called : ∀ earlier closure args before value after later,
    log = earlier ++ .call closure args before (.ok value after) :: later →
      closure.isInitializer = true →
        closure.decl.name.lexeme = initName ∧ ∃ old ∈ earlier, ∃ id, old.Binds closure id
  /-- Among the functions that can be called there is no initializer that was not bound. -/
  bound : ∀ closure ∈ machine.functions, closure.isInitializer = true →
    ∃ old ∈ log, ∃ id, old.Binds closure id

/-- What is fixed in a machine is retained. -/
theorem Fixture.Holds.retain {fixture : Fixture} {before after : Machine}
    (holds : fixture.Holds before) (inner : fixture.frame ≠ Machine.globals)
    (reserved : ¬ ProperName fixture.name) (retains : before.Retains after) :
    fixture.Holds after :=
  retains.fixed _ _ _ inner reserved holds

/-- A function is bound to one instance only. -/
theorem Machine.Provenance.eq_of_binds {machine : Machine} {foreign : Prop} {log : List Operation}
    (provenance : machine.Provenance foreign log) {first second : Operation} (early : first ∈ log)
    (late : second ∈ log) {closure : Closure} {id other : Nat} (binds : first.Binds closure id)
    (rebinds : second.Binds closure other) : id = other := by
  have same := (provenance.binds early binds).1.symm.trans (provenance.binds late rebinds).1
  cases same
  rfl

/-- Valid logs are lasting. -/
theorem ValidLog.lasting {first machine : Machine} {foreign : Prop} {log : List Operation}
    (valid : ValidLog none [] first log machine) (provenance : machine.Provenance foreign log) :
    Lasting machine log where
  fixed earlier operation later split fixture made := by
    rw [split] at valid
    obtain ⟨here, more⟩ := valid.split
    obtain ⟨inner, holds⟩ := here.fixed fixture made
    have reserved := Operation.reserved_of_fixture? made
    exact ⟨holds, fun next member => holds.retain inner reserved (more.retains.2 next member),
      holds.retain inner reserved more.retains.1⟩
  returns earlier closure args before value after later split name old listed id binds := by
    have initializer := (provenance.binds listed binds).2.mpr name
    have call := (split ▸ valid).split.1.effect.2
    obtain ⟨first, member, id', bound, rfl⟩ := call value after rfl initializer
    have inside : first ∈ log := split ▸ List.mem_append_left _ member
    rw [provenance.eq_of_binds inside listed bound binds]
  called earlier closure args before value after later split initializer := by
    have call := (split ▸ valid).split.1.effect.2
    obtain ⟨old, member, id, binds, _⟩ := call value after rfl initializer
    have inside : old ∈ log := split ▸ List.mem_append_left _ member
    exact ⟨(provenance.binds inside binds).2.mp initializer, old, member, id, binds⟩
  bound closure member := (provenance.functions closure member).2

/-- **`this` and `super` are fixed for ever, and initializers return their instance.** Whatever
texts a session has run, it has a history, in which everything that was done is written down;
writing it down changes nothing, and it goes on with every text. In each such history, a frame that
was made by binding a method keeps its `this`, and a frame that was made for a superclass keeps its
`super`, after every single step from then on. A call of an initializer that completes, however it
came about, returns the instance that the initializer was bound to. -/
theorem Session.Reached.fixtures_last {session : Session} (reached : session.Reached) :
    (∃ log, History Native.Lawful session.machine log) ∧
      ∀ log, History Native.Lawful session.machine log →
        Lasting session.machine log ∧ RecordsFaithfully session.machine log ∧
          ∀ text, ∃ more, History Native.Lawful (session.run text).1.machine (log ++ more) := by
  refine ⟨reached.history, fun log history => ?_⟩
  obtain ⟨provenance, _, valid⟩ := history.known
  exact ⟨valid.lasting provenance, recordsFaithfully _ log, history.run_text fun _ => id⟩

/-- A text in which initializers are called in all sorts of ways: through the class, through
`super`, as a method, stored in a variable and in a field, inside each other, and left early. -/
def initializingText : String :=
  "class A { init() { this.f = this.init; return; } }
  class B < A { init() { super.init(); A(); } }
  var b = B(); var s = b.init; s(); b.init(); b.f();"

/-- Whether an operation is a call of an initializer that completed with an instance. -/
def Operation.initializes : Operation → Bool
  | .call closure _ _ (.ok (.instance_ _) _) => closure.isInitializer
  | _ => false

theorem Session.Reached.fixtures_last_initializers :
    let fresh := Session.start {} .zero false
    let session := (fresh.run initializingText).1
    session.Reached ∧
      (∃ tree, Passes initializingText tree ∧
        (logOf maxTurns maxRoom tree fresh.machine []).countP Operation.initializes = 12) ∧
      (∃ log, History Native.Lawful session.machine log) ∧
        ∀ log, History Native.Lawful session.machine log →
          Lasting session.machine log ∧ RecordsFaithfully session.machine log ∧
            ∀ text, ∃ more, History Native.Lawful (session.run text).1.machine (log ++ more) := by
  have reached := Session.Reached.run (.start {} .zero false {}) initializingText
  obtain ⟨tree, passes⟩ : ∃ tree, Passes initializingText tree := exists_passes (by decide +kernel)
  have calls : (resolve (parse initializingText).tree).value.map (fun tree =>
      (logOf maxTurns maxRoom tree (Session.start {} .zero false).machine []).countP
        Operation.initializes) = some 12 := by decide +kernel
  rw [passes.tree, Option.map_some, Option.some_inj] at calls
  exact ⟨reached, ⟨tree, passes, calls⟩, reached.fixtures_last⟩

end Lox
