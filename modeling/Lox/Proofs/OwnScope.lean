/-
**Own scopes.** Whatever is executed or evaluated in a frame extends no other frame that was there.

* `Machine.GainsOnly`: frames that were there keep their names and their links, and gain only names
  that they may.
* `Session.Reached.extends_own_scope`: a statement gains at most the name that it declares, in its
  own frame, an expression none but a local variable in whose initializer it assigns to it, and a
  call none at all, however they end.
-/

import Lox.Proofs.Histories

namespace Lox

/-- Frames that were there keep their names and their links, and gain only names that they may. -/
structure Machine.GainsOnly (may : Nat → String → Prop) (before after : Machine) : Prop where
  size : before.store.size ≤ after.store.size
  links : ∀ frame < before.store.size,
    after.store.enclosing? frame = before.store.enclosing? frame
  kept : ∀ frame name, before.store.binds frame name = true → after.store.binds frame name = true
  gained : ∀ frame < before.store.size, ∀ name, after.store.binds frame name = true →
    before.store.binds frame name = true ∨ may frame name

theorem Machine.Widens.gainsOnly {may : Nat → String → Prop} {before after : Machine}
    (widens : before.Widens may after) : before.GainsOnly may after where
  size := widens.size
  links := widens.links
  kept := widens.kept
  gained frame inside name binds :=
    (widens.gained frame inside name binds).imp_right fun here => here.1

/-- An operation extends only its own scope. The declaration of a variable to which an expression
assigns early stands among the later operations. -/
def Operation.ExtendsOwn (later : List Operation) : Operation → Prop
  | exec frame stmt before result => before.GainsOnly (stmt.mayBind frame) (leftBehind result)
  | eval frame expr before result =>
    before.GainsOnly (Expr.mayBind
      (fun initialization => ∃ operation ∈ later, initialization.Declared operation)
      expr.references frame) (leftBehind result)
  | call _ _ before result => before.GainsOnly nothing (leftBehind result)
  | _ => True

theorem Operation.Valid.extendsOwn {past later : List Operation} {operation : Operation}
    (valid : operation.Valid none past later) : operation.ExtendsOwn later := by
  have effect := valid.effect
  cases operation with
  | eval frame expr before result =>
      refine (effect.widens.mono ?_).gainsOnly
      rintro holder _ name ⟨same, initialization, known, early⟩
      exact ⟨same, initialization, known.resolve_left (Option.not_mem_none initialization), early⟩
  | exec frame stmt before result => exact Machine.Widens.gainsOnly effect
  | call closure args before result => exact effect.1.gainsOnly
  | _ => trivial

/-- **Execution only extends its own scope.** Whatever texts a session has run, everything that was
done is written in a history, and writing it down changes nothing. In each such history, every
statement, every expression and every call, whether it completes, returns or fails, leaves the
frames that were there with their names and their links. No frame that was there gains a name, but
for the one that the statement declares in its own frame, and a local variable to which an
expression assigns in the initializer of its declaration. -/
theorem Session.Reached.extends_own_scope {session : Session} (reached : session.Reached) :
    (∃ log, History Native.Lawful session.machine log) ∧
      ∀ log, History Native.Lawful session.machine log →
        (∀ earlier operation later, log = earlier ++ operation :: later →
          operation.ExtendsOwn later) ∧ RecordsFaithfully session.machine log := by
  refine ⟨reached.history, fun log history => ⟨?_, recordsFaithfully _ log⟩⟩
  rintro earlier operation later rfl
  obtain ⟨_, _, valid⟩ := history.known
  exact valid.split.1.extendsOwn

/-- A text in which variables come early, in a function, in a loop and in a method, and which fails
in the end. -/
def earlyText : String :=
  "fun f() { var x = (x = 2) + 1; return x; }
  class A { m() { var y = f() + (y = 1); return y; } }
  { var z = A().m(); for (var i = 0; i < 2; i = i + 1) { var w = w = z; } var v = (v = 1) + nil; }"

/-- Whether an expression bound a name in its frame. -/
def Operation.bindsEarly : Operation → Bool
  | .eval frame _ before result =>
    (before.store.bindings frame).length < ((leftBehind result).store.bindings frame).length
  | _ => false

theorem Session.Reached.extends_own_scope_early :
    let fresh := Session.start {} .zero false
    let session := (fresh.run earlyText).1
    session.Reached ∧
      (∃ tree, Passes earlyText tree ∧
        (logOf maxTurns maxRoom tree fresh.machine []).countP Operation.bindsEarly = 11) ∧
      (∃ log, History Native.Lawful session.machine log) ∧
        ∀ log, History Native.Lawful session.machine log →
          (∀ earlier operation later, log = earlier ++ operation :: later →
            operation.ExtendsOwn later) ∧ RecordsFaithfully session.machine log := by
  have reached := Session.Reached.run (.start {} .zero false {}) earlyText
  have ⟨clean, early⟩ : ((parse earlyText).complaints = [] ∧
      (resolve (parse earlyText).tree).complaints = [] ∧
        (resolve (parse earlyText).tree).value.isSome) ∧
      (resolve (parse earlyText).tree).value.map (fun tree =>
        (logOf maxTurns maxRoom tree (Session.start {} .zero false).machine []).countP
          Operation.bindsEarly) = some 11 := by decide +kernel
  obtain ⟨tree, passes⟩ := exists_passes clean
  rw [passes.tree, Option.map_some, Option.some_inj] at early
  exact ⟨reached, ⟨tree, passes, early⟩, reached.extends_own_scope⟩

end Lox
