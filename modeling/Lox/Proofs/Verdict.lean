/-
**Verdicts.** What resolving a tree comes upon, all of it, and what it gives.

A verdict goes on after every objection, so that it holds what a walk over a tree objects to whether
or not there is a report that gets full on the way.

* `resolve` is the verdict on a program.
* `Yields`: a verdict has a result, with or without complaints.
-/

import Lox.Resolve

namespace Lox

/-- A result with the complaints on the way to it; there is no result for a tree nested too
deeply. -/
structure Verdict (α : Type) where
  complaints : List (Token × Violation)
  value : Option α

namespace Verdict

variable {α β : Type}

/-- A result without complaints. -/
def pure (value : α) : Verdict α := ⟨[], some value⟩

/-- Goes on with a result. -/
def bind (verdict : Verdict α) (next : α → Verdict β) : Verdict β :=
  match verdict.value with
  | none => ⟨verdict.complaints, none⟩
  | some value =>
    let rest := next value
    ⟨verdict.complaints ++ rest.complaints, rest.value⟩

instance : Resolver Verdict where
  pure := pure
  bind := bind
  object token violation := ⟨[(token, violation)], some ()⟩
  tooDeep := ⟨[], none⟩

end Verdict

/-- Resolves a program, with some room for nesting. -/
def resolve (tree : List (Stmt Unit)) (room : Nat := maxNesting) : Verdict (List (Stmt Hops)) :=
  resolveAll .topLevel room tree

namespace Verdict

open Resolver

variable {α β : Type}

/-- A verdict has a result. If it is to be quiet, there are no complaints either. -/
def Yields (quiet : Prop) (verdict : Verdict α) (value : α) : Prop :=
  verdict.value = some value ∧ (quiet → verdict.complaints = [])

variable {quiet : Prop}

@[simp] theorem yields_pure {value result : α} :
    (Pure.pure value : Verdict α).Yields quiet result ↔ value = result := by
  simp [Yields, Pure.pure, Verdict.pure]

@[simp] theorem yields_bind {verdict : Verdict α} {next : α → Verdict β} {result : β} :
    (verdict >>= next).Yields quiet result ↔
      ∃ value, verdict.Yields quiet value ∧ (next value).Yields quiet result := by
  obtain ⟨complaints, value⟩ := verdict
  cases value with
  | none => simp [Yields, Bind.bind, Verdict.bind]
  | some value =>
      simp only [Yields, Bind.bind, Verdict.bind, List.append_eq_nil_iff, Option.some.injEq]
      constructor
      · rintro ⟨same, none⟩
        exact ⟨value, ⟨rfl, fun here => (none here).1⟩, same, fun here => (none here).2⟩
      · rintro ⟨_, ⟨rfl, first⟩, same, second⟩
        exact ⟨same, fun here => ⟨first here, second here⟩⟩

@[simp] theorem yields_objectIf {condition : Bool} {token : Token} {violation : Violation}
    {result : Unit} :
    (objectIf condition token violation : Verdict Unit).Yields quiet result ↔
      (quiet → condition = false) := by
  cases condition <;> simp [Yields, objectIf, Resolver.object, Pure.pure, Verdict.pure]

@[simp] theorem yields_descend {calls room : Nat} {next : Nat → Verdict α} {result : α} :
    (descend calls room next).Yields quiet result ↔
      calls ≤ room ∧ (next (room - calls)).Yields quiet result := by
  unfold descend
  split
  · rename_i fits
    simp [fits]
  · rename_i full
    simp [full, Yields, Resolver.tooDeep]

end Verdict

end Lox
