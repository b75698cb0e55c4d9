/-
**Bindings.** What names stand for, in the order in which they were bound first.

* `Bindings.get?` is the view of the bindings; `get?_set_self` and `get?_set_of_ne` say what
  binding a name does to it.
-/

namespace Lox

/-- What names stand for. -/
abbrev Bindings (α : Type) := List (String × α)

namespace Bindings

variable {α : Type}

/-- What a name stands for. -/
def get? (name : String) : Bindings α → Option α
  | [] => none
  | (other, value) :: more => if other = name then some value else get? name more

/-- Whether a name stands for something. -/
def has (name : String) (bindings : Bindings α) : Bool :=
  (get? name bindings).isSome

/-- Lets a name stand for a value, whatever it stood for before. -/
def set (name : String) (value : α) : Bindings α → Bindings α
  | [] => [(name, value)]
  | (other, old) :: more =>
    if other = name then (other, value) :: more else (other, old) :: set name value more

@[simp] theorem get?_nil (name : String) : get? name ([] : Bindings α) = none := rfl

@[simp] theorem get?_set_self (name : String) (value : α) (bindings : Bindings α) :
    get? name (set name value bindings) = some value := by
  induction bindings with
  | nil => simp [set, get?]
  | cons binding more ih =>
    obtain ⟨other, old⟩ := binding
    by_cases same : other = name <;> simp [set, get?, same, ih]

theorem get?_set_of_ne {name other : String} (different : other ≠ name) (value : α)
    (bindings : Bindings α) : get? other (set name value bindings) = get? other bindings := by
  induction bindings with
  | nil => simp [set, get?, Ne.symm different]
  | cons binding more ih =>
    obtain ⟨first, old⟩ := binding
    by_cases same : first = name
    · subst same
      simp [set, get?, Ne.symm different]
    · by_cases here : first = other
      · subst here
        simp [set, get?, same]
      · simp [set, get?, same, here, ih]

end Bindings

end Lox
