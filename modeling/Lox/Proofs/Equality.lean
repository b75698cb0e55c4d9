/-
**Equality.** How the equality of the language goes with the kinds of values, their truth and their
texts.

* `Value.same_iff`: values are equal if they are the same and no NaN, or if both are zeros. Whether
  they are the same is a matter of identity for functions, classes and instances, since a value
  holds only their number.
* `Value.same_lawful`: so equality is symmetric and transitive, only a NaN is unlike itself, and
  equal values are of one kind and count for the same; they print alike but for the two zeros.
-/

import Lox.Proofs.Spellings

namespace Lox

namespace Number

theorem isNaN_of_isZero {x : Number} (zero : x.isZero = true) : x.isNaN = false := by
  have none : x.magnitude = 0 := beq_iff_eq.mp zero
  rw [isNaN, none]
  decide

theorem same_iff (x y : Number) : x.same y = true ↔
    (x = y ∧ x.isNaN = false) ∨ (x.isZero = true ∧ y.isZero = true) := by
  have bits : (x.bits == y.bits) = true ↔ x = y :=
    ⟨fun same => congrArg Number.mk (beq_iff_eq.mp same), fun same => same ▸ beq_self_eq_true _⟩
  rw [same, Bool.and_eq_true, Bool.and_eq_true, Bool.or_eq_true, Bool.and_eq_true, bits,
    Bool.not_eq_true', Bool.not_eq_true']
  constructor
  · rintro ⟨⟨proper, _⟩, rfl | zeros⟩
    · exact .inl ⟨rfl, proper⟩
    · exact .inr zeros
  · rintro (⟨rfl, proper⟩ | zeros)
    · exact ⟨⟨proper, proper⟩, .inl rfl⟩
    · exact ⟨⟨isNaN_of_isZero zeros.1, isNaN_of_isZero zeros.2⟩, .inr zeros⟩

/-- The two zeros differ by their signs. -/
theorem eq_iff_of_isZero {x y : Number} (zero : x.isZero = true) (zero' : y.isZero = true) :
    x = y ↔ x.isNegative = y.isNegative := by
  refine ⟨congrArg isNegative, fun sign => eq_of_sign_of_absolute sign ?_⟩
  exact congrArg Number.mk ((beq_iff_eq.mp zero).trans (beq_iff_eq.mp zero').symm)

end Number

namespace Value

/-- The kinds of values. -/
inductive Kind where
  | nil | bool | number | string | function | class_ | instance_
deriving DecidableEq

/-- The kind of a value. Native functions are functions. -/
def kind : Value → Kind
  | nil => .nil
  | bool _ => .bool
  | number _ => .number
  | string _ => .string
  | native _ | function _ => .function
  | class_ _ => .class_
  | instance_ _ => .instance_

/-- A value is one of the NaNs. -/
def IsNaN (value : Value) : Prop :=
  ∃ x, value = number x ∧ x.isNaN = true

/-- A value is one of the two zeros. -/
def IsZero (value : Value) : Prop :=
  ∃ x, value = number x ∧ x.isZero = true

/-- Two values are the two zeros, one with a sign and one without. -/
def OppositeZeros (a b : Value) : Prop :=
  ∃ x y, a = number x ∧ b = number y ∧ x.isZero = true ∧ y.isZero = true ∧
    x.isNegative ≠ y.isNegative

theorem IsZero.not_isNaN {value : Value} : value.IsZero → ¬ value.IsNaN := by
  rintro ⟨x, rfl, zero⟩ ⟨_, ⟨⟩, nan⟩
  rw [Number.isNaN_of_isZero zero] at nan
  cases nan

theorem not_isNaN_number {x : Number} : ¬ (number x).IsNaN ↔ x.isNaN = false := by
  rw [← Bool.not_eq_true]
  refine not_congr ⟨?_, fun nan => ⟨x, rfl, nan⟩⟩
  rintro ⟨_, ⟨⟩, nan⟩
  exact nan

theorem isZero_number {x : Number} : (number x).IsZero ↔ x.isZero = true := by
  refine ⟨?_, fun zero => ⟨x, rfl, zero⟩⟩
  rintro ⟨_, ⟨⟩, zero⟩
  exact zero

/-- But for numbers, values are equal if they are the same. -/
theorem same_of_kind {a b : Value} (other : a.kind ≠ .number ∨ b.kind ≠ .number) :
    a.same b = decide (a = b) := by
  unfold same
  split
  · exact absurd rfl (other.elim id id)
  · rfl

/-- **What equality comes to**: being the same and no NaN, or both being zeros. -/
theorem same_iff (a b : Value) :
    a.same b = true ↔ (a = b ∧ ¬ a.IsNaN) ∨ (a.IsZero ∧ b.IsZero) := by
  by_cases numbers : a.kind = .number ∧ b.kind = .number
  · obtain ⟨first, second⟩ := numbers
    cases a <;> cases first
    cases b <;> cases second
    rw [same, Number.same_iff, number.injEq, not_isNaN_number, isZero_number, isZero_number]
  · have other : a.kind ≠ .number ∨ b.kind ≠ .number := by
      rwa [not_and_or] at numbers
    rw [same_of_kind other, decide_eq_true_iff]
    constructor
    · rintro rfl
      refine .inl ⟨rfl, ?_⟩
      rintro ⟨x, rfl, _⟩
      exact other.elim (absurd rfl) (absurd rfl)
    · rintro (⟨rfl, _⟩ | ⟨⟨x, rfl, _⟩, ⟨y, rfl, _⟩⟩)
      · rfl
      · exact absurd rfl (other.elim id id)

variable {a b c : Value}

theorem same_symm (same : a.same b = true) : b.same a = true := by
  rw [same_iff] at same ⊢
  rcases same with ⟨rfl, proper⟩ | ⟨zero, zero'⟩
  · exact .inl ⟨rfl, proper⟩
  · exact .inr ⟨zero', zero⟩

theorem same_trans (first : a.same b = true) (second : b.same c = true) : a.same c = true := by
  rw [same_iff] at first second ⊢
  rcases first with ⟨rfl, _⟩ | ⟨zero, _⟩
  · exact second
  · rcases second with ⟨rfl, _⟩ | ⟨_, zero'⟩
    · exact .inr ⟨zero, ‹_›⟩
    · exact .inr ⟨zero, zero'⟩

theorem same_self_iff (a : Value) : a.same a = true ↔ ¬ a.IsNaN := by
  rw [same_iff]
  constructor
  · rintro (⟨_, proper⟩ | ⟨zero, _⟩)
    · exact proper
    · exact zero.not_isNaN
  · exact fun proper => .inl ⟨rfl, proper⟩

theorem kind_of_same (same : a.same b = true) : a.kind = b.kind := by
  rcases (same_iff a b).mp same with ⟨rfl, _⟩ | ⟨⟨x, rfl, _⟩, ⟨y, rfl, _⟩⟩
  · rfl
  · rfl

theorem isTruthy_of_same (same : a.same b = true) : a.isTruthy = b.isTruthy := by
  rcases (same_iff a b).mp same with ⟨rfl, _⟩ | ⟨⟨x, rfl, _⟩, ⟨y, rfl, _⟩⟩
  · rfl
  · rfl

/-- Of equal values, only the two zeros print differently. -/
theorem text_of_same (machine : Machine) (same : a.same b = true) :
    machine.text a = machine.text b ↔ ¬ OppositeZeros a b := by
  rcases (same_iff a b).mp same with ⟨rfl, _⟩ | ⟨⟨x, rfl, zero⟩, ⟨y, rfl, zero'⟩⟩
  · refine iff_of_true rfl ?_
    rintro ⟨x, _, rfl, ⟨⟩, _, _, signs⟩
    exact signs rfl
  · have texts : machine.text (number x) = machine.text (number y) ↔ x = y := by
      refine (Number.toText_spells.eq_iff x y).trans ⟨fun same => same.resolve_right ?_, .inl⟩
      rintro ⟨nan, _⟩
      rw [Number.isNaN_of_isZero zero] at nan
      cases nan
    rw [texts, Number.eq_iff_of_isZero zero zero']
    constructor
    · rintro signs ⟨_, _, ⟨⟩, ⟨⟩, _, _, differ⟩
      exact differ signs
    · intro alike
      by_contra differ
      exact alike ⟨x, y, rfl, rfl, zero, zero', differ⟩

/-- **Equality is a partial equivalence that goes with truth and printing.** It is symmetric and
transitive, and all values but the NaNs are equal to themselves. Values of different kinds are never
equal. Equal values count for the same, and print alike on every machine unless they are zeros of
opposite signs, which do not. -/
theorem same_lawful (machine : Machine) (a b c : Value) :
    (a.same b = b.same a) ∧
    (a.same b = true → b.same c = true → a.same c = true) ∧
    (a.same a = true ↔ ¬ a.IsNaN) ∧
    (a.kind ≠ b.kind → a.same b = false) ∧
    (a.same b = true → a.isTruthy = b.isTruthy ∧
      (machine.text a = machine.text b ↔ ¬ OppositeZeros a b)) := by
  refine ⟨Bool.eq_iff_iff.mpr ⟨same_symm, same_symm⟩, same_trans, same_self_iff a, fun kinds => ?_,
    fun same => ⟨isTruthy_of_same same, text_of_same machine same⟩⟩
  rw [← Bool.not_eq_true]
  exact fun same => kinds (kind_of_same same)

/-- Zero and minus zero are equal, count for the same, and print differently. -/
theorem same_lawful_zeros :
    (number ⟨0⟩).same (number ⟨0x8000000000000000⟩) = true ∧
      (number ⟨0⟩).isTruthy = (number ⟨0x8000000000000000⟩).isTruthy ∧
      ∀ machine : Machine,
        machine.text (number ⟨0⟩) ≠ machine.text (number ⟨0x8000000000000000⟩) := by
  have same : (number ⟨0⟩).same (number ⟨0x8000000000000000⟩) = true := by decide
  have opposite : OppositeZeros (number ⟨0⟩) (number ⟨0x8000000000000000⟩) :=
    ⟨_, _, rfl, rfl, by decide, by decide, by decide⟩
  refine ⟨same, ?_, fun machine prints => ?_⟩
  · exact ((same_lawful default (number ⟨0⟩) (number ⟨0x8000000000000000⟩) nil).2.2.2.2 same).1
  · have agree := same_lawful machine (number ⟨0⟩) (number ⟨0x8000000000000000⟩) nil
    exact (agree.2.2.2.2 same).2.mp prints opposite

end Value

end Lox
