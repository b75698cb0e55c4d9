/-
**Precedence.** Derivations that group operators by how tightly these bind.

The rules by themselves leave open how `a - b * c` is to be grouped, and to which `if` an `else`
belongs. A phrase has a grade that says what its surroundings need to know about it:

* of an expression, how tightly its outermost operator binds (`Operator.level`; a unary operator
  binds tighter than every binary one, and calls, properties and single tokens bind tightest);
* of a statement or declaration, whether it ends in an `if` that could still take an `else`.

`Derivation.Lawful` are the derivations of the grammar proper, without gaps. `Derivation.Grouped`
are those among them in which every operand binds as tightly as its operator asks, and no `if` is
left open in front of an `else`.
-/

import Lox.Proofs.Derivation

set_option linter.unusedSectionVars false

namespace Lox

/-! ### Levels -/

namespace Operator

/-- How tightly the left operand of an operator has to bind. -/
def leftLevel : Operator → Nat
  | .assign => 1
  | op => op.level

/-- How tightly the right operand of an operator has to bind. -/
def rightLevel : Operator → Nat
  | .assign => 0
  | op => op.level + 1

/-- How tightly a unary operator binds. -/
def unaryLevel : Nat := 7

/-- How tightly a call, a property or a single token binds. -/
def postfixLevel : Nat := 8

theorem level_lt_unaryLevel (op : Operator) : op.level < unaryLevel := by
  unfold unaryLevel
  fun_cases level op <;> omega

theorem rightLevel_le_unaryLevel (op : Operator) : op.rightLevel ≤ unaryLevel := by
  unfold rightLevel
  split
  · exact Nat.zero_le _
  · exact op.level_lt_unaryLevel

theorem leftLevel_le_unaryLevel (op : Operator) : op.leftLevel ≤ unaryLevel := by
  unfold leftLevel
  split
  · decide
  · exact Nat.le_of_lt op.level_lt_unaryLevel

theorem level_le_leftLevel (op : Operator) : op.level ≤ op.leftLevel := by
  unfold leftLevel
  split
  · exact Nat.zero_le _
  · exact Nat.le_refl _

theorem level_le_of_rightLevel_le {op : Operator} {grade : Nat} (tight : op.rightLevel ≤ grade) :
    op.level ≤ grade := by
  unfold rightLevel at tight
  split at tight
  · exact Nat.zero_le _
  · omega

/-- An operator that does not bind its left operand tighter than another one binds leaves the
operand between them to that one. -/
theorem takes_eq_false {left right : Operator} (looser : right.leftLevel ≤ left.level) :
    left.takes right = false := by
  unfold leftLevel at looser
  unfold takes
  split at looser
  · cases left with
    | assign => exact absurd looser (by decide)
    | connect op => simp [level]
    | compute op => simp [level]
  · rename_i different
    have other : (right == assign) = false := beq_false_of_ne different
    rw [other, Bool.and_false, Bool.or_false, decide_eq_false_iff_not]
    omega

/-- An operator that binds as tightly as the right operand of another one takes the operand between
them. -/
theorem takes_of_rightLevel_le {left right : Operator} (tighter : left.rightLevel ≤ right.level) :
    left.takes right = true := by
  unfold rightLevel at tighter
  unfold takes
  split at tighter
  · cases right with
    | assign => rfl
    | connect op => cases op <;> rfl
    | compute op => cases op <;> rfl
  · rw [Bool.or_eq_true, decide_eq_true_iff]
    exact Or.inl (by omega)

/-- Where an operator takes the operand of another one, the other one can have what the first one
makes for its right operand. -/
theorem rightLevel_le_level {left right : Operator} (tighter : left.level < right.leftLevel) :
    left.rightLevel ≤ right.level := by
  unfold leftLevel at tighter
  unfold rightLevel
  split
  · exact Nat.zero_le _
  · split at tighter
    · cases left with
      | assign => exact absurd rfl ‹_›
      | connect op => cases op <;> exact absurd tighter (by decide)
      | compute op => cases op <;> exact absurd tighter (by decide)
    · exact tighter

end Operator

/-! ### Grades -/

/-- What the surroundings of a phrase need to know about it. -/
def Grade : Symbol → Type
  | .nonterminal .expr => Nat
  | .nonterminal .statement | .nonterminal .declaration => Bool
  | _ => Unit

/-- The grade of what a rule makes. -/
def Rule.grade : (rule : Rule) → Values Grade rule.rhs → Grade (.nonterminal rule.lhs)
  | .binary op, _ => op.level
  | .unary _, _ => Operator.unaryLevel
  | .call, _ | .get, _ | .grouping, _ | .variable_, _ | .number, _ | .string, _ | .true_, _
  | .false_, _ | .nil_, _ | .this, _ | .super, _ => Operator.postfixLevel
  | .ifThen, _ => true
  | .ifElse, (_, _, _, _, _, _, no, ()) => no
  | .whileLoop, (_, _, _, _, body, ()) => body
  | .forLoop, (_, _, _, _, _, body, ()) => body
  | .expression, _ | .print, _ | .returnNothing, _ | .returnValue, _ | .ofBlock, _ => false
  | .ofStatement, (stmt, ()) => stmt
  | .ofClass, _ | .ofFun, _ | .ofVar, _ | .skipped, _ => false
  | .program, _ | .noStatements, _ | .moreStatements, _ | .classDecl, _ | .noSuperclass, _
  | .superclass, _ | .noMethods, _ | .moreMethods, _ | .funDecl, _ | .function, _ | .noParams, _
  | .someParams, _ | .firstParam, _ | .moreParams, _ | .varPlain, _ | .varInit, _ | .block, _
  | .noInit, _ | .initVar, _ | .initExpr, _ | .noCond, _ | .someCond, _ | .noStep, _
  | .someStep, _ | .noArguments, _ | .someArguments, _ | .firstArgument, _
  | .moreArguments, _ => ()

/-- The semantics that makes grades. -/
def grades : Semantics Grade where
  leaf _ _ := ()
  node := Rule.grade
  objections _ _ := []

/-- What a rule asks of the grades of its parts. -/
def Rule.Groups : (rule : Rule) → Values Grade rule.rhs → Prop
  | .binary op, (left, _, right, ()) => op.leftLevel ≤ (left : Nat) ∧ op.rightLevel ≤ (right : Nat)
  | .unary _, (_, operand, ()) => Operator.unaryLevel ≤ (operand : Nat)
  | .call, (callee, _) => Operator.postfixLevel ≤ (callee : Nat)
  | .get, (object, _) => Operator.postfixLevel ≤ (object : Nat)
  | .ifElse, (_, _, _, _, yes, _) => yes = false
  | _, _ => True

/-! ### Derivations -/

/-- A token of its class, and no gap. -/
def Terminal.Fits (kind : Terminal) (token : Token) : Prop :=
  token.kind = kind ∧ kind ≠ .gap

/-- A derivation of the grammar proper: every leaf is a token of its class, and there are no
gaps. -/
def Derivation.Lawful {symbol : Symbol} (derivation : Derivation symbol) : Prop :=
  derivation.Each .shape Terminal.Fits fun _ _ => True

/-- Derivations of the grammar proper. -/
def Derivations.Lawful {shape : List Symbol} (parts : Derivations shape) : Prop :=
  parts.Each .shape Terminal.Fits fun _ _ => True

/-- A derivation of the grammar proper that groups operators by how tightly they bind. -/
def Derivation.Grouped {symbol : Symbol} (derivation : Derivation symbol) : Prop :=
  derivation.Each grades Terminal.Fits Rule.Groups

/-- Derivations of the grammar proper that group operators by how tightly they bind. -/
def Derivations.Grouped {shape : List Symbol} (parts : Derivations shape) : Prop :=
  parts.Each grades Terminal.Fits Rule.Groups

/-- The grade of a derivation. -/
def Derivation.grade {symbol : Symbol} (derivation : Derivation symbol) : Grade symbol :=
  derivation.value grades

/-- How tightly a derived expression binds. -/
def Derivation.level (derivation : Derivation (.nonterminal .expr)) : Nat :=
  derivation.grade

/-- Whether a derived statement could still take an `else`. -/
def Derivation.isOpen (derivation : Derivation (.nonterminal .statement)) : Bool :=
  derivation.grade

/-- What holds of each of some derivations. -/
def Derivations.All (holds : (symbol : Symbol) → Derivation symbol → Prop) :
    {shape : List Symbol} → Derivations shape → Prop
  | _, .nil => True
  | _, .cons first rest => holds _ first ∧ rest.All holds

section Induction

variable {holds : (symbol : Symbol) → Derivation symbol → Prop}
  (leaf : ∀ kind token, holds (.terminal kind) (.leaf kind token))
  (node : ∀ rule parts, parts.All holds → holds (.nonterminal rule.lhs) (.node rule parts))

include leaf node

mutual

/-- **Induction over derivations**, rule by rule. -/
theorem Derivation.induct : {symbol : Symbol} → (derivation : Derivation symbol) →
    holds symbol derivation
  | _, .leaf kind token => leaf kind token
  | _, .node rule parts => node rule parts (Derivations.induct parts)

theorem Derivations.induct : {shape : List Symbol} → (parts : Derivations shape) →
    parts.All holds
  | _, .nil => trivial
  | _, .cons first rest => ⟨Derivation.induct first, Derivations.induct rest⟩

end

end Induction

end Lox
