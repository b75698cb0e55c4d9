/-
**Trees written out.** The tokens that write a tree out, and the trees for which that says enough.

* `Stmt.written` writes a tree out with no parentheses but those of groupings, calls and statements.
  What it takes for a token to stand for a `Mark` is `Mark.Spells`.
* `Writable` are the trees that respect precedence: operands bind as tightly as their operators ask,
  no branch in front of an `else` ends in an `if` that could take it, branches declare nothing, and
  calls and functions keep within the limits.
* `Stmt.unplaced` forgets the lines and offsets of a tree.
-/

import Lox.Proofs.Precedence
import Lox.Proofs.Trees
import Mathlib.Data.List.Forall2

namespace Lox

variable {ρ : Type}

/-! ### Lines and offsets -/

/-- A token without the place where it stands. -/
def Token.unplaced (token : Token) : Token :=
  { token with line := 0, offset := 0 }

/-- A reference without the place where it stands. -/
def Reference.unplaced (reference : Reference ρ) : Reference ρ :=
  { reference with token := reference.token.unplaced }

mutual

/-- An expression without the places where its tokens stand. -/
@[simp]
def Expr.unplaced : Expr ρ → Expr ρ
  | .assign target value => .assign target.unplaced value.unplaced
  | .binary left op token right => .binary left.unplaced op token.unplaced right.unplaced
  | .call callee paren args => .call callee.unplaced paren.unplaced (argumentsUnplaced args)
  | .get object name => .get object.unplaced name.unplaced
  | .grouping inner => .grouping inner.unplaced
  | .literal value => .literal value
  | .logical left op token right => .logical left.unplaced op token.unplaced right.unplaced
  | .set object name value => .set object.unplaced name.unplaced value.unplaced
  | .super keyword method => .super keyword.unplaced method.unplaced
  | .this keyword => .this keyword.unplaced
  | .unary sign token right => .unary sign token.unplaced right.unplaced
  | .var name => .var name.unplaced

/-- Arguments without the places where their tokens stand. -/
def argumentsUnplaced : List (Expr ρ) → List (Expr ρ)
  | [] => []
  | arg :: more => arg.unplaced :: argumentsUnplaced more

end

mutual

/-- A statement without the places where its tokens stand. -/
@[simp]
def Stmt.unplaced : Stmt ρ → Stmt ρ
  | .block body => .block (bodyUnplaced body)
  | .function decl => .function decl.unplaced
  | .class_ name superclass methods =>
    .class_ name.unplaced (superclass.map Reference.unplaced) (methodsUnplaced methods)
  | .expression value => .expression value.unplaced
  | .ifThen cond yes => .ifThen cond.unplaced yes.unplaced
  | .ifElse cond yes no => .ifElse cond.unplaced yes.unplaced no.unplaced
  | .print keyword value => .print keyword.unplaced value.unplaced
  | .return_ keyword value => .return_ keyword.unplaced (value.map Expr.unplaced)
  | .var name init => .var name.unplaced (init.map Expr.unplaced)
  | .while_ cond body => .while_ cond.unplaced body.unplaced

/-- Statements without the places where their tokens stand. -/
def bodyUnplaced : List (Stmt ρ) → List (Stmt ρ)
  | [] => []
  | stmt :: more => stmt.unplaced :: bodyUnplaced more

/-- A function without the places where its tokens stand. -/
def Function.unplaced : Function ρ → Function ρ
  | .mk name params body => .mk name.unplaced (params.map Token.unplaced) (bodyUnplaced body)

/-- Methods without the places where their tokens stand. -/
def methodsUnplaced : List (Function ρ) → List (Function ρ)
  | [] => []
  | method :: more => method.unplaced :: methodsUnplaced more

end

@[simp] theorem argumentsUnplaced_eq (args : List (Expr ρ)) :
    argumentsUnplaced args = args.map Expr.unplaced := by
  induction args with
  | nil => rfl
  | cons arg more ih => rw [argumentsUnplaced, ih, List.map_cons]

@[simp] theorem bodyUnplaced_eq (body : List (Stmt ρ)) :
    bodyUnplaced body = body.map Stmt.unplaced := by
  induction body with
  | nil => rfl
  | cons stmt more ih => rw [bodyUnplaced, ih, List.map_cons]

@[simp] theorem methodsUnplaced_eq (methods : List (Function ρ)) :
    methodsUnplaced methods = methods.map Function.unplaced := by
  induction methods with
  | nil => rfl
  | cons method more ih => rw [methodsUnplaced, ih, List.map_cons]

/-! ### Writing out -/

/-- What a token of a tree that is written out has to be. -/
inductive Mark where
  /-- Any token of a class. -/
  | fixed (kind : Terminal)
  /-- A token that the tree keeps. -/
  | kept (token : Token)
  /-- Any token of a class with the given meaning. -/
  | literal (kind : Terminal) (value : Literal)

/-- A token is what it has to be, wherever it stands. -/
def Mark.Spells : Mark → Token → Prop
  | .fixed kind, token => token.kind = kind
  | .kept original, token => token.unplaced = original.unplaced
  | .literal kind value, token => token.kind = kind ∧ token.literal = value

instance (mark : Mark) (token : Token) : Decidable (mark.Spells token) :=
  match mark with
  | .fixed kind => inferInstanceAs (Decidable (token.kind = kind))
  | .kept original => inferInstanceAs (Decidable (token.unplaced = original.unplaced))
  | .literal kind value => inferInstanceAs (Decidable (token.kind = kind ∧ token.literal = value))

/-- Tokens write out what is to be written. -/
abbrev Writes (marks : List Mark) (tokens : List Token) : Prop :=
  List.Forall₂ Mark.Spells marks tokens

/-- A literal written out. -/
def Literal.written : Literal → Mark
  | .nil => .fixed .nil_
  | .bool true => .fixed .true_
  | .bool false => .fixed .false_
  | .number value => .literal .number (.number value)
  | .string value => .literal .string (.string value)

mutual

/-- An expression written out. -/
def Expr.written : Expr ρ → List Mark
  | .assign target value => .kept target.token :: .fixed .equal :: value.written
  | .binary left _ token right => left.written ++ .kept token :: right.written
  | .call callee paren args =>
    callee.written ++ .fixed .parenOpen :: (argumentsWritten args ++ [.kept paren])
  | .get object name => object.written ++ [.fixed .dot, .kept name]
  | .grouping inner => .fixed .parenOpen :: (inner.written ++ [.fixed .parenClose])
  | .literal value => [value.written]
  | .logical left _ token right => left.written ++ .kept token :: right.written
  | .set object name value =>
    object.written ++ .fixed .dot :: .kept name :: .fixed .equal :: value.written
  | .super keyword method => [.kept keyword.token, .fixed .dot, .kept method]
  | .this keyword => [.kept keyword.token]
  | .unary _ token right => .kept token :: right.written
  | .var name => [.kept name.token]

/-- Arguments written out, with commas between them. -/
def argumentsWritten : List (Expr ρ) → List Mark
  | [] => []
  | arg :: more => arg.written ++ furtherWritten more

/-- Arguments written out, with a comma in front of each. -/
def furtherWritten : List (Expr ρ) → List Mark
  | [] => []
  | arg :: more => .fixed .comma :: (arg.written ++ furtherWritten more)

end

/-- Parameters written out, with commas between them. -/
def paramsWritten : List Token → List Mark
  | [] => []
  | name :: more => .kept name :: more.flatMap fun name => [.fixed .comma, .kept name]

/-- A superclass written out. -/
def superclassWritten : Option (Reference ρ) → List Mark
  | none => []
  | some parent => [.fixed .less, .kept parent.token]

/-- The head of a statement with a condition written out. -/
def conditionWritten (word : Terminal) (cond : Expr ρ) : List Mark :=
  .fixed word :: .fixed .parenOpen :: (cond.written ++ [.fixed .parenClose])

mutual

/-- A statement written out. -/
def Stmt.written : Stmt ρ → List Mark
  | .block body => .fixed .braceOpen :: (bodyWritten body ++ [.fixed .braceClose])
  | .function decl => .fixed .fun_ :: decl.written
  | .class_ name superclass methods =>
    .fixed .class_ :: .kept name :: (superclassWritten superclass ++
      .fixed .braceOpen :: (methodsWritten methods ++ [.fixed .braceClose]))
  | .expression value => value.written ++ [.fixed .semicolon]
  | .ifThen cond yes => conditionWritten .if_ cond ++ yes.written
  | .ifElse cond yes no =>
    conditionWritten .if_ cond ++ (yes.written ++ .fixed .else_ :: no.written)
  | .print keyword value => .kept keyword :: (value.written ++ [.fixed .semicolon])
  | .return_ keyword none => [.kept keyword, .fixed .semicolon]
  | .return_ keyword (some value) => .kept keyword :: (value.written ++ [.fixed .semicolon])
  | .var name none => [.fixed .var_, .kept name, .fixed .semicolon]
  | .var name (some init) =>
    .fixed .var_ :: .kept name :: .fixed .equal :: (init.written ++ [.fixed .semicolon])
  | .while_ cond body => conditionWritten .while_ cond ++ body.written

/-- Statements written out one after the other. -/
def bodyWritten : List (Stmt ρ) → List Mark
  | [] => []
  | stmt :: more => stmt.written ++ bodyWritten more

/-- A function written out, without the word in front of it. -/
def Function.written : Function ρ → List Mark
  | .mk name params body =>
    .kept name :: .fixed .parenOpen :: (paramsWritten params ++
      .fixed .parenClose :: .fixed .braceOpen :: (bodyWritten body ++ [.fixed .braceClose]))

/-- Methods written out one after the other. -/
def methodsWritten : List (Function ρ) → List Mark
  | [] => []
  | method :: more => method.written ++ methodsWritten more

end

/-- A whole program written out: the end of the text comes last. -/
def programWritten (body : List (Stmt ρ)) : List Mark :=
  bodyWritten body ++ [.fixed .eof]

/-! ### Trees that can be written out -/

/-- How tightly an expression binds. -/
def Expr.level : Expr ρ → Nat
  | .assign _ _ | .set _ _ _ => Operator.level .assign
  | .logical _ op _ _ => Operator.level (.connect op)
  | .binary _ op _ _ => Operator.level (.compute op)
  | .unary _ _ _ => Operator.unaryLevel
  | _ => Operator.postfixLevel

/-- Whether a statement ends in an `if` that could still take an `else`. -/
def Stmt.isOpen : Stmt ρ → Bool
  | .ifThen _ _ => true
  | .ifElse _ _ no => no.isOpen
  | .while_ _ body => body.isOpen
  | _ => false

/-- Operands on both sides of an operator that groups to the left: the left one binds as tightly at
least, the right one more tightly, and the token is that of the operator. -/
structure Operator.Joins (op : Operator) (left : Expr ρ) (token : Token) (right : Expr ρ) :
    Prop where
  token : token.kind = op.terminal
  left : op.level ≤ left.level
  right : op.level < right.level

/-- The parts of an expression bind as tightly as it asks, and its tokens are as they should be. -/
def Expr.Writable : Expr ρ → Prop
  | .assign target _ => target.token.kind = .name
  | .binary left op token right => Operator.Joins (.compute op) left token right
  | .call callee paren args =>
    Operator.postfixLevel ≤ callee.level ∧ paren.kind = .parenClose ∧ args.length ≤ maxArguments
  | .get object name => Operator.postfixLevel ≤ object.level ∧ name.kind = .name
  | .grouping _ | .literal _ => True
  | .logical left op token right => Operator.Joins (.connect op) left token right
  | .set object name _ => Operator.postfixLevel ≤ object.level ∧ name.kind = .name
  | .super keyword method => keyword.token.kind = .super_ ∧ method.kind = .name
  | .this keyword => keyword.token.kind = .this_
  | .unary sign token right => token.kind = sign.terminal ∧ Operator.unaryLevel ≤ right.level
  | .var name => name.token.kind = .name

/-- The branches of a statement declare nothing, none in front of an `else` could take it, and the
tokens are what they should be. -/
def Stmt.Writable : Stmt ρ → Prop
  | .block _ | .function _ | .expression _ => True
  | .class_ name superclass _ =>
    name.kind = .name ∧ ∀ parent ∈ superclass, parent.token.kind = .name
  | .ifThen _ yes => yes.declared? = none
  | .ifElse _ yes no => yes.declared? = none ∧ no.declared? = none ∧ yes.isOpen = false
  | .print keyword _ => keyword.kind = .print_
  | .return_ keyword _ => keyword.kind = .return_
  | .var name _ => name.kind = .name
  | .while_ _ body => body.declared? = none

/-- The name and the parameters of a function are names, and the parameters not too many. -/
structure Function.Writable (decl : Function ρ) : Prop where
  name : decl.name.kind = .name
  params : ∀ name ∈ decl.params, name.kind = .name
  limit : decl.params.length ≤ maxArguments

/-- **Trees that respect precedence**, and so can be written out without further parentheses. -/
def Writable : Demands ρ where
  expr := Expr.Writable
  stmt := Stmt.Writable
  function := Function.Writable

end Lox
