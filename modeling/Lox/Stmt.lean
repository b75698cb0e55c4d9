/-
**Statements.** The trees that programs are read into.

* `Stmt.forLoop` is the loop with three clauses, made of a loop with one in blocks.
* `Stmt.summary` is a short text for a statement.
-/

import Lox.Expr

namespace Lox

mutual

/-- The statements. -/
inductive Stmt (ρ : Type) where
  | block (body : List (Stmt ρ))
  | function (decl : Function ρ)
  | class_ (name : Token) (superclass : Option (Reference ρ)) (methods : List (Function ρ))
  | expression (value : Expr ρ)
  | ifThen (cond : Expr ρ) (yes : Stmt ρ)
  | ifElse (cond : Expr ρ) (yes no : Stmt ρ)
  | print (keyword : Token) (value : Expr ρ)
  | return_ (keyword : Token) (value : Option (Expr ρ))
  | var (name : Token) (init : Option (Expr ρ))
  | while_ (cond : Expr ρ) (body : Stmt ρ)

/-- The functions and methods. -/
inductive Function (ρ : Type) where
  | mk (name : Token) (params : List Token) (body : List (Stmt ρ))

end

variable {ρ : Type}

instance : Inhabited (Stmt ρ) := ⟨.block []⟩

namespace Function

/-- The name of a function. -/
def name : Function ρ → Token
  | mk name _ _ => name

/-- The parameters of a function, in order. -/
def params : Function ρ → List Token
  | mk _ params _ => params

/-- The statements of a function. -/
def body : Function ρ → List (Stmt ρ)
  | mk _ _ body => body

end Function

namespace Stmt

/-- The body of a loop with an increment: the increment is evaluated after the body. -/
def withIncrement (body : Stmt ρ) : Option (Expr ρ) → Stmt ρ
  | some increment => block [body, expression increment]
  | none => body

/-- A statement with another one in front of it, in a scope of their own. -/
def withInit (loop : Stmt ρ) : Option (Stmt ρ) → Stmt ρ
  | some init => block [init, loop]
  | none => loop

/-- The loop with three clauses. A condition that is left out is true. -/
def forLoop (init : Option (Stmt ρ)) (cond increment : Option (Expr ρ)) (body : Stmt ρ) : Stmt ρ :=
  withInit (while_ (cond.getD (.literal (.bool true))) (withIncrement body increment)) init

/-- A function's name and parameters. -/
def functionSummary (decl : Function ρ) : String :=
  "\x7bfn|" ++ decl.name.lexeme ++ "(" ++
    ", ".intercalate (decl.params.map Token.lexeme) ++ ")\x7d"

/-- A short text for a statement: that of its expression, of its function's head, or what it
is. -/
def summary : Stmt ρ → String
  | block _ => "Block"
  | function decl => functionSummary decl
  | class_ _ _ _ => "Class"
  | expression value => value.toText
  | ifThen _ _ | ifElse _ _ _ => "If"
  | print _ value => value.toText
  | return_ _ _ => "Return"
  | var _ _ => "Var"
  | while_ _ _ => "While"

end Stmt

end Lox
