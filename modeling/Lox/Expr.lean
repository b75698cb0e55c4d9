/-
**Expressions.** The trees that expressions are read into.

A tree is parameterised by what is known about the names used in it: nothing in a tree as it was
read (`Unit`), and after resolution how many scopes out each name is declared (`Option Nat`).

* `Expr.toText` writes a tree out with every operation in parentheses.
-/

import Lox.Grammar.Operator
import Lox.Number.Layout
import Lox.Text.Quoted

namespace Lox

/-- A use of a name, or of `this` or `super`, and what is known about where it leads. -/
structure Reference (ρ : Type) where
  token : Token
  target : ρ
deriving DecidableEq

/-- The expressions. A token beside an operator or a name says where it stands. -/
inductive Expr (ρ : Type) where
  | assign (target : Reference ρ) (value : Expr ρ)
  | binary (left : Expr ρ) (op : BinaryOp) (token : Token) (right : Expr ρ)
  | call (callee : Expr ρ) (paren : Token) (args : List (Expr ρ))
  | get (object : Expr ρ) (name : Token)
  | grouping (inner : Expr ρ)
  | literal (value : Literal)
  | logical (left : Expr ρ) (op : Connective) (token : Token) (right : Expr ρ)
  | set (object : Expr ρ) (name : Token) (value : Expr ρ)
  | super (keyword : Reference ρ) (method : Token)
  | this (keyword : Reference ρ)
  | unary (sign : Sign) (token : Token) (right : Expr ρ)
  | var (name : Reference ρ)

instance {ρ : Type} : Inhabited (Expr ρ) := ⟨.literal .nil⟩

/-- A literal as it stands in the text of an expression. -/
def Literal.toText : Literal → String
  | .nil => "None"
  | .bool true => "True"
  | .bool false => "False"
  | .number value => value.toLiteral
  | .string value => Text.quoted value

variable {ρ : Type}

mutual

/-- The text of an expression, with every operation in parentheses. -/
def Expr.toText : Expr ρ → String
  | .assign target value => "(" ++ target.token.lexeme ++ " = " ++ value.toText ++ ")"
  | .binary left _ token right =>
    "(" ++ left.toText ++ " " ++ token.lexeme ++ " " ++ right.toText ++ ")"
  | .call callee _ args => callee.toText ++ "(" ++ argumentsText args ++ ")"
  | .get object name => object.toText ++ "." ++ name.lexeme
  | .grouping inner => "(" ++ inner.toText ++ ")"
  | .literal value => "<Literal " ++ value.toText ++ ">"
  | .logical left _ token right =>
    "(" ++ left.toText ++ " " ++ token.lexeme ++ " " ++ right.toText ++ ")"
  | .set object name value =>
    "(" ++ object.toText ++ "." ++ name.lexeme ++ " = " ++ value.toText ++ ")"
  | .super _ method => "super." ++ method.lexeme
  | .this _ => "this"
  | .unary _ token right => "(" ++ token.lexeme ++ right.toText ++ ")"
  | .var name => name.token.lexeme

/-- The texts of the arguments of a call, with commas between them. -/
def argumentsText : List (Expr ρ) → String
  | [] => ""
  | [arg] => arg.toText
  | arg :: more => arg.toText ++ ", " ++ argumentsText more

end

end Lox
