/-
**Phrases.** The trees that the automaton makes of what it reads.

* `Symbol.Tree` is what a symbol stands for in a tree.
* `trees` makes phrases: a value for every rule of the grammar, and what is objected to.
-/

import Lox.Automaton
import Lox.Stmt

namespace Lox

/-- What a phrase stands for. -/
def Nonterminal.Tree : Nonterminal → Type
  | program | block => List (Stmt Unit)
  | statements => Array (Stmt Unit)
  | declaration | forInit => Option (Stmt Unit)
  | classDecl | funDecl | varDecl | statement => Stmt Unit
  | superclass => Option (Reference Unit)
  | methods => Array (Function Unit)
  | function => Function Unit
  | params => List Token
  | paramList => Array Token
  | forCond | forStep => Option (Expr Unit)
  | expr => Expr Unit
  | argumentsOpt => List (Expr Unit)
  | arguments => Array (Expr Unit)

/-- What a symbol stands for. A gap stands for the token at which the stretch was given up. -/
def Symbol.Tree : Symbol → Type
  | terminal _ => Token
  | nonterminal phrase => phrase.Tree

namespace Tree

/-- A name as it was read: nothing is known yet about where it leads. -/
def reference (token : Token) : Reference Unit :=
  ⟨token, ()⟩

/-- The expression that an operator makes. An assignment to something else than a variable or a
property is objected to, and its target stands in its place. -/
def binary (left : Expr Unit) (op : Operator) (token : Token) (right : Expr Unit) : Expr Unit :=
  match op with
  | .compute op => .binary left op token right
  | .connect op => .logical left op token right
  | .assign =>
    match left with
    | .var name => .assign name right
    | .get object name => .set object name right
    | other => other

/-- Whether an expression can be assigned to. -/
def isTarget : Expr Unit → Bool
  | .var _ => true
  | .get _ _ => true
  | _ => false

/-- What a rule makes of what its parts stand for. -/
def node : (rule : Rule) → Values Symbol.Tree rule.rhs → Symbol.Tree (.nonterminal rule.lhs)
  | .program, (statements, ()) => Array.toList statements
  | .noStatements, () => #[]
  | .moreStatements, (statements, some declaration, ()) => Array.push statements declaration
  | .moreStatements, (statements, none, ()) => statements
  | .ofClass, (decl, ()) => some decl
  | .ofFun, (decl, ()) => some decl
  | .ofVar, (decl, ()) => some decl
  | .ofStatement, (stmt, ()) => some stmt
  | .skipped, _ => none
  | .classDecl, (_, name, superclass, _, methods, _, ()) =>
    Stmt.class_ name superclass (Array.toList methods)
  | .noSuperclass, () => none
  | .superclass, (_, name, ()) => some (reference name)
  | .noMethods, () => #[]
  | .moreMethods, (methods, method, ()) => Array.push methods method
  | .funDecl, (_, decl, ()) => Stmt.function decl
  | .function, (name, _, params, _, body, ()) => Function.mk name params body
  | .noParams, () => []
  | .someParams, (params, ()) => Array.toList params
  | .firstParam, (name, ()) => #[name]
  | .moreParams, (params, _, name, ()) => Array.push params name
  | .varPlain, (_, name, _, ()) => Stmt.var name none
  | .varInit, (_, name, _, init, _, ()) => Stmt.var name (some init)
  | .expression, (value, _, ()) => Stmt.expression value
  | .print, (keyword, value, _, ()) => Stmt.print keyword value
  | .returnNothing, (keyword, _, ()) => Stmt.return_ keyword none
  | .returnValue, (keyword, value, _, ()) => Stmt.return_ keyword (some value)
  | .ofBlock, (body, ()) => Stmt.block body
  | .ifThen, (_, _, cond, _, yes, ()) => Stmt.ifThen cond yes
  | .ifElse, (_, _, cond, _, yes, _, no, ()) => Stmt.ifElse cond yes no
  | .whileLoop, (_, _, cond, _, body, ()) => Stmt.while_ cond body
  | .forLoop, (_, _, init, cond, increment, body, ()) => Stmt.forLoop init cond increment body
  | .block, (_, statements, _, ()) => Array.toList statements
  | .noInit, _ => none
  | .initVar, (decl, ()) => some decl
  | .initExpr, (value, _, ()) => some (Stmt.expression value)
  | .noCond, _ => none
  | .someCond, (value, _, ()) => some value
  | .noStep, _ => none
  | .someStep, (value, _, ()) => some value
  | .binary op, (left, token, right, ()) => binary left op token right
  | .unary sign, (token, right, ()) => Expr.unary sign token right
  | .call, (callee, _, args, paren, ()) => Expr.call callee paren args
  | .get, (object, _, name, ()) => Expr.get object name
  | .grouping, (_, inner, _, ()) => Expr.grouping inner
  | .variable_, (name, ()) => Expr.var (reference name)
  | .number, (token, ()) => Expr.literal (Token.literal token)
  | .string, (token, ()) => Expr.literal (Token.literal token)
  | .true_, _ => Expr.literal (.bool true)
  | .false_, _ => Expr.literal (.bool false)
  | .nil_, _ => Expr.literal .nil
  | .this, (keyword, ()) => Expr.this (reference keyword)
  | .super, (keyword, _, method, ()) => Expr.super (reference keyword) method
  | .noArguments, () => []
  | .someArguments, (args, ()) => Array.toList args
  | .firstArgument, (arg, ()) => #[arg]
  | .moreArguments, (args, _, arg, ()) => Array.push args arg

/-- What is objected to when a rule is applied: an assignment to what cannot be assigned to, at its
equals sign; an argument too many, at the comma in front of it; and every parameter too many. -/
def objections : (rule : Rule) → Values Symbol.Tree rule.rhs → List (Token × Objection)
  | .binary .assign, (left, token, _, ()) =>
    if isTarget left then [] else [(token, .invalidTarget)]
  | .moreArguments, (args, comma, _, ()) =>
    if maxArguments ≤ Array.size args then [(comma, .tooManyArguments)] else []
  | .function, (_, _, params, _, _, ()) =>
    (List.drop maxArguments params).map fun extra => (extra, .tooManyParameters)
  | _, _ => []

end Tree

/-- The semantics that makes trees. -/
def trees : Semantics Symbol.Tree where
  leaf _ token := token
  node := Tree.node
  objections := Tree.objections

end Lox
