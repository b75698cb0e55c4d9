/-
**The grammar.** Its nonterminals, its symbols and its rules.

* `Rule.lhs` and `Rule.rhs` are the two sides of a rule.
* The rule `skipped` lets a stretch that was given up, with the semicolon that ends it, pass for a
  declaration. It is the only rule with a `gap`.
-/

import Lox.Grammar.Operator

namespace Lox

/-- The kinds of phrases. -/
inductive Nonterminal where
  | program | statements | declaration
  | classDecl | superclass | methods
  | funDecl | function | params | paramList
  | varDecl
  | statement | block | forInit | forCond | forStep
  | expr | argumentsOpt | arguments
deriving DecidableEq, Inhabited

/-- What the right side of a rule is made of. -/
inductive Symbol where
  | terminal (kind : Terminal)
  | nonterminal (phrase : Nonterminal)
deriving DecidableEq, Inhabited

/-- The rules of the grammar. -/
inductive Rule where
  | program
  | noStatements | moreStatements
  | ofClass | ofFun | ofVar | ofStatement | skipped
  | classDecl | noSuperclass | superclass | noMethods | moreMethods
  | funDecl | function | noParams | someParams | firstParam | moreParams
  | varPlain | varInit
  | expression | print | returnNothing | returnValue | ofBlock
  | ifThen | ifElse | whileLoop | forLoop
  | block
  | noInit | initVar | initExpr | noCond | someCond | noStep | someStep
  | binary (op : Operator) | unary (sign : Sign)
  | call | get | grouping | variable_
  | number | string | true_ | false_ | nil_ | this | super
  | noArguments | someArguments | firstArgument | moreArguments
deriving DecidableEq, Inhabited

namespace Rule

/-- The phrase that a rule makes. -/
def lhs : Rule → Nonterminal
  | program => .program
  | noStatements | moreStatements => .statements
  | ofClass | ofFun | ofVar | ofStatement | skipped => .declaration
  | classDecl => .classDecl
  | noSuperclass | superclass => .superclass
  | noMethods | moreMethods => .methods
  | funDecl => .funDecl
  | function => .function
  | noParams | someParams => .params
  | firstParam | moreParams => .paramList
  | varPlain | varInit => .varDecl
  | expression | print | returnNothing | returnValue | ofBlock
  | ifThen | ifElse | whileLoop | forLoop => .statement
  | block => .block
  | noInit | initVar | initExpr => .forInit
  | noCond | someCond => .forCond
  | noStep | someStep => .forStep
  | binary _ | unary _ | call | get | grouping | variable_
  | number | string | true_ | false_ | nil_ | this | super => .expr
  | noArguments | someArguments => .argumentsOpt
  | firstArgument | moreArguments => .arguments

/-- A token as a symbol. -/
abbrev t (kind : Terminal) : Symbol := .terminal kind

/-- A phrase as a symbol. -/
abbrev n (phrase : Nonterminal) : Symbol := .nonterminal phrase

/-- What a rule makes its phrase of. -/
def rhs : Rule → List Symbol
  | program => [n .statements]
  | noStatements => []
  | moreStatements => [n .statements, n .declaration]
  | ofClass => [n .classDecl]
  | ofFun => [n .funDecl]
  | ofVar => [n .varDecl]
  | ofStatement => [n .statement]
  | skipped => [t .gap, t .semicolon]
  | classDecl => [t .class_, t .name, n .superclass, t .braceOpen, n .methods, t .braceClose]
  | noSuperclass => []
  | superclass => [t .less, t .name]
  | noMethods => []
  | moreMethods => [n .methods, n .function]
  | funDecl => [t .fun_, n .function]
  | function => [t .name, t .parenOpen, n .params, t .parenClose, n .block]
  | noParams => []
  | someParams => [n .paramList]
  | firstParam => [t .name]
  | moreParams => [n .paramList, t .comma, t .name]
  | varPlain => [t .var_, t .name, t .semicolon]
  | varInit => [t .var_, t .name, t .equal, n .expr, t .semicolon]
  | expression => [n .expr, t .semicolon]
  | print => [t .print_, n .expr, t .semicolon]
  | returnNothing => [t .return_, t .semicolon]
  | returnValue => [t .return_, n .expr, t .semicolon]
  | ofBlock => [n .block]
  | ifThen => [t .if_, t .parenOpen, n .expr, t .parenClose, n .statement]
  | ifElse =>
    [t .if_, t .parenOpen, n .expr, t .parenClose, n .statement, t .else_, n .statement]
  | whileLoop => [t .while_, t .parenOpen, n .expr, t .parenClose, n .statement]
  | forLoop => [t .for_, t .parenOpen, n .forInit, n .forCond, n .forStep, n .statement]
  | block => [t .braceOpen, n .statements, t .braceClose]
  | noInit => [t .semicolon]
  | initVar => [n .varDecl]
  | initExpr => [n .expr, t .semicolon]
  | noCond => [t .semicolon]
  | someCond => [n .expr, t .semicolon]
  | noStep => [t .parenClose]
  | someStep => [n .expr, t .parenClose]
  | binary op => [n .expr, t op.terminal, n .expr]
  | unary sign => [t sign.terminal, n .expr]
  | call => [n .expr, t .parenOpen, n .argumentsOpt, t .parenClose]
  | get => [n .expr, t .dot, t .name]
  | grouping => [t .parenOpen, n .expr, t .parenClose]
  | variable_ => [t .name]
  | number => [t .number]
  | string => [t .string]
  | true_ => [t .true_]
  | false_ => [t .false_]
  | nil_ => [t .nil_]
  | this => [t .this_]
  | super => [t .super_, t .dot, t .name]
  | noArguments => []
  | someArguments => [n .arguments]
  | firstArgument => [n .expr]
  | moreArguments => [n .arguments, t .comma, n .expr]

end Rule

end Lox
