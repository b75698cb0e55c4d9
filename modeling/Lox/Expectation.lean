/-
**What was expected.** The wording of a syntax error comes from the shape of what was read.

* `Expectation` is what should have come instead of a token.
* `Expectation.ofStack` finds it: the last symbol that says which construct is under way decides.
* `Complaint` says what is objected to in a text, and where.
-/

import Lox.Grammar.Rule
import Lox.Scan

namespace Lox

/-- The two things that have a name, parameters and a body. -/
inductive Routine where
  | function | method
deriving DecidableEq

/-- The word for a routine. -/
def Routine.label : Routine → String
  | function => "function"
  | method => "method"

/-- The statements whose keyword is followed by a parenthesis. -/
inductive Headed where
  | if_ | while_ | for_
deriving DecidableEq

/-- The keyword of a statement. -/
def Headed.label : Headed → String
  | if_ => "if"
  | while_ => "while"
  | for_ => "for"

/-- What should have come instead of a token. -/
inductive Expectation where
  | expression
  | classEnd | blockEnd
  | className | superclassName | classBody
  | routineName (routine : Routine) | routineParen (routine : Routine)
  | routineBody (routine : Routine)
  | paramName | paramsEnd
  | headParen (headed : Headed)
  | ifEnd | whileEnd | forEnd | loopCondEnd
  | argumentsEnd | groupEnd | expressionEnd
  | varName | varEnd | printEnd | returnEnd
  | superDot | superMethod | property
deriving DecidableEq

namespace Expectation

/-- The wording of an expectation. -/
def message : Expectation → String
  | expression => "Expect expression."
  | classEnd => "Expect '\x7d' after class body."
  | blockEnd => "Expect '\x7d' after block."
  | className => "Expect class name."
  | superclassName => "Expect superclass name."
  | classBody => "Expect '\x7b' before class body."
  | routineName routine => "Expect " ++ routine.label ++ " name."
  | routineParen routine => "Expect '(' after " ++ routine.label ++ " name."
  | routineBody routine => "Expect '\x7b' before " ++ routine.label ++ " body."
  | paramName => "Expect parameter name."
  | paramsEnd => "Expect ')' after parameters."
  | headParen headed => "Expect '(' after '" ++ headed.label ++ "'."
  | ifEnd => "Expect ')' after if condition."
  | whileEnd => "Expect ')' after condition."
  | forEnd => "Expect ')' after for clauses."
  | loopCondEnd => "Expect ';' after loop condition."
  | argumentsEnd => "Expect ')' after arguments."
  | groupEnd => "Expect ')' after expression."
  | expressionEnd => "Expect ';' after expression."
  | varName => "Expect variable name."
  | varEnd => "Expect ';' after variable declaration."
  | printEnd => "Expect ';' after value."
  | returnEnd => "Expect ';' after return value."
  | superDot => "Expect '.' after 'super'."
  | superMethod => "Expect superclass method name."
  | property => "Expect property name after '.'."

/-! ### Finding it -/

/-- The tokens that can begin an expression and cannot continue one. -/
def starters : List Terminal :=
  [.number, .string, .true_, .false_, .nil_, .this_, .super_, .bang]

/-- What is expected in a routine, from the symbols behind its introduction. -/
def inRoutine (routine : Routine) : List Symbol → Expectation
  | [] => routineName routine
  | [_] => routineParen routine
  | _ => routineBody routine

/-- What is expected behind an opening parenthesis, from the symbol in front of it and those
behind it. -/
def inParens (under : Option Symbol) (above : List Symbol) : Expectation :=
  match under with
  | some (.terminal .name) =>
    if above.isEmpty || above.getLast? == some (.terminal .comma) then paramName else paramsEnd
  | some (.terminal .if_) => ifEnd
  | some (.terminal .while_) => whileEnd
  | some (.terminal .for_) => expressionEnd
  | some (.nonterminal .expr) => argumentsEnd
  | _ => groupEnd

/-- What is expected in the construct that a symbol belongs to, from the symbol in front of it and
those behind it. Some symbols say nothing. -/
def hint (symbol : Symbol) (under : Option Symbol) (above : List Symbol) : Option Expectation :=
  match symbol with
  | .terminal .class_ =>
    if above.isEmpty then some className
    else if above == [.terminal .name, .terminal .less] then some superclassName
    else some classBody
  | .terminal .fun_ => some (inRoutine .function above)
  | .nonterminal .methods => some (inRoutine .method above)
  | .terminal .braceOpen =>
    if under == some (.nonterminal .superclass) then some (routineName .method)
    else some expression
  | .terminal .parenOpen => some (inParens under above)
  | .terminal .if_ => some (headParen .if_)
  | .terminal .while_ => some (headParen .while_)
  | .terminal .for_ => some (headParen .for_)
  | .terminal .var_ => if above.isEmpty then some varName else some varEnd
  | .terminal .print_ => some printEnd
  | .terminal .return_ => some returnEnd
  | .terminal .dot =>
    if !above.isEmpty then none
    else if under == some (.terminal .super_) then some superMethod
    else some property
  | .terminal .super_ => if above.isEmpty then some superDot else none
  | .nonterminal .statements => if above.isEmpty then some expression else some expressionEnd
  | .nonterminal .forInit => some loopCondEnd
  | .nonterminal .forCond => some forEnd
  | _ => none

/-- What is expected after the given symbols, the last one first: what the last symbol says that
says anything. Parentheses that are closed again are passed over: `closed` counts those whose
opening one is still to come. The symbols already passed are in `above`. -/
def ofSymbols (closed : Nat) (above : List Symbol) : List Symbol → Expectation
  | [] => expression
  | symbol :: below =>
    if symbol = .terminal .parenClose then ofSymbols (closed + 1) (symbol :: above) below
    else if symbol = .terminal .parenOpen ∧ 0 < closed then
      ofSymbols (closed - 1) (symbol :: above) below
    else
      match hint symbol below.head? above with
      | some expectation => expectation
      | none => ofSymbols closed (symbol :: above) below

/-- Whether the symbols read last, the last one first, open the body of a class. -/
def inClassBody : List Symbol → Bool
  | .nonterminal .methods :: _ => true
  | .terminal .braceOpen :: .nonterminal .superclass :: _ => true
  | _ => false

/-- What was expected at a token that cannot be read, from whether it is the end of the text, the
tokens that could have been read, and the symbols read so far, the last one first. -/
def ofStack (ended : Bool) (accepts : Terminal → Bool) (symbols : List Symbol) : Expectation :=
  if ended && accepts .braceClose then
    if inClassBody symbols then classEnd else blockEnd
  else if starters.any accepts then expression
  else ofSymbols 0 [] symbols

end Expectation

/-! ### Complaints -/

/-- The greatest number of arguments of a call, and of parameters of a function. -/
def maxArguments : Nat := 255

/-- What is objected to at a token. -/
inductive Objection where
  | expected (expectation : Expectation)
  | invalidTarget
  | tooManyArguments
  | tooManyParameters
deriving DecidableEq

/-- The wording of an objection. -/
def Objection.message : Objection → String
  | expected expectation => expectation.message
  | invalidTarget => "Invalid assignment target."
  | tooManyArguments => "Can't have more than " ++ toString maxArguments ++ " arguments."
  | tooManyParameters => "Can't have more than " ++ toString maxArguments ++ " parameters."

/-- Something wrong with a text: with its characters, or with its tokens. -/
inductive Complaint where
  | lexical (fault : Fault)
  | syntactic (token : Token) (objection : Objection)
deriving DecidableEq

end Lox
