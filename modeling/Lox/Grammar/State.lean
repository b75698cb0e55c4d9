/-
**The automaton's states.** A state says which phrase has been read last and what may follow it.

* `State.action` is what the automaton does in a state when a token comes.
* `State.settled?` is the rule by which a state is reduced whatever comes next.
* `State.goto?` is the state after a phrase has been made.

Where a state awaits an operand or follows one, the operators' precedence decides, so that the
states come in families: one for every way in which an expression can end (`Ending`), and one for
every place at which a statement can stand (`Place`).
-/

import Lox.Grammar.Rule

namespace Lox

/-- What ends an expression: a semicolon, a closing parenthesis, or, for an argument of a call, a
comma or a closing parenthesis. -/
inductive Ending where
  | semicolon | paren | argument
deriving DecidableEq, Inhabited

/-- Whether a token ends an expression. -/
def Ending.allows : Ending → Terminal → Bool
  | semicolon, .semicolon => true
  | paren, .parenClose => true
  | argument, .parenClose => true
  | argument, .comma => true
  | _, _ => false

/-- What declarations stand in: the program itself or a block. -/
inductive Nest where
  | program | block
deriving DecidableEq, Inhabited

/-- The token that ends a list of declarations. -/
def Nest.closer : Nest → Terminal
  | program => .eof
  | block => .braceClose

/-- Where a statement stands: in the program or a block, and whether an `else` may follow it that
belongs to an `if` around it. -/
structure Place where
  nest : Nest
  beforeElse : Bool
deriving DecidableEq, Inhabited

/-- The place of the statement between a condition and an `else`. -/
def Place.branch (place : Place) : Place :=
  { place with beforeElse := true }

/-- The states of the automaton. -/
inductive State where
  /-- Nothing has been read. -/
  | start
  /-- A whole program has been read. -/
  | accept
  /-- Declarations have been read, and more may follow. -/
  | statements (nest : Nest)
  /-- The whole right side of a rule has been read, and no token can change that. -/
  | done (rule : Rule)
  /-- A stretch has been given up. -/
  | gap
  | classWord | className | superclassMark | superclass | classOpen | methods
  | funWord | functionName | paramsOpen | params | paramList | paramComma | paramsClose
  | varWord | varName | varEqual | varValue
  | printWord | printValue | returnWord | returnValue
  /-- An expression that makes a statement. -/
  | expression
  | blockOpen
  /-- A unary operator, and its operand. -/
  | sign (ending : Ending) (sign : Sign)
  | signed (ending : Ending) (sign : Sign)
  /-- A binary operator, and its right operand. -/
  | operator (ending : Ending) (op : Operator)
  | operand (ending : Ending) (op : Operator)
  | groupOpen | groupValue
  | superWord | superDot | dot
  | callOpen | argumentsOpt | arguments | firstArgument | argumentComma | nextArgument
  | ifWord (place : Place) | ifOpen (place : Place) | ifCond (place : Place)
  | ifClose (place : Place) | thenBranch (place : Place) | elseWord (place : Place)
  | whileWord (place : Place) | whileOpen (place : Place) | whileCond (place : Place)
  | whileClose (place : Place)
  | forWord (place : Place) | forOpen (place : Place) | forInit (place : Place)
  | forCond (place : Place) | forStep (place : Place)
  | forInitValue | forCondValue | forStepValue
deriving DecidableEq, Inhabited

/-- What the automaton does about a token. -/
inductive Action where
  /-- Read it, and go to a state. -/
  | shift (state : State)
  /-- Make a phrase of what was read last, and look at the token again. -/
  | reduce (rule : Rule)
deriving DecidableEq, Inhabited

namespace State

/-! ### Shifts that states have in common -/

/-- Where a token leads that begins an operand. -/
def operandShift (ending : Ending) : Terminal → Option State
  | .bang => some (sign ending .not)
  | .minus => some (sign ending .negative)
  | .parenOpen => some groupOpen
  | .name => some (done .variable_)
  | .number => some (done .number)
  | .string => some (done .string)
  | .true_ => some (done .true_)
  | .false_ => some (done .false_)
  | .nil_ => some (done .nil_)
  | .this_ => some (done .this)
  | .super_ => some superWord
  | _ => none

/-- Where a token leads that continues the operand just read. -/
def postfixShift : Terminal → Option State
  | .parenOpen => some callOpen
  | .dot => some dot
  | _ => none

/-- Where a token leads that continues the expression just read. -/
def expressionShift (ending : Ending) (kind : Terminal) : Option State :=
  match Operator.ofTerminal? kind with
  | some op => some (operator ending op)
  | none => postfixShift kind

/-- Where a token leads that begins a statement. -/
def statementShift (place : Place) : Terminal → Option State
  | .print_ => some printWord
  | .return_ => some returnWord
  | .braceOpen => some blockOpen
  | .if_ => some (ifWord place)
  | .while_ => some (whileWord place)
  | .for_ => some (forWord place)
  | kind => operandShift .semicolon kind

/-- Where a token leads that begins a declaration. -/
def declarationShift (nest : Nest) : Terminal → Option State
  | .class_ => some classWord
  | .fun_ => some funWord
  | .var_ => some varWord
  | .gap => some gap
  | kind => statementShift ⟨nest, false⟩ kind

/-- Whether a token begins a declaration or ends the list of them. -/
def continuesList (nest : Nest) (kind : Terminal) : Bool :=
  kind == nest.closer || (declarationShift nest kind).isSome

/-! ### Actions -/

/-- The shift to a state, if there is one. -/
def shifting (target : Option State) : Option Action :=
  target.map .shift

/-- The shift to a state on one kind of token alone. -/
def only (expected : Terminal) (target : State) (kind : Terminal) : Option Action :=
  if kind = expected then some (.shift target) else none

/-- The action after a whole expression that the given token ends. -/
def afterValue (ending : Ending) (closer : Terminal) (target : State) (kind : Terminal) :
    Option Action :=
  if kind = closer then some (.shift target) else shifting (expressionShift ending kind)

/-- The action after an argument, which a comma or a parenthesis turns into a longer list. -/
def afterArgument (rule : Rule) (kind : Terminal) : Option Action :=
  if Ending.argument.allows kind then some (.reduce rule)
  else shifting (expressionShift .argument kind)

/-- The action after the right operand of an operator: calls and properties bind tighter, and of
two operators the precedence picks one. -/
def afterOperand (ending : Ending) (op : Operator) (kind : Terminal) : Option Action :=
  match Operator.ofTerminal? kind with
  | some next =>
    if op.takes next then some (.shift (operator ending next)) else some (.reduce (.binary op))
  | none =>
    if ending.allows kind then some (.reduce (.binary op)) else shifting (postfixShift kind)

/-- The action after the operand of a unary operator, which binds tighter than every binary
one. -/
def afterSigned (ending : Ending) (s : Sign) (kind : Terminal) : Option Action :=
  if (Operator.ofTerminal? kind).isSome || ending.allows kind then some (.reduce (.unary s))
  else shifting (postfixShift kind)

/-- What the automaton does in a state about a token. -/
def action : State → Terminal → Option Action
  | start, kind => if continuesList .program kind then some (.reduce .noStatements) else none
  | accept, kind => only .eof accept kind
  | statements .program, kind =>
    if kind = .eof then some (.reduce .program) else shifting (declarationShift .program kind)
  | statements .block, kind =>
    if kind = .braceClose then some (.shift (done .block))
    else shifting (declarationShift .block kind)
  | done rule, _ => some (.reduce rule)
  | gap, kind => only .semicolon (done .skipped) kind
  | classWord, kind => only .name className kind
  | className, .less => some (.shift superclassMark)
  | className, .braceOpen => some (.reduce .noSuperclass)
  | className, _ => none
  | superclassMark, kind => only .name (done .superclass) kind
  | superclass, kind => only .braceOpen classOpen kind
  | classOpen, _ => some (.reduce .noMethods)
  | methods, .name => some (.shift functionName)
  | methods, .braceClose => some (.shift (done .classDecl))
  | methods, _ => none
  | funWord, kind => only .name functionName kind
  | functionName, kind => only .parenOpen paramsOpen kind
  | paramsOpen, .name => some (.shift (done .firstParam))
  | paramsOpen, .parenClose => some (.reduce .noParams)
  | paramsOpen, _ => none
  | params, kind => only .parenClose paramsClose kind
  | paramList, .comma => some (.shift paramComma)
  | paramList, .parenClose => some (.reduce .someParams)
  | paramList, _ => none
  | paramComma, kind => only .name (done .moreParams) kind
  | paramsClose, kind => only .braceOpen blockOpen kind
  | varWord, kind => only .name varName kind
  | varName, .semicolon => some (.shift (done .varPlain))
  | varName, .equal => some (.shift varEqual)
  | varName, _ => none
  | varEqual, kind => shifting (operandShift .semicolon kind)
  | varValue, kind => afterValue .semicolon .semicolon (done .varInit) kind
  | printWord, kind => shifting (operandShift .semicolon kind)
  | printValue, kind => afterValue .semicolon .semicolon (done .print) kind
  | returnWord, .semicolon => some (.shift (done .returnNothing))
  | returnWord, kind => shifting (operandShift .semicolon kind)
  | returnValue, kind => afterValue .semicolon .semicolon (done .returnValue) kind
  | expression, kind => afterValue .semicolon .semicolon (done .expression) kind
  | blockOpen, _ => some (.reduce .noStatements)
  | sign ending _, kind => shifting (operandShift ending kind)
  | signed ending s, kind => afterSigned ending s kind
  | operator ending _, kind => shifting (operandShift ending kind)
  | operand ending op, kind => afterOperand ending op kind
  | groupOpen, kind => shifting (operandShift .paren kind)
  | groupValue, kind => afterValue .paren .parenClose (done .grouping) kind
  | superWord, kind => only .dot superDot kind
  | superDot, kind => only .name (done .super) kind
  | dot, kind => only .name (done .get) kind
  | callOpen, .parenClose => some (.reduce .noArguments)
  | callOpen, kind => shifting (operandShift .argument kind)
  | argumentsOpt, kind => only .parenClose (done .call) kind
  | arguments, .comma => some (.shift argumentComma)
  | arguments, .parenClose => some (.reduce .someArguments)
  | arguments, _ => none
  | firstArgument, kind => afterArgument .firstArgument kind
  | argumentComma, kind => shifting (operandShift .argument kind)
  | nextArgument, kind => afterArgument .moreArguments kind
  | ifWord place, kind => only .parenOpen (ifOpen place) kind
  | ifOpen _, kind => shifting (operandShift .paren kind)
  | ifCond place, kind => afterValue .paren .parenClose (ifClose place) kind
  | ifClose place, kind => shifting (statementShift place.branch kind)
  | thenBranch place, kind =>
    if kind = .else_ then some (.shift (elseWord place))
    else if continuesList place.nest kind then some (.reduce .ifThen)
    else none
  | elseWord place, kind => shifting (statementShift place kind)
  | whileWord place, kind => only .parenOpen (whileOpen place) kind
  | whileOpen _, kind => shifting (operandShift .paren kind)
  | whileCond place, kind => afterValue .paren .parenClose (whileClose place) kind
  | whileClose place, kind => shifting (statementShift place kind)
  | forWord place, kind => only .parenOpen (forOpen place) kind
  | forOpen _, .semicolon => some (.shift (done .noInit))
  | forOpen _, .var_ => some (.shift varWord)
  | forOpen _, kind => shifting (operandShift .semicolon kind)
  | forInit _, .semicolon => some (.shift (done .noCond))
  | forInit _, kind => shifting (operandShift .semicolon kind)
  | forCond _, .parenClose => some (.shift (done .noStep))
  | forCond _, kind => shifting (operandShift .paren kind)
  | forStep place, kind => shifting (statementShift place kind)
  | forInitValue, kind => afterValue .semicolon .semicolon (done .initExpr) kind
  | forCondValue, kind => afterValue .semicolon .semicolon (done .someCond) kind
  | forStepValue, kind => afterValue .paren .parenClose (done .someStep) kind

/-- The rule by which a state is reduced before the next token is looked at. -/
def settled? : State → Option Rule
  | done rule => some rule
  | blockOpen => some .noStatements
  | classOpen => some .noMethods
  | _ => none

/-! ### After a phrase -/

/-- The state after a phrase at a place where a statement is awaited. -/
def statementGoto (target : State) : Nonterminal → Option State
  | .statement => some target
  | .block => some (done .ofBlock)
  | .expr => some expression
  | _ => none

/-- The state after a phrase where a declaration is awaited. -/
def declarationGoto : Nonterminal → Option State
  | .declaration => some (done .moreStatements)
  | .classDecl => some (done .ofClass)
  | .funDecl => some (done .ofFun)
  | .varDecl => some (done .ofVar)
  | phrase => statementGoto (done .ofStatement) phrase

/-- The state after an expression where nothing else is awaited. -/
def valueGoto (target : State) : Nonterminal → Option State
  | .expr => some target
  | _ => none

/-- The state after a phrase has been made on top of a state. -/
def goto? : State → Nonterminal → Option State
  | start, .statements => some (statements .program)
  | start, .program => some accept
  | statements _, phrase => declarationGoto phrase
  | className, .superclass => some superclass
  | classOpen, .methods => some methods
  | methods, .function => some (done .moreMethods)
  | funWord, .function => some (done .funDecl)
  | paramsOpen, .params => some params
  | paramsOpen, .paramList => some paramList
  | paramsClose, .block => some (done .function)
  | blockOpen, .statements => some (statements .block)
  | varEqual, phrase => valueGoto varValue phrase
  | printWord, phrase => valueGoto printValue phrase
  | returnWord, phrase => valueGoto returnValue phrase
  | sign ending s, phrase => valueGoto (signed ending s) phrase
  | operator ending op, phrase => valueGoto (operand ending op) phrase
  | groupOpen, phrase => valueGoto groupValue phrase
  | callOpen, .argumentsOpt => some argumentsOpt
  | callOpen, .arguments => some arguments
  | callOpen, phrase => valueGoto firstArgument phrase
  | argumentComma, phrase => valueGoto nextArgument phrase
  | ifOpen place, phrase => valueGoto (ifCond place) phrase
  | ifClose place, phrase => statementGoto (thenBranch place) phrase
  | elseWord _, phrase => statementGoto (done .ifElse) phrase
  | whileOpen place, phrase => valueGoto (whileCond place) phrase
  | whileClose _, phrase => statementGoto (done .whileLoop) phrase
  | forOpen place, .forInit => some (forInit place)
  | forOpen _, .varDecl => some (done .initVar)
  | forOpen _, phrase => valueGoto forInitValue phrase
  | forInit place, .forCond => some (forCond place)
  | forInit _, phrase => valueGoto forCondValue phrase
  | forCond place, .forStep => some (forStep place)
  | forCond _, phrase => valueGoto forStepValue phrase
  | forStep _, phrase => statementGoto (done .forLoop) phrase
  | _, _ => none

end State

end Lox
