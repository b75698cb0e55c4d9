/-
**Evaluation.** Running resolved trees.

* `RunError` is what can go wrong in a program, `Failure` how a run can end early.
* `Lookup` is how names are found; `Lookup.direct` goes by what resolution has found out.
* `Expr.eval`, `Stmt.exec` and `callValue` run expressions, statements and calls in a frame.
* `runProgram` runs a program at top level.

Every nested evaluation has less room than the one around it, and a run fails when there is none
left. Loops take turns from a supply of their own, `fuel`; a run that fails for want of turns is
one that does not end.
-/

import Lox.Value

namespace Lox

/-! ### Errors -/

/-- What can go wrong in a program. -/
inductive RunError where
  | undefinedVariable (name : String)
  | undefinedProperty (name : String)
  | operandNotNumber
  | operandsNotNumbers
  | operandsNotAddable
  | propertyOfNonInstance
  | fieldOfNonInstance
  | superclassNotClass
  | notCallable
  | arityMismatch (expected got : Nat)
  | divisionByZero
deriving DecidableEq

/-- The wording of an error. -/
def RunError.message : RunError → String
  | undefinedVariable name => "Undefined variable '" ++ name ++ "'."
  | undefinedProperty name => "Undefined property '" ++ name ++ "'."
  | operandNotNumber => "Operand must be a number."
  | operandsNotNumbers => "Operands must be numbers."
  | operandsNotAddable => "Operands must be two numbers or two strings."
  | propertyOfNonInstance => "Only instances have properties."
  | fieldOfNonInstance => "Only instances have fields."
  | superclassNotClass => "Superclass must be a class."
  | notCallable => "Can only call functions and classes."
  | arityMismatch expected got =>
    "Expected " ++ toString expected ++ " arguments but got " ++ toString got ++ "."
  | divisionByZero => "Division by zero."

/-- The kinds of errors that a program can end with. -/
inductive RunError.Kind where
  | undefinedVariable | undefinedProperty | typeMismatch | notCallable | arityMismatch
  | divisionByZero
deriving DecidableEq

/-- The kind of an error. -/
def RunError.kind : RunError → RunError.Kind
  | undefinedVariable _ => .undefinedVariable
  | undefinedProperty _ => .undefinedProperty
  | operandNotNumber | operandsNotNumbers | operandsNotAddable | propertyOfNonInstance
  | fieldOfNonInstance | superclassNotClass => .typeMismatch
  | notCallable => .notCallable
  | arityMismatch _ _ => .arityMismatch
  | divisionByZero => .divisionByZero

/-- How a run can end early. -/
inductive Failure where
  /-- The program went wrong at a token. -/
  | error (error : RunError) (token : Token)
  /-- A resolved reference led nowhere. -/
  | access (fault : Access)
  /-- What `this` or `super` stands for is not an instance or a class. -/
  | misbound
  /-- Evaluation nested too deeply. -/
  | overflow
  /-- A loop took all the turns there are. -/
  | exhausted
deriving DecidableEq

/-- A computation that may change the machine and may fail. What it changed before it failed stays
changed. -/
abbrev Run := EStateM Failure Machine

/-- How a statement ends: with a value to return from the nearest function, or without. -/
abbrev Completion := Option Value

/-! ### Steps -/

namespace Run

/-- Fails with an error at a token. -/
def fail {α : Type} (token : Token) (error : RunError) : Run α :=
  throw (.error error token)

/-- The result of direct access to the store. -/
def ofAccess {α : Type} : Except Access α → Run α
  | .ok value => pure value
  | .error fault => throw (.access fault)

/-- Makes a frame inside another one. -/
def newFrame (enclosing : Nat) : Run Nat :=
  modifyGet fun machine =>
    (machine.store.size, { machine with store := machine.store.push (some enclosing) })

/-- Lets a name stand for a value in a frame. -/
def define (frame : Nat) (name : String) (value : Value) : Run Unit :=
  modify fun machine => { machine with store := machine.store.define frame name value }

/-- Lets names stand for values in a frame. -/
def defineAll (frame : Nat) : List Token → List Value → Run Unit
  | name :: names, value :: values => do
    define frame name.lexeme value
    defineAll frame names values
  | _, _ => pure ()

/-- What a name stands for in the frame a number of links out. -/
def getAt (frame hops : Nat) (name : String) : Run Value := do
  ofAccess ((← get).store.getAt frame hops name)

/-- What a global stands for. -/
def getGlobal (name : Token) : Run Value := do
  match (← get).store.get? Machine.globals name.lexeme with
  | some value => pure value
  | none => fail name (.undefinedVariable name.lexeme)

/-- The frame in which a reference is bound: that of the globals, or one a number of frames out. -/
def holderOf (frame : Nat) (reference : Reference Hops) : Run Nat := do
  let machine ← get
  match reference.target with
  | some hops => ofAccess (machine.store.frameAt frame hops)
  | none =>
    match machine.store.holder? reference.token.lexeme Machine.globals with
    | some holder => pure holder
    | none => fail reference.token (.undefinedVariable reference.token.lexeme)

/-- Changes what a reference stands for. -/
def assign (frame : Nat) (reference : Reference Hops) (value : Value) : Run Unit := do
  let holder ← holderOf frame reference
  define holder reference.token.lexeme value

end Run

/-- How the names of a program are found. -/
structure Lookup where
  /-- What a name stands for in the frame a number of links out. -/
  bound : (frame hops : Nat) → (name : String) → Run Value
  /-- What a variable stands for, seen from a frame. -/
  read : (frame : Nat) → Reference Hops → Run Value
  /-- Changes what a variable stands for, seen from a frame. -/
  write : (frame : Nat) → Reference Hops → Value → Run Unit

namespace Lookup

/-- What a reference stands for: a global, or something a number of frames out. -/
def follow (bound : (frame hops : Nat) → (name : String) → Run Value) (frame : Nat)
    (reference : Reference Hops) : Run Value :=
  match reference.target with
  | some hops => bound frame hops reference.token.lexeme
  | none => Run.getGlobal reference.token

/-- Names are found where resolution has placed them. -/
def direct : Lookup where
  bound := Run.getAt
  read := follow Run.getAt
  write := Run.assign

end Lookup

namespace Run

/-- Makes a function. -/
def newFunction (closure : Closure) : Run Value :=
  modifyGet fun machine =>
    (.function machine.functions.size,
      { machine with functions := machine.functions.push closure })

/-- Makes a class. -/
def newClass (name : String) (superclass : Option Nat) (methods : Bindings Closure) : Run Value :=
  modifyGet fun machine =>
    (.class_ machine.hierarchy.classes.size,
      { machine with hierarchy := machine.hierarchy.push name superclass methods })

/-- Makes an instance of a class. -/
def newInstance (class_ : Nat) : Run Nat :=
  modifyGet fun machine =>
    (machine.instances.size,
      { machine with instances := machine.instances.push ⟨class_, []⟩ })

/-- Prints a value. -/
def print (value : Value) : Run Unit :=
  modify fun machine => { machine with printed := machine.printed.push (machine.text value) }

/-- A method as a function of its own, in a frame where `this` is an instance. -/
def bind (method : Closure) (instance_ : Nat) : Run Closure := do
  let frame ← newFrame method.frame
  define frame thisName (.instance_ instance_)
  pure { method with frame }

/-- A property of an instance: a field, or else a method of its class. -/
def getProperty (id : Nat) (name : Token) : Run Value := do
  let machine ← get
  match machine.instances[id]? with
  | none => throw .misbound
  | some found =>
    match found.fields.get? name.lexeme with
    | some value => pure value
    | none =>
      match machine.hierarchy.method? name.lexeme found.class_ with
      | some method =>
        let bound ← bind method id
        newFunction bound
      | none => fail name (.undefinedProperty name.lexeme)

/-- Changes a field of an instance. -/
def setField (id : Nat) (name : String) (value : Value) : Run Unit :=
  modify fun machine =>
    { machine with
      instances := machine.instances.modify id fun old =>
        { old with fields := old.fields.set name value } }

/-- The method that `super` names, bound to the instance that `this` is. The frame with `this` lies
directly inside the one with `super`. -/
def superMethod (lookup : Lookup) (frame : Nat) (keyword : Reference Hops) (name : Token) :
    Run Value := do
  match keyword.target with
  | none => throw (.access (.unbound superName))
  | some hops =>
    let superclass ← lookup.bound frame hops superName
    let this ← lookup.bound frame (hops - 1) thisName
    match superclass, this with
    | .class_ superclass, .instance_ this =>
      match (← get).hierarchy.method? name.lexeme superclass with
      | some method =>
        let bound ← bind method this
        newFunction bound
      | none => fail name (.undefinedProperty name.lexeme)
    | _, _ => throw .misbound

/-- Applies a unary operator. -/
def applySign (sign : Sign) (token : Token) (value : Value) : Run Value :=
  match sign, value with
  | .not, value => pure (.bool !value.isTruthy)
  | .negative, .number x => pure (.number x.negate)
  | .negative, _ => fail token .operandNotNumber

/-- Applies an operator on numbers. -/
def applyNumeric (token : Token) (left right : Value) (op : Number → Number → Run Value) :
    Run Value :=
  match left, right with
  | .number x, .number y => op x y
  | _, _ => fail token .operandsNotNumbers

/-- Adds numbers. If one of the operands is a string, the other one may also be a number, and
their texts are joined. -/
def applyPlus (token : Token) : Value → Value → Run Value
  | .number x, .number y => pure (.number (x.add y))
  | .number x, .string t => pure (.string (x.toText ++ t))
  | .string s, .number y => pure (.string (s ++ y.toText))
  | .string s, .string t => pure (.string (s ++ t))
  | _, _ => fail token .operandsNotAddable

/-- Applies a binary operator. -/
def applyBinary (op : BinaryOp) (token : Token) (left right : Value) : Run Value :=
  match op with
  | .equal => pure (.bool (left.same right))
  | .notEqual => pure (.bool !left.same right)
  | .plus => applyPlus token left right
  | .minus => applyNumeric token left right fun x y => pure (.number (x.subtract y))
  | .times => applyNumeric token left right fun x y => pure (.number (x.multiply y))
  | .divide => applyNumeric token left right fun x y =>
      if y.isZero then fail token .divisionByZero else pure (.number (x.divide y))
  | .greater => applyNumeric token left right fun x y => pure (.bool (y.less x))
  | .greaterEqual => applyNumeric token left right fun x y => pure (.bool (y.atMost x))
  | .less => applyNumeric token left right fun x y => pure (.bool (x.less y))
  | .lessEqual => applyNumeric token left right fun x y => pure (.bool (x.atMost y))

/-- Whether an operator leaves its right operand alone, given its left one. -/
def shortCircuits (op : Connective) (left : Value) : Bool :=
  match op with
  | .or => left.isTruthy
  | .and => !left.isTruthy

/-- Checks that a value can be called with a number of arguments. -/
def checkCall (paren : Token) (callee : Value) (got : Nat) : Run Unit := do
  match (← get).arity? callee with
  | none => fail paren .notCallable
  | some expected =>
    if expected = got then pure () else fail paren (.arityMismatch expected got)

/-- The class that a superclass reference stands for. -/
def superclassOf (lookup : Lookup) (frame : Nat) (reference : Reference Hops) : Run Nat := do
  match ← lookup.read frame reference with
  | .class_ id => pure id
  | _ => fail reference.token .superclassNotClass

/-- The methods of a class, made in a frame. The last one of several with a name counts. -/
def methodsIn (frame : Nat) (methods : List (Function Hops)) : Bindings Closure :=
  methods.foldl
    (fun bindings method =>
      bindings.set method.name.lexeme ⟨method, frame, method.name.lexeme == initName⟩) []

/-- Declares a class in a frame. If it has a superclass, its methods are made in a frame of their
own in which `super` stands for that. -/
def declareClass (lookup : Lookup) (frame : Nat) (name : Token)
    (superclass : Option (Reference Hops)) (methods : List (Function Hops)) : Run Unit := do
  match superclass with
  | none =>
    define frame name.lexeme .nil
    let made ← newClass name.lexeme none (methodsIn frame methods)
    define frame name.lexeme made
  | some reference =>
    let parent ← superclassOf lookup frame reference
    define frame name.lexeme .nil
    let inner ← newFrame frame
    define inner superName (.class_ parent)
    let made ← newClass name.lexeme (some parent) (methodsIn inner methods)
    define frame name.lexeme made

/-- The value of a call from the completion of a body: an initializer always gives its instance. -/
def callResult (lookup : Lookup) (closure : Closure) (completion : Completion) : Run Value :=
  if closure.isInitializer then lookup.bound closure.frame 0 thisName
  else pure (completion.getD .nil)

/-- Reads the clock. -/
def readClock : Run Number :=
  modifyGet fun machine =>
    (machine.clock.reading machine.readings, { machine with readings := machine.readings + 1 })

/-- Calls a native function. -/
def callNative (id : Nat) (args : List Value) : Run Value := do
  let machine ← get
  match machine.natives[id]? with
  | none => throw .misbound
  | some native =>
    if native.timed then
      let time ← readClock
      pure (native.body machine.text (.number time :: args))
    else pure (native.body machine.text args)

/-- The function that a value refers to. -/
def closureOf (id : Nat) : Run Closure := do
  match (← get).functions[id]? with
  | some closure => pure closure
  | none => throw .misbound

/-- The initializer of a class, if it has or inherits one. -/
def initializerOf (id : Nat) : Run (Option Closure) := do
  return (← get).hierarchy.method? initName id

/-! ### Sequences and loops -/

section Sequences

variable {σ α : Type}

/-- Runs steps one after the other, until one of them returns. -/
def untilReturn (step : α → EStateM Failure σ Completion) :
    List α → EStateM Failure σ Completion
  | [] => pure none
  | first :: more => do
    match ← step first with
    | some value => pure (some value)
    | none => untilReturn step more

/-- Evaluates steps one after the other. -/
def collect (step : α → EStateM Failure σ Value) : List α → EStateM Failure σ (List Value)
  | [] => pure []
  | first :: more => do
    let value ← step first
    let values ← collect step more
    pure (value :: values)

/-- Repeats a body while a condition holds, until it returns. -/
def loop (cond : EStateM Failure σ Value) (body : EStateM Failure σ Completion) :
    (fuel : Nat) → EStateM Failure σ Completion
  | 0 => throw .exhausted
  | fuel + 1 => do
    let test ← cond
    if test.isTruthy then
      match ← body with
      | some value => pure (some value)
      | none => loop cond body fuel
    else pure none

end Sequences

/-- Calls a function, given how statements are executed: its body runs in a new frame with the
arguments. -/
def invoke (lookup : Lookup) (step : Nat → Stmt Hops → Run Completion) (closure : Closure)
    (args : List Value) : Run Value := do
  let inner ← newFrame closure.frame
  defineAll inner closure.decl.params args
  let completion ← untilReturn (step inner) closure.decl.body
  callResult lookup closure completion

end Run

/-! ### Running trees -/

open Run

section Trees

variable (lookup : Lookup) (fuel : Nat)

mutual

/-- Evaluates an expression in a frame. -/
def Expr.eval : (room : Nat) → (frame : Nat) → Expr Hops → Run Value
  | 0, _, _ => throw .overflow
  | room + 1, frame, expr =>
    match expr with
    | .assign target value => do
      let value ← Expr.eval room frame value
      lookup.write frame target value
      pure value
    | .binary left op token right => do
      let left ← Expr.eval room frame left
      let right ← Expr.eval room frame right
      applyBinary op token left right
    | .call callee paren args => do
      let callee ← Expr.eval room frame callee
      let args ← collect (fun arg => Expr.eval room frame arg) args
      checkCall paren callee args.length
      callValue room callee args
    | .get object name => do
      match ← Expr.eval room frame object with
      | .instance_ id => getProperty id name
      | _ => fail name .propertyOfNonInstance
    | .grouping inner => Expr.eval room frame inner
    | .literal value => pure (.ofLiteral value)
    | .logical left op _ right => do
      let left ← Expr.eval room frame left
      if shortCircuits op left then pure left else Expr.eval room frame right
    | .set object name value => do
      match ← Expr.eval room frame object with
      | .instance_ id =>
        let value ← Expr.eval room frame value
        setField id name.lexeme value
        pure value
      | _ => fail name .fieldOfNonInstance
    | .super keyword method => superMethod lookup frame keyword method
    | .this keyword => Lookup.follow lookup.bound frame keyword
    | .unary sign token right => do
      let right ← Expr.eval room frame right
      applySign sign token right
    | .var name => lookup.read frame name

/-- Executes a statement in a frame. -/
def Stmt.exec : (room : Nat) → (frame : Nat) → Stmt Hops → Run Completion
  | 0, _, _ => throw .overflow
  | room + 1, frame, stmt =>
    match stmt with
    | .block body => do
      let inner ← newFrame frame
      untilReturn (fun stmt => Stmt.exec room inner stmt) body
    | .function decl => do
      let made ← newFunction ⟨decl, frame, false⟩
      define frame decl.name.lexeme made
      pure none
    | .class_ name superclass methods => do
      declareClass lookup frame name superclass methods
      pure none
    | .expression value => do
      let _ ← Expr.eval room frame value
      pure none
    | .ifThen cond yes => do
      let test ← Expr.eval room frame cond
      if test.isTruthy then Stmt.exec room frame yes else pure none
    | .ifElse cond yes no => do
      let test ← Expr.eval room frame cond
      if test.isTruthy then Stmt.exec room frame yes else Stmt.exec room frame no
    | .print _ value => do
      let value ← Expr.eval room frame value
      print value
      pure none
    | .return_ _ none => pure (some .nil)
    | .return_ _ (some value) => do
      let value ← Expr.eval room frame value
      pure (some value)
    | .var name none => do
      define frame name.lexeme .nil
      pure none
    | .var name (some init) => do
      let value ← Expr.eval room frame init
      define frame name.lexeme value
      pure none
    | .while_ cond body =>
      loop (Expr.eval room frame cond) (Stmt.exec room frame body) fuel

/-- Calls a value that can be called. A class makes an instance and initializes it. -/
def callValue : (room : Nat) → Value → List Value → Run Value
  | 0, _, _ => throw .overflow
  | room + 1, callee, args =>
    match callee with
    | .native id => callNative id args
    | .function id => do
      let closure ← closureOf id
      invoke lookup (fun inner stmt => Stmt.exec room inner stmt) closure args
    | .class_ id => do
      let made ← newInstance id
      match ← initializerOf id with
      | some method =>
        let bound ← bind method made
        let _ ← invoke lookup (fun inner stmt => Stmt.exec room inner stmt) bound args
        pure (.instance_ made)
      | none => pure (.instance_ made)
    | _ => throw .misbound

end

end Trees

/-- The depth to which evaluation may nest. -/
def maxRoom : Nat := 25000

/-- The number of turns a loop may take: more than any run has time for. -/
def maxTurns : Nat := 1000000000000000000

/-- How much a text may ask for. -/
structure Limits where
  /-- How deeply a tree may nest that is resolved. -/
  nesting : Nat := maxNesting
  /-- How deeply evaluation may nest. -/
  room : Nat := maxRoom
  /-- How many turns a loop may take before it counts as one that does not end. -/
  turns : Nat := maxTurns

/-- Runs statements at top level. A return that reaches the top is dropped. -/
def runStatements (lookup : Lookup) (fuel room : Nat) : List (Stmt Hops) → Run Unit
  | [] => pure ()
  | stmt :: more => do
    let _ ← Stmt.exec lookup fuel room Machine.globals stmt
    runStatements lookup fuel room more

/-- Runs a program at top level: the machine afterwards, and how the run failed if it did. -/
def runProgram (tree : List (Stmt Hops)) (machine : Machine) (limits : Limits := {}) :
    Machine × Option Failure :=
  match runStatements .direct limits.turns limits.room tree machine with
  | .ok _ machine => (machine, none)
  | .error failure machine => (machine, some failure)

end Lox
