/-
**Resolution.** How many scopes lie between the use of a name and its declaration.

* `Violation` is what resolution complains about: constructs that can be read but mean nothing
  where they stand.
* `Resolver` is what resolving takes: objecting to a token and going on, and giving up.
* `resolveAll` annotates every reference with the number of scopes to leave on the way to its
  declaration, or with nothing if it is declared in no local scope and so taken for a global.
* `distances` lists the annotated references.
-/

import Lox.Bindings
import Lox.Stmt

namespace Lox

/-- What resolution complains about. -/
inductive Violation where
  | redeclared
  | ownInitializer
  | topLevelReturn
  | initializerReturn
  | selfInheritance
  | thisOutside
  | superOutside
  | superWithoutSuperclass
deriving DecidableEq

/-- The wording of a violation. -/
def Violation.message : Violation → String
  | redeclared => "Already a variable with this name in this scope."
  | ownInitializer => "Can't read local variable in its own initializer."
  | topLevelReturn => "Can't return from top-level code."
  | initializerReturn => "Can't return a value from an initializer."
  | selfInheritance => "A class can't inherit from itself."
  | thisOutside => "Can't use 'this' outside of a class."
  | superOutside => "Can't use 'super' outside of a class."
  | superWithoutSuperclass => "Can't use 'super' in a class with no superclass."

/-- The name of the method that initializes instances. -/
def initName : String := "init"

/-- The name under which a method finds its instance. -/
def thisName : String := "this"

/-- The name under which a method finds its class's superclass. -/
def superName : String := "super"

/-! ### Scopes -/

/-- The names declared in a scope so far, and whether their declarations are complete. -/
abbrev Scope := Bindings Bool

/-- The nearest function around a place. -/
inductive Enclosing.Routine where
  | none | function | initializer | method
deriving DecidableEq

/-- The nearest class around a place. -/
inductive Enclosing.Class where
  | none | plain | derived
deriving DecidableEq

/-- What stands around a place: the nearest function and class, and the local scopes, the innermost
one first. -/
structure Enclosing where
  routine : Enclosing.Routine
  class_ : Enclosing.Class
  scopes : List Scope

namespace Enclosing

/-- What stands around a whole program: nothing. -/
def topLevel : Enclosing := ⟨.none, .none, []⟩

/-- The number of scopes to leave on the way to the innermost one that declares a name. -/
def hops? (name : String) : List Scope → Option Nat
  | [] => none
  | scope :: more => if scope.has name then some 0 else (hops? name more).map (· + 1)

/-- The same place inside one more scope. -/
def enter (around : Enclosing) (scope : Scope) : Enclosing :=
  { around with scopes := scope :: around.scopes }

/-- The same place with a name marked in the innermost scope. Outside all scopes nothing is
marked. -/
def mark (name : String) (complete : Bool) (around : Enclosing) : Enclosing :=
  match around.scopes with
  | [] => around
  | scope :: more => { around with scopes := scope.set name complete :: more }

/-- Whether the innermost scope declares a name already. -/
def declares (name : String) (around : Enclosing) : Bool :=
  match around.scopes with
  | [] => false
  | scope :: _ => scope.has name

/-- Whether the innermost scope declares a name and its declaration is not complete. -/
def initializing (name : String) (around : Enclosing) : Bool :=
  match around.scopes with
  | [] => false
  | scope :: _ => scope.get? name == some false

end Enclosing

/-! ### Objecting and giving up -/

/-- What it takes to resolve a tree: violations are objected to where they are met, which need not
be the end of it, and a tree that is nested too deeply is given up. -/
class Resolver (m : Type → Type) extends Monad m where
  object : Token → Violation → m Unit
  tooDeep {α : Type} : m α

namespace Resolver

variable {m : Type → Type} [Resolver m] {α : Type}

/-- Objects if a condition holds. -/
def objectIf (condition : Bool) (token : Token) (violation : Violation) : m Unit :=
  if condition then object token violation else pure ()

/-- Goes down into a tree by a number of calls, if there is room for them, and on with the room
that is left. -/
def descend (calls room : Nat) (next : Nat → m α) : m α :=
  if calls ≤ room then next (room - calls) else tooDeep

end Resolver

/-! ### Resolving -/

/-- How many scopes out a resolved reference leads. A reference without a number is global. -/
abbrev Hops := Option Nat

open Enclosing Resolver

variable {m : Type → Type} [Resolver m]

/-- Where a reference leads from its place. -/
def Reference.resolve (around : Enclosing) (reference : Reference Unit) : Reference Hops :=
  ⟨reference.token, hops? reference.token.lexeme around.scopes⟩

/-- A variable at its place. It must not be read while the innermost scope is still initializing
it. -/
def Reference.read (around : Enclosing) (reference : Reference Unit) :
    m (Reference Hops) := do
  objectIf (around.initializing reference.token.lexeme) reference.token .ownInitializer
  return reference.resolve around

/-- A name declared at a place, which it must not be twice. -/
def declare (around : Enclosing) (name : Token) : m Enclosing := do
  objectIf (around.declares name.lexeme) name .redeclared
  return around.mark name.lexeme false

/-- A name declared and defined at once. -/
def introduce (around : Enclosing) (name : Token) : m Enclosing := do
  let declared ← declare around name
  return declared.mark name.lexeme true

/-- Names declared and defined one after the other. -/
def introduceAll (around : Enclosing) : List Token → m Enclosing
  | [] => return around
  | name :: more => do
    let next ← introduce around name
    introduceAll next more

mutual

/-- Resolves an expression at a place. The room is the number of calls that may still be made one
inside the other; an expression takes two of them. -/
def Expr.resolve (around : Enclosing) (room : Nat) : Expr Unit → m (Expr Hops)
  | .assign target value => descend 2 room fun room => do
    let value ← value.resolve around room
    return .assign (target.resolve around) value
  | .binary left op token right => descend 2 room fun room => do
    let left ← left.resolve around room
    let right ← right.resolve around room
    return .binary left op token right
  | .call callee paren args => descend 2 room fun room => do
    let callee ← callee.resolve around room
    let args ← descend 1 room fun room => resolveArguments around room args
    return .call callee paren args
  | .get object name => descend 2 room fun room => do
    let object ← object.resolve around room
    return .get object name
  | .grouping inner => descend 2 room fun room => do
    let inner ← inner.resolve around room
    return .grouping inner
  | .literal value => descend 2 room fun _ => return .literal value
  | .logical left op token right => descend 2 room fun room => do
    let left ← left.resolve around room
    let right ← right.resolve around room
    return .logical left op token right
  | .set object name value => descend 2 room fun room => do
    let value ← value.resolve around room
    let object ← object.resolve around room
    return .set object name value
  | .super keyword method => descend 2 room fun _ => do
    objectIf (around.class_ == .none) keyword.token .superOutside
    objectIf (around.class_ == .plain) keyword.token .superWithoutSuperclass
    return .super (keyword.resolve around) method
  | .this keyword => descend 2 room fun _ => do
    objectIf (around.class_ == .none) keyword.token .thisOutside
    return .this (keyword.resolve around)
  | .unary sign token right => descend 2 room fun room => do
    let right ← right.resolve around room
    return .unary sign token right
  | .var name => descend 2 room fun _ => do
    let name ← name.read around
    return .var name

/-- Resolves the arguments of a call. -/
def resolveArguments (around : Enclosing) (room : Nat) :
    List (Expr Unit) → m (List (Expr Hops))
  | [] => return []
  | arg :: more => do
    let arg ← arg.resolve around room
    let more ← resolveArguments around room more
    return arg :: more

end

/-- Resolves an expression if there is one. -/
def resolveOptional (around : Enclosing) (room : Nat) :
    Option (Expr Unit) → m (Option (Expr Hops))
  | none => return none
  | some value => do
    let value ← value.resolve around room
    return some value

/-- Resolves the superclass of a class, if it has one. -/
def resolveSuperclass (around : Enclosing) (name : Token) :
    Option (Reference Unit) → m (Option (Reference Hops))
  | none => return none
  | some superclass => do
    objectIf (superclass.token.lexeme == name.lexeme) superclass.token .selfInheritance
    let superclass ← superclass.read around
    return some superclass

/-- What stands around the methods of a class: the scope with `this`, and around it, if the class
has a superclass, the one with `super`. -/
def Enclosing.forMethods (around : Enclosing) (derived : Bool) : Enclosing :=
  if derived then
    { around with
      class_ := .derived
      scopes := [(thisName, true)] :: [(superName, true)] :: around.scopes }
  else { around with class_ := .plain, scopes := [(thisName, true)] :: around.scopes }

/-- What a method is, by its name. -/
def methodRoutine (name : Token) : Enclosing.Routine :=
  if name.lexeme = initName then .initializer else .method

mutual

/-- Resolves a statement at a place, and gives what stands around the next statement there. A
statement takes two calls, and a block one more for what is in it. -/
def Stmt.resolve (around : Enclosing) (room : Nat) : Stmt Unit → m (Stmt Hops × Enclosing)
  | .block body => descend 3 room fun room => do
    let body ← resolveAll (around.enter []) room body
    return (.block body, around)
  | .function decl => descend 2 room fun room => do
    let around ← introduce around decl.name
    let decl ← decl.resolve { around with routine := .function } room
    return (.function decl, around)
  | .class_ name superclass methods => descend 2 room fun room => do
    let around ← introduce around name
    let superclass ← resolveSuperclass around name superclass
    let methods ← resolveMethods (around.forMethods superclass.isSome) room methods
    return (.class_ name superclass methods, around)
  | .expression value => descend 2 room fun room => do
    let value ← value.resolve around room
    return (.expression value, around)
  | .ifThen cond yes => descend 2 room fun room => do
    let cond ← cond.resolve around room
    let (yes, around) ← yes.resolve around room
    return (.ifThen cond yes, around)
  | .ifElse cond yes no => descend 2 room fun room => do
    let cond ← cond.resolve around room
    let (yes, around) ← yes.resolve around room
    let (no, around) ← no.resolve around room
    return (.ifElse cond yes no, around)
  | .print keyword value => descend 2 room fun room => do
    let value ← value.resolve around room
    return (.print keyword value, around)
  | .return_ keyword value => descend 2 room fun room => do
    objectIf (around.routine == .none) keyword .topLevelReturn
    objectIf (value.isSome && around.routine == .initializer) keyword .initializerReturn
    let value ← resolveOptional around room value
    return (.return_ keyword value, around)
  | .var name init => descend 2 room fun room => do
    let declared ← declare around name
    let init ← resolveOptional declared room init
    return (.var name init, declared.mark name.lexeme true)
  | .while_ cond body => descend 2 room fun room => do
    let cond ← cond.resolve around room
    let (body, around) ← body.resolve around room
    return (.while_ cond body, around)

/-- Resolves statements one after the other. -/
def resolveAll (around : Enclosing) (room : Nat) : List (Stmt Unit) → m (List (Stmt Hops))
  | [] => return []
  | stmt :: more => do
    let (stmt, around) ← stmt.resolve around room
    let more ← resolveAll around room more
    return stmt :: more

/-- Resolves a function. Its parameters and its body share a scope. -/
def Function.resolve (around : Enclosing) (room : Nat) : Function Unit → m (Function Hops)
  | .mk name params body => descend 2 room fun room => do
    let inside ← introduceAll (around.enter []) params
    let body ← resolveAll inside room body
    return .mk name params body

/-- Resolves the methods of a class. -/
def resolveMethods (around : Enclosing) (room : Nat) :
    List (Function Unit) → m (List (Function Hops))
  | [] => return []
  | method :: more => do
    let method ← method.resolve { around with routine := methodRoutine method.name } room
    let more ← resolveMethods around room more
    return method :: more

end

/-- The number of calls that may be made one inside the other to resolve a program: of 50,000 there
are eight under way when it begins. -/
def maxNesting : Nat := 49992

/-! ### The references of a tree -/

/-- What a reference is a reference for. -/
inductive Use where
  | read | assign | this | super
deriving DecidableEq

/-- The name of a kind of reference. -/
def Use.label : Use → String
  | read => "Variable"
  | assign => "Assign"
  | this => "This"
  | super => "Super"

variable {ρ : Type}

mutual

/-- The references in an expression. -/
def Expr.references : Expr ρ → List (Use × Reference ρ)
  | .assign target value => (.assign, target) :: value.references
  | .binary left _ _ right => left.references ++ right.references
  | .call callee _ args => callee.references ++ argumentReferences args
  | .get object _ => object.references
  | .grouping inner => inner.references
  | .literal _ => []
  | .logical left _ _ right => left.references ++ right.references
  | .set object _ value => object.references ++ value.references
  | .super keyword _ => [(.super, keyword)]
  | .this keyword => [(.this, keyword)]
  | .unary _ _ right => right.references
  | .var name => [(.read, name)]

/-- The references in the arguments of a call. -/
def argumentReferences : List (Expr ρ) → List (Use × Reference ρ)
  | [] => []
  | arg :: more => arg.references ++ argumentReferences more

end

/-- The references in an expression if there is one. -/
def optionalReferences : Option (Expr ρ) → List (Use × Reference ρ)
  | none => []
  | some value => value.references

mutual

/-- The references in a statement. -/
def Stmt.references : Stmt ρ → List (Use × Reference ρ)
  | .block body => treeReferences body
  | .function decl => decl.references
  | .class_ _ superclass methods =>
    (superclass.toList.map fun name => (Use.read, name)) ++ methodReferences methods
  | .expression value => value.references
  | .ifThen cond yes => cond.references ++ yes.references
  | .ifElse cond yes no => cond.references ++ yes.references ++ no.references
  | .print _ value => value.references
  | .return_ _ value => optionalReferences value
  | .var _ init => optionalReferences init
  | .while_ cond body => cond.references ++ body.references

/-- The references in statements. -/
def treeReferences : List (Stmt ρ) → List (Use × Reference ρ)
  | [] => []
  | stmt :: more => stmt.references ++ treeReferences more

/-- The references in a function. -/
def Function.references : Function ρ → List (Use × Reference ρ)
  | .mk _ _ body => treeReferences body

/-- The references in the methods of a class. -/
def methodReferences : List (Function ρ) → List (Use × Reference ρ)
  | [] => []
  | method :: more => method.references ++ methodReferences more

end

/-- A reference to a local declaration: what it is for, its token, and the number of scopes to
leave. -/
structure Distance where
  use : Use
  token : Token
  hops : Nat
deriving DecidableEq

/-- The references of a resolved tree that lead to local declarations. -/
def distances (tree : List (Stmt Hops)) : List Distance :=
  (treeReferences tree).filterMap fun (use, reference) =>
    reference.target.map fun hops => ⟨use, reference.token, hops⟩

end Lox
