/-
**Values.** What expressions evaluate to, and what the state of a run holds.

* `Value` is a plain value, or a reference to something with an identity: a function, a class or an
  instance.
* `Value.same` is the equality of the language, `Value.isTruthy` its notion of truth.
* `Hierarchy` holds the classes. A class inherits only from classes made before it, which is part
  of the type, so that every search for a method ends.
* `Machine` is the state of a run, and `Machine.text` is how it prints a value.
-/

import Lox.Number.Layout
import Lox.Resolve
import Lox.Store

namespace Lox

/-- What expressions evaluate to. -/
inductive Value where
  | nil
  | bool (value : Bool)
  | number (value : Number)
  | string (value : String)
  | native (id : Nat)
  | function (id : Nat)
  | class_ (id : Nat)
  | instance_ (id : Nat)
deriving DecidableEq, Inhabited

namespace Value

/-- The value of a literal. -/
def ofLiteral : Literal → Value
  | .nil => nil
  | .bool value => bool value
  | .number value => number value
  | .string value => string value

/-- False and nil count as false, and everything else as true. -/
def isTruthy : Value → Bool
  | nil => false
  | bool value => value
  | _ => true

/-- Whether two values are equal: numbers as numbers, and everything else if it is the same. -/
def same : Value → Value → Bool
  | number x, number y => x.same y
  | x, y => x = y

end Value

/-- A function with the frame in which it was made. -/
structure Closure where
  decl : Function Hops
  frame : Nat
  isInitializer : Bool

/-- A class. -/
structure Class where
  name : String
  superclass : Option Nat
  methods : Bindings Closure

/-- An instance of a class. -/
structure Instance where
  class_ : Nat
  fields : Bindings Value

/-- A function that is not written in the language. It may ask how values are printed. -/
structure Native where
  name : String
  arity : Nat
  body : (Value → String) → List Value → Value
  /-- Whether it is given the time as well, in front of its arguments. -/
  timed : Bool := false

/-- A clock, by what it shows when it is read for the first time, the second time, and so on. -/
structure Clock where
  reading : Nat → Number

/-- A clock that stands still. -/
instance : Coe Number Clock := ⟨fun time => ⟨fun _ => time⟩⟩

/-- A clock that always shows zero. -/
def Clock.zero : Clock := Number.zero

/-! ### Classes -/

/-- The classes, numbered in the order in which they were made. -/
structure Hierarchy where
  classes : Array Class
  older : ∀ (index : Nat) (inside : index < classes.size) (parent : Nat),
    classes[index].superclass = some parent → parent < index

namespace Hierarchy

/-- No classes. -/
def empty : Hierarchy where
  classes := #[]
  older := by simp

instance : Inhabited Hierarchy := ⟨empty⟩

/-- The class that comes next, inheriting from an existing one or from none. -/
def next (hierarchy : Hierarchy) (name : String) (superclass : Option Nat)
    (methods : Bindings Closure) : Class :=
  ⟨name, superclass.filter (· < hierarchy.classes.size), methods⟩

/-- The class that comes next inherits from an older one. -/
theorem next_older (hierarchy : Hierarchy) (name : String) (superclass : Option Nat)
    (methods : Bindings Closure) (index : Nat)
    (inside : index < (hierarchy.classes.push (hierarchy.next name superclass methods)).size)
    (parent : Nat)
    (link : (hierarchy.classes.push (hierarchy.next name superclass methods))[index].superclass =
      some parent) : parent < index := by
  rw [Array.getElem_push] at link
  split at link
  · rename_i old
    exact hierarchy.older index old parent link
  · simp only [next, Option.filter_eq_some_iff, decide_eq_true_eq] at link
    simp only [Array.size_push] at inside
    omega

/-- Makes a class that inherits from an existing one or from none. -/
def push (hierarchy : Hierarchy) (name : String) (superclass : Option Nat)
    (methods : Bindings Closure) : Hierarchy where
  classes := hierarchy.classes.push (hierarchy.next name superclass methods)
  older := hierarchy.next_older name superclass methods

/-- The name of a class. -/
def name (hierarchy : Hierarchy) (id : Nat) : String :=
  match hierarchy.classes[id]? with
  | some found => found.name
  | none => ""

/-- The class that a class inherits from. -/
def superclass? (hierarchy : Hierarchy) (id : Nat) : Option Nat :=
  match hierarchy.classes[id]? with
  | some found => found.superclass
  | none => none

/-- The method that a class itself declares. -/
def ownMethod? (hierarchy : Hierarchy) (id : Nat) (name : String) : Option Closure :=
  match hierarchy.classes[id]? with
  | some found => found.methods.get? name
  | none => none

/-- A class inherits from an older one. -/
theorem superclass?_lt {hierarchy : Hierarchy} {id parent : Nat}
    (link : hierarchy.superclass? id = some parent) : parent < id := by
  unfold superclass? at link
  split at link
  · rename_i found here
    obtain ⟨inside, rfl⟩ := Array.getElem?_eq_some_iff.mp here
    exact hierarchy.older id inside parent link
  · simp at link

/-- The method of a class: its own, or that of the nearest class it inherits from. -/
def method? (hierarchy : Hierarchy) (name : String) (id : Nat) : Option Closure :=
  match hierarchy.ownMethod? id name with
  | some method => some method
  | none =>
    match _link : hierarchy.superclass? id with
    | none => none
    | some parent => method? hierarchy name parent
termination_by id
decreasing_by exact superclass?_lt _link

end Hierarchy

/-! ### The state of a run -/

/-- The state of a run. Frame zero holds the globals. -/
structure Machine where
  store : Store Value
  natives : Array Native
  functions : Array Closure
  hierarchy : Hierarchy
  instances : Array Instance
  printed : Array String
  clock : Clock
  /-- How often the clock has been read. -/
  readings : Nat

namespace Machine

/-- The frame of the globals. -/
def globals : Nat := 0

/-- A machine without globals. -/
def fresh : Machine where
  store := Store.empty.push none
  natives := #[]
  functions := #[]
  hierarchy := .empty
  instances := #[]
  printed := #[]
  clock := .zero
  readings := 0

instance : Inhabited Machine := ⟨fresh⟩

/-- Makes a native function a global. -/
def defineNative (machine : Machine) (native : Native) : Machine :=
  { machine with
    natives := machine.natives.push native
    store := machine.store.define globals native.name (.native machine.natives.size) }

/-- The text of a value. -/
def text (machine : Machine) : Value → String
  | .nil => "nil"
  | .bool true => "true"
  | .bool false => "false"
  | .number value => value.toText
  | .string value => value
  | .native id =>
    match machine.natives[id]? with
    | some found => "<native fn " ++ found.name ++ ">"
    | none => "<native fn>"
  | .function id =>
    match machine.functions[id]? with
    | some closure => "<fn " ++ closure.decl.name.lexeme ++ ">"
    | none => "<fn>"
  | .class_ id => machine.hierarchy.name id
  | .instance_ id =>
    match machine.instances[id]? with
    | some found => "instance of " ++ machine.hierarchy.name found.class_
    | none => "instance"

/-- The number of arguments that a class takes: those of its initializer, if it has one. -/
def classArity (machine : Machine) (id : Nat) : Nat :=
  match machine.hierarchy.method? initName id with
  | some method => method.decl.params.length
  | none => 0

/-- The number of arguments that a value takes, if it can be called. -/
def arity? (machine : Machine) : Value → Option Nat
  | .native id => machine.natives[id]?.map Native.arity
  | .function id => machine.functions[id]?.map fun closure => closure.decl.params.length
  | .class_ id => some (machine.classArity id)
  | _ => none

end Machine

end Lox
