/-
**Provenance.** Where the functions, methods and classes of a machine come from, and what a run may
do to the frames that are there.

* `Site.Firm` says in full where the references of a text that passes lead (`Passes.firm`): what is
  assigned to is complete, or it is the variable that is being initialized right there, and no scope
  between `super` and its class has a `this` of its own.
* `Machine.Retains`: what `this` and `super` stand for in a frame stays so, and so do classes.
  `Machine.Widens`: moreover frames keep their names and their links, and gain only names that they
  may.
* `ClassRun` is one execution of a class statement. `Machine.Provenance` is the invariant of runs:
  every class and every method was made by such an execution, and the code of every function belongs
  to the method for which the nearest frame with `this` was made (`Machine.Belongs`).
* `Machine.Provenance.grow` says once what a step has to show to keep it.
-/

import Mathlib.Data.List.Induction
import Lox.Proofs.Carried
import Lox.Proofs.Recording

namespace Lox

open Layer

/-! ### Where references lead -/

/-- Where a reference leads, in full. -/
structure Site.Firm (site : Site Hops) : Prop where
  leads : site.Leads
  /-- What is assigned to is complete, or is being initialized in the innermost scope. -/
  written : site.use = .assign → ∀ hops, site.reference.target = some hops →
    Sure site.reference.token.lexeme site.layers hops ∨
      hops = 0 ∧ ∃ layer ∈ site.layers.head?, layer.pending = some site.reference.token.lexeme
  /-- No scope further in than that of the class around `super` declares `this`. -/
  housed : site.use = .super → ∀ hops, site.reference.target = some (hops + 1) →
    ∀ layer ∈ site.layers.take hops, layer.scope.declares thisName = false

/-- A layer that is further in than the one that binds a name does not know the name. -/
theorem Layer.Binds.unknown {name : String} {layers : List Layer} {hops : Nat}
    (binds : Binds name layers hops) : ∀ layer ∈ layers.take hops, layer.knows name = false := by
  obtain ⟨_, _, before⟩ := List.findIdx?_eq_some_iff_getElem.mp binds.1
  intro layer member
  obtain ⟨index, inside, rfl⟩ := List.mem_take_iff_getElem.mp member
  exact Bool.eq_false_iff.mpr (before index (by omega))

/-- **Without complaints, references lead where they should.** -/
theorem Site.Permitted.firm {site : Site Unit} (permitted : site.Permitted)
    (suits : site.use.Suits site.reference.token.lexeme) : site.resolve.Firm := by
  have leads := permitted.leads suits
  obtain ⟨around, corresponds, permits⟩ := permitted
  refine ⟨leads, fun _ hops found => ?_, fun use hops found layer member => ?_⟩
  · obtain ⟨layer, at_, known⟩ := exists_of_findIdx? found
    rcases knows_iff.mp known with pending | sure
    · cases layers : site.layers with
      | nil =>
          rw [layers] at at_
          cases at_
      | cons first more =>
          rw [layers] at at_
          cases hops with
          | zero =>
              obtain rfl := Option.some.inj at_
              exact .inr ⟨rfl, first, by rw [Site.resolve, layers]; rfl, pending⟩
          | succ hops =>
              have idle := corresponds.outer layer (by
                rw [layers]
                exact List.mem_of_getElem? at_)
              rw [idle] at pending
              cases pending
    · exact .inl ⟨layer, at_, sure⟩
  · obtain ⟨use', ⟨token, target⟩, layers⟩ := site
    obtain rfl : use' = .super := use
    obtain ⟨hops', ⟨super, _⟩, this⟩ := corresponds.houses.super permits
    have same : token.lexeme = superName := suits
    obtain rfl : hops' = hops := by
      have both : some (hops' + 1) = some (hops + 1) := by
        rw [← super, ← found, Site.resolve, same]
      simpa using both
    refine Bool.eq_false_iff.mpr fun declares => ?_
    have known := corresponds.narrow layer (List.mem_of_mem_take member) thisName
      (fun proper => proper.1 rfl) declares
    rw [this.unknown layer member] at known
    cases known

/-- The references of a text that passes lead where they should. -/
theorem Passes.firm {text : String} {tree : List (Stmt Hops)} {room : Nat}
    (passes : Passes text tree room) : Ready Site.Firm [] tree := by
  refine .topLevel (fun site member => ?_) passes.accepted
  obtain ⟨source, _, rfl, permitted, suits⟩ := resolve_sites passes.yields site member
  exact permitted.firm suits

theorem Lookup.direct_follows_firm : Lookup.direct.Follows Site.Firm :=
  Lookup.direct_follows fun _ => Site.Firm.leads

/-! ### Code -/

section Lexical

variable {ρ : Type}

mutual

/-- The references that stand in a statement at any depth, but not inside another class. -/
def Stmt.lexical : Stmt ρ → List (Use × Reference ρ)
  | .block body => lexicalIn body
  | .function decl => decl.lexical
  | .class_ _ superclass _ => superclass.toList.map fun name => (Use.read, name)
  | .expression value => value.references
  | .ifThen cond yes => cond.references ++ yes.lexical
  | .ifElse cond yes no => cond.references ++ yes.lexical ++ no.lexical
  | .print _ value => value.references
  | .return_ _ value => optionalReferences value
  | .var _ init => optionalReferences init
  | .while_ cond body => cond.references ++ body.lexical

/-- The references that stand in statements at any depth, but not inside another class. -/
def lexicalIn : List (Stmt ρ) → List (Use × Reference ρ)
  | [] => []
  | stmt :: more => stmt.lexical ++ lexicalIn more

/-- The references that stand in a function at any depth, but not inside another class. -/
def Function.lexical : Function ρ → List (Use × Reference ρ)
  | .mk _ _ body => lexicalIn body

end

end Lexical

/-! ### Frames -/

/-- The search outward ends at a frame that binds the name. -/
theorem Store.binds_of_holder? {α : Type} {store : Store α} {name : String} {frame holder : Nat}
    (found : store.holder? name frame = some holder) : store.binds holder name = true := by
  fun_induction Store.holder? store name frame with
  | case1 frame binds =>
      obtain rfl := Option.some.inj found
      exact binds
  | case2 => cases found
  | case3 frame _ outer _ ih => exact ih found

/-- Classes stay as they were made. -/
def Hierarchy.Stays (before after : Hierarchy) : Prop :=
  ∀ (id : Nat) (class_ : Class), before.classes[id]? = some class_ →
    after.classes[id]? = some class_

theorem Hierarchy.Stays.push (hierarchy : Hierarchy) (name : String) (superclass : Option Nat)
    (methods : Bindings Closure) : hierarchy.Stays (hierarchy.push name superclass methods) := by
  intro id class_ here
  obtain ⟨inside, _⟩ := Array.getElem?_eq_some_iff.mp here
  rw [Hierarchy.push, Array.getElem?_push_lt inside, ← here, Array.getElem?_eq_getElem inside]

/-- What a name of the language stands for outside the globals stays so, and classes stay as they
were made. -/
structure Machine.Retains (before after : Machine) : Prop where
  fixed : ∀ frame name value, frame ≠ Machine.globals → ¬ ProperName name →
    (before.store.bindings frame).get? name = some value →
      (after.store.bindings frame).get? name = some value
  classes : before.hierarchy.Stays after.hierarchy

/-- Frames are made and names are bound, but what is there stays: frames keep their names and their
links. A frame that was there gains only names that it may. -/
structure Machine.Widens (may : Nat → String → Prop) (before after : Machine) : Prop
    extends before.Retains after where
  size : before.store.size ≤ after.store.size
  links : ∀ frame < before.store.size,
    after.store.enclosing? frame = before.store.enclosing? frame
  kept : ∀ frame name, before.store.binds frame name = true → after.store.binds frame name = true
  gained : ∀ frame < before.store.size, ∀ name, after.store.binds frame name = true →
    before.store.binds frame name = true ∨
      may frame name ∧ (frame = Machine.globals ∨ ProperName name)

/-- A machine in which a name stands for a value in a frame. -/
def Machine.bindIn (machine : Machine) (frame : Nat) (name : String) (value : Value) : Machine :=
  { machine with store := machine.store.define frame name value }

/-- A machine with one more frame. -/
def Machine.addFrame (machine : Machine) (outer : Nat) : Machine :=
  { machine with store := machine.store.push (some outer) }

/-- A machine with one more frame, in which one name stands for something. -/
def Machine.enter (machine : Machine) (outer : Nat) (name : String) (value : Value) : Machine :=
  (machine.addFrame outer).bindIn machine.store.size name value

/-- A machine with one more function. -/
def Machine.addFunction (machine : Machine) (closure : Closure) : Machine :=
  { machine with functions := machine.functions.push closure }

/-- A machine with one more class. -/
def Machine.addClass (machine : Machine) (name : String) (superclass : Option Nat)
    (methods : Bindings Closure) : Machine :=
  { machine with hierarchy := machine.hierarchy.push name superclass methods }

namespace Machine.Retains

variable {first second third : Machine}

theorem of_same (store : second.store = first.store)
    (hierarchy : second.hierarchy = first.hierarchy) : first.Retains second :=
  ⟨fun _ _ _ _ _ found => store ▸ found, fun _ _ here => hierarchy ▸ here⟩

theorem refl (machine : Machine) : machine.Retains machine :=
  of_same rfl rfl

theorem trans (early : first.Retains second) (late : second.Retains third) :
    first.Retains third where
  fixed frame name value inner reserved found :=
    late.fixed frame name value inner reserved
      (early.fixed frame name value inner reserved found)
  classes id class_ here := late.classes id class_ (early.classes id class_ here)

theorem addFrame (machine : Machine) (outer : Nat) : machine.Retains (machine.addFrame outer) where
  fixed frame _ _ _ _ found := by
    rw [Machine.addFrame, Store.bindings_push]
    exact found
  classes _ _ := id

/-- A name is bound that is not one of the language, or that stood for nothing in its frame. -/
theorem bindIn {machine : Machine} {frame : Nat} {name : String}
    (free : ¬ ProperName name → (machine.store.bindings frame).get? name = none) (value : Value) :
    machine.Retains (machine.bindIn frame name value) where
  fixed other found old _ reserved known := by
    have apart : ¬ (other = frame ∧ found = name) := by
      rintro ⟨rfl, rfl⟩
      rw [free reserved] at known
      cases known
    exact (Store.get?_define_of_ne apart value).trans known
  classes _ _ := id

/-- Native functions are globals. -/
theorem defineNative (machine : Machine) (native : Native) :
    machine.Retains (machine.defineNative native) where
  fixed _ _ _ inner _ found :=
    (Store.get?_define_of_ne (fun here => inner here.1) _).trans found
  classes _ _ := id

end Machine.Retains

/-- A new frame binds nothing. -/
theorem Machine.get?_addFrame (machine : Machine) (outer : Nat) (name : String) :
    ((machine.addFrame outer).store.bindings machine.store.size).get? name = none := by
  rw [addFrame, Store.bindings_push]
  cases found : (machine.store.bindings machine.store.size).get? name with
  | none => rfl
  | some value => exact absurd (Store.lt_size_of_get? found) (Nat.lt_irrefl _)

namespace Machine.Widens

variable {may may' : Nat → String → Prop} {first second third before after : Machine}

theorem of_store (same : after.store = before.store)
    (classes : before.hierarchy.Stays after.hierarchy) : before.Widens may after where
  fixed _ _ _ _ _ found := by rwa [same]
  classes := classes
  size := Nat.le_of_eq (congrArg Store.size same.symm)
  links _ _ := by rw [same]
  kept _ _ binds := by rwa [same]
  gained _ _ _ binds := .inl (same ▸ binds)

theorem refl (machine : Machine) : machine.Widens may machine :=
  of_store rfl fun _ _ => id

theorem addFunction (machine : Machine) (closure : Closure) :
    machine.Widens may (machine.addFunction closure) :=
  of_store rfl fun _ _ => id

theorem addClass (machine : Machine) (name : String) (superclass : Option Nat)
    (methods : Bindings Closure) :
    machine.Widens may (machine.addClass name superclass methods) :=
  of_store rfl (.push _ _ _ _)

theorem trans (early : first.Widens may second) (late : second.Widens may third) :
    first.Widens may third where
  toRetains := early.toRetains.trans late.toRetains
  size := Nat.le_trans early.size late.size
  links frame inside := by
    rw [late.links frame (Nat.lt_of_lt_of_le inside early.size), early.links frame inside]
  kept frame name binds := late.kept frame name (early.kept frame name binds)
  gained frame inside name binds := by
    rcases late.gained frame (Nat.lt_of_lt_of_le inside early.size) name binds with old | new
    · exact early.gained frame inside name old
    · exact .inr new

/-- Only what frames that were there may gain matters. -/
theorem mono (widens : before.Widens may after)
    (more : ∀ frame < before.store.size, ∀ name, may frame name → may' frame name) :
    before.Widens may' after where
  __ := widens
  gained frame inside name binds :=
    (widens.gained frame inside name binds).imp_right (.imp_left (more frame inside name))

theorem addFrame (machine : Machine) (outer : Nat) :
    machine.Widens may (machine.addFrame outer) where
  toRetains := .addFrame machine outer
  size := by simp [Machine.addFrame]
  links frame inside := Store.enclosing?_push_of_lt inside _
  kept frame name binds := by simpa [Machine.addFrame, Store.binds, Store.bindings_push] using binds
  gained frame _ name binds := by
    left
    simpa [Machine.addFrame, Store.binds, Store.bindings_push] using binds

/-- A frame gains a name that it may, or has already. -/
theorem bindIn {machine : Machine} {frame : Nat} {name : String}
    (inside : frame < machine.store.size) (proper : ProperName name)
    (allowed : machine.store.binds frame name = true ∨ may frame name) (value : Value) :
    machine.Widens may (machine.bindIn frame name value) where
  toRetains := .bindIn (fun reserved => absurd proper reserved) value
  size := by simp [Machine.bindIn]
  links := by simp [Machine.bindIn]
  kept other found binds := (Store.binds_define inside name value other found).mpr (.inr binds)
  gained other _ found binds := by
    rcases (Store.binds_define inside name value other found).mp binds with ⟨rfl, rfl⟩ | old
    · exact allowed.imp_right fun may => ⟨may, .inr proper⟩
    · exact .inl old

theorem enter (machine : Machine) (outer : Nat) (name : String) (value : Value) :
    machine.Widens may (machine.enter outer name value) := by
  have pushed : machine.Widens may _ := addFrame machine outer
  have inside : machine.store.size < (machine.addFrame outer).store.size := by
    simp [Machine.addFrame]
  have apart : ∀ {frame found}, frame < machine.store.size →
      ¬ (frame = machine.store.size ∧ found = name) := fun old here => by omega
  refine { toRetains := ?_, size := ?_, links := ?_, kept := ?_, gained := ?_ }
  · exact pushed.toRetains.trans (.bindIn (fun _ => machine.get?_addFrame outer name) value)
  · exact Nat.le_trans pushed.size (Nat.le_of_eq (Store.size_define _ _ _).symm)
  · intro frame old
    exact (Store.enclosing?_define _ _ _ _).trans (pushed.links frame old)
  · intro frame found binds
    exact (Store.binds_define inside name value frame found).mpr (.inr (pushed.kept _ _ binds))
  · intro frame old found binds
    rcases (Store.binds_define inside name value frame found).mp binds with here | binds
    · exact absurd here (apart old)
    · exact pushed.gained frame old found binds

/-- Native functions are globals. -/
theorem defineNative {machine : Machine} (inhabited : Machine.globals < machine.store.size)
    (native : Native) :
    machine.Widens (fun frame _ => frame = Machine.globals) (machine.defineNative native) where
  toRetains := .defineNative machine native
  size := Nat.le_of_eq (Store.size_define _ _ _).symm
  links _ _ := Store.enclosing?_define _ _ _ _
  kept frame name binds := (Store.binds_define inhabited _ _ frame name).mpr (.inr binds)
  gained frame _ name binds := by
    rcases (Store.binds_define inhabited _ _ frame name).mp binds with ⟨same, _⟩ | old
    · exact .inr ⟨same, .inl same⟩
    · exact .inl old

/-- Outside the globals, the search for `this` from a frame ends where it ended before. -/
theorem holder?_this (widens : before.Widens may after) {frame holder : Nat}
    (inside : frame < before.store.size)
    (found : after.store.holder? thisName frame = some holder)
    (inner : holder ≠ Machine.globals) :
    before.store.holder? thisName frame = some holder := by
  fun_induction Store.holder? after.store thisName frame with
  | case1 frame binds =>
      obtain rfl := Option.some.inj found
      rcases widens.gained frame inside thisName binds with old | ⟨_, globals | proper⟩
      · exact Store.holder?_of_binds old
      · exact absurd globals inner
      · exact absurd rfl proper.1
  | case2 => cases found
  | case3 frame missing outer link ih =>
      rw [widens.links frame inside] at link
      rw [Store.holder?_of_enclosing? (fun binds => missing (widens.kept _ _ binds)) link]
      exact ih (Nat.lt_trans (Store.enclosing?_lt link) inside) found

end Machine.Widens

theorem Machine.enclosing?_enter {machine : Machine} {outer : Nat}
    (inside : outer < machine.store.size) (name : String) (value : Value) :
    (machine.enter outer name value).store.enclosing? machine.store.size = some outer :=
  (Store.enclosing?_define _ _ _ _).trans (Store.enclosing?_push_size inside)

theorem Machine.get?_enter (machine : Machine) (outer : Nat) (name : String) (value : Value) :
    ((machine.enter outer name value).store.bindings machine.store.size).get? name =
      some value := by
  have inside : machine.store.size < (machine.addFrame outer).store.size := by simp [addFrame]
  exact (Store.get?_define inside _ _ _ _).trans (if_pos ⟨rfl, rfl⟩)

/-! ### What operations fix -/

/-- A binding that is to last: what a name stands for in a frame. -/
structure Fixture where
  frame : Nat
  name : String
  value : Value

/-- A machine has a binding. -/
def Fixture.Holds (fixture : Fixture) (machine : Machine) : Prop :=
  (machine.store.bindings fixture.frame).get? fixture.name = some fixture.value

/-- The binding that an operation fixes: a method that is bound to an instance fixes `this`, and the
frame for a superclass fixes `super`. -/
def Operation.fixture? : Operation → Option Fixture
  | bind _ id _ (.ok closure _) => some ⟨closure.frame, thisName, .instance_ id⟩
  | inherit _ superclass _ (.ok inner _) => some ⟨inner, superName, .class_ superclass⟩
  | _ => none

theorem Operation.reserved_of_fixture? {operation : Operation} {fixture : Fixture}
    (made : operation.fixture? = some fixture) : ¬ ProperName fixture.name := by
  unfold Operation.fixture? at made
  split at made
  · obtain rfl := Option.some.inj made
    exact fun proper => proper.1 rfl
  · obtain rfl := Option.some.inj made
    exact fun proper => proper.2 rfl
  · cases made

/-- An operation bound a method to an instance, and a function came of it. -/
def Operation.Binds (operation : Operation) (closure : Closure) (id : Nat) : Prop :=
  ∃ method before after, operation = .bind method id before (.ok closure after)

/-- If a function is an initializer, it was bound to an instance. -/
def Closure.Bound (closure : Closure) (log : List Operation) : Prop :=
  closure.isInitializer = true → ∃ old ∈ log, ∃ id, old.Binds closure id

theorem Closure.Bound.mono {closure : Closure} {log longer : List Operation}
    (bound : closure.Bound log) (more : log ⊆ longer) : closure.Bound longer := by
  intro initializer
  obtain ⟨old, member, binds⟩ := bound initializer
  exact ⟨old, more member, binds⟩

/-! ### Classes and their methods -/

/-- One execution of a class statement that succeeded, with the machine before and after it. -/
structure ClassRun where
  frame : Nat
  name : Token
  superclass : Option (Reference Hops)
  methods : List (Function Hops)
  before : Machine
  after : Machine

namespace ClassRun

/-- The execution of a class statement as an operation. -/
def operation (origin : ClassRun) : Operation :=
  .exec origin.frame (.class_ origin.name origin.superclass origin.methods) origin.before
    (.ok none origin.after)

/-- A method was made by an execution of a class statement: it is declared there, and it is a method
of the class that the name of the statement stands for afterwards. -/
structure Makes (origin : ClassRun) (method : Closure) : Prop where
  declared : method.decl ∈ origin.methods
  owned : ∃ id label, (origin.after.store.bindings origin.frame).get? origin.name.lexeme =
      some (.class_ id) ∧ origin.after.hierarchy.ownMethod? id label = some method

/-- The class that the superclass expression of a class statement stood for when it was executed. -/
def Inherits (origin : ClassRun) (parent : Nat) : Prop :=
  ∃ reference, origin.superclass = some reference ∧
    Run.superclassOf .direct origin.frame reference origin.before = .ok parent origin.before

/-- The method that a class statement declares by a name. It is the last one, should there be
several. -/
def declared? (origin : ClassRun) (label : String) : Option (Function Hops) :=
  origin.methods.reverse.find? (·.name.lexeme == label)

/-- The frame in which the methods of a class are made. -/
def holder (origin : ClassRun) : Nat :=
  match origin.superclass with
  | none => origin.frame
  | some _ => origin.before.store.size

/-- The method that an execution of a class statement makes by a name. -/
def method? (origin : ClassRun) (label : String) : Option Closure :=
  (origin.declared? label).map (⟨·, origin.holder, label == initName⟩)

/-- A method is made by a name just if one is declared by it. -/
theorem method?_eq_none {origin : ClassRun} {label : String} :
    origin.method? label = none ↔ ∀ decl ∈ origin.methods, decl.name.lexeme ≠ label := by
  simp [method?, declared?]

/-- **An execution of a class statement made a class.** It is the next one after those that were
there. It inherits from what the superclass expression stood for, or from nothing if there is none;
and its own methods are those that the statement declares. -/
structure Founds (origin : ClassRun) (id : Nat) (class_ : Class) : Prop where
  number : origin.before.hierarchy.classes.size = id
  name : class_.name = origin.name.lexeme
  root : class_.superclass = none ↔ origin.superclass = none
  link : ∀ parent, class_.superclass = some parent ↔ origin.Inherits parent
  methods : ∀ label, class_.methods.get? label = origin.method? label

end ClassRun

/-- **The last declaration counts.** The induction is from the back: what is declared last is set
last. -/
theorem get?_methodsIn (frame : Nat) (methods : List (Function Hops)) (label : String) :
    (Run.methodsIn frame methods).get? label =
      (methods.reverse.find? (·.name.lexeme == label)).map (⟨·, frame, label == initName⟩) := by
  induction methods using List.reverseRecOn with
  | nil => rfl
  | append_singleton methods last ih =>
      have set : Run.methodsIn frame (methods ++ [last]) = (Run.methodsIn frame methods).set
          last.name.lexeme ⟨last, frame, last.name.lexeme == initName⟩ := List.foldl_append
      rw [set, List.reverse_concat]
      by_cases same : label = last.name.lexeme
      · simp [same]
      · rw [Bindings.get?_set_of_ne same, ih, List.find?_cons_of_neg (by simpa using Ne.symm same)]

/-- A frame in which statements run binds no name of the language, unless it holds the globals. -/
structure Machine.Workable (machine : Machine) (frame : Nat) : Prop where
  inside : frame < machine.store.size
  proper : frame ≠ Machine.globals → ∀ name, machine.store.binds frame name = true →
    ProperName name

/-- Where the methods of a class are made: in the frame of the class statement, or in one of their
own, in which `super` stands for the superclass. -/
def ClassRun.Places (origin : ClassRun) (machine : Machine) (frame : Nat) : Prop :=
  (origin.superclass = none ∧ machine.Workable frame) ∨
    ∃ parent, origin.Inherits parent ∧ frame ≠ Machine.globals ∧
      (machine.store.bindings frame).get? superName = some (.class_ parent)

/-- A method comes from an execution of a class statement. -/
structure ClassRun.Provides (origin : ClassRun) (machine : Machine) (method : Closure) : Prop where
  makes : origin.Makes method
  places : origin.Places machine method.frame
  named : method.isInitializer = (method.decl.name.lexeme == initName)

/-- A method was bound to an instance: the frame with `this` lies directly in the one in which the
method was made. -/
structure Machine.Binding (machine : Machine) (log : List Operation) (method bound : Closure)
    (id : Nat) : Prop where
  same : bound = { method with frame := bound.frame }
  enclosing : machine.store.enclosing? bound.frame = some method.frame
  inner : bound.frame ≠ Machine.globals
  this : (machine.store.bindings bound.frame).get? thisName = some (.instance_ id)
  origin : ∃ origin : ClassRun, origin.operation ∈ log ∧ origin.Provides machine method

/-- Seen from a frame, references belong to the code of a method, if there is a `this`: the nearest
frame that has one was made when the method was bound. -/
structure Machine.Belongs (machine : Machine) (log : List Operation) (frame : Nat)
    (references : List (Use × Reference Hops)) : Prop where
  inside : frame < machine.store.size
  method : ∀ holder, machine.store.holder? thisName frame = some holder →
    holder ≠ Machine.globals → ∃ method id before bound after,
      Operation.bind method id before (.ok bound after) ∈ log ∧ bound.frame = holder ∧
        references ⊆ method.decl.lexical

/-- Where a class comes from: its methods from an execution of a class statement, and it is what
that made, unless native functions make up classes. -/
def ClassRun.Accounts (origin : ClassRun) (machine : Machine) (foreign : Prop) (id : Nat)
    (class_ : Class) : Prop :=
  (∀ label method, class_.methods.get? label = some method → origin.Provides machine method) ∧
    (foreign ∨ origin.Founds id class_)

/-- **Where everything comes from**: functions belong to the code of the method around them, and
initializers were bound; classes and their methods were made by a class statement. -/
structure Machine.Provenance (machine : Machine) (foreign : Prop) (log : List Operation) :
    Prop where
  functions : ∀ closure ∈ machine.functions,
    machine.Belongs log closure.frame closure.decl.lexical ∧ closure.Bound log
  classes : ∀ (id : Nat) class_, machine.hierarchy.classes[id]? = some class_ →
    ∃ origin : ClassRun, origin.operation ∈ log ∧ origin.Accounts machine foreign id class_
  bound : ∀ method id before bound after,
    Operation.bind method id before (.ok bound after) ∈ log → machine.Binding log method bound id

section Growth

variable {may : Nat → String → Prop} {machine later : Machine} {foreign : Prop}
  {log longer : List Operation} (widens : machine.Widens may later) (more : log ⊆ longer)

include widens

theorem Machine.Workable.widen {frame : Nat} (workable : machine.Workable frame) :
    later.Workable frame where
  inside := Nat.lt_of_lt_of_le workable.inside widens.size
  proper inner name binds := by
    rcases widens.gained frame workable.inside name binds with old | ⟨_, globals | proper⟩
    · exact workable.proper inner name old
    · exact absurd globals inner
    · exact proper

theorem ClassRun.Provides.widen {origin : ClassRun} {method : Closure}
    (provides : origin.Provides machine method) : origin.Provides later method := by
  refine ⟨provides.makes, ?_, provides.named⟩
  rcases provides.places with ⟨none, workable⟩ | ⟨parent, inherits, inner, super⟩
  · exact .inl ⟨none, workable.widen widens⟩
  · exact .inr ⟨parent, inherits, inner,
      widens.fixed _ _ _ inner (fun proper => proper.2 rfl) super⟩

include more

theorem Machine.Binding.widen {method bound : Closure} {id : Nat}
    (binding : machine.Binding log method bound id) : later.Binding longer method bound id where
  same := binding.same
  enclosing := by
    rw [widens.links _ (Store.lt_size_of_enclosing? binding.enclosing), binding.enclosing]
  inner := binding.inner
  this := widens.fixed _ _ _ binding.inner (fun proper => proper.1 rfl) binding.this
  origin :=
    let ⟨origin, member, provides⟩ := binding.origin
    ⟨origin, more member, provides.widen widens⟩

theorem Machine.Belongs.widen {frame : Nat} {references : List (Use × Reference Hops)}
    (belongs : machine.Belongs log frame references) : later.Belongs longer frame references where
  inside := Nat.lt_of_lt_of_le belongs.inside widens.size
  method holder found inner := by
    obtain ⟨method, id, before, bound, after, member, rest⟩ :=
      belongs.method holder (widens.holder?_this belongs.inside found inner) inner
    exact ⟨method, id, before, bound, after, more member, rest⟩

/-- **What was there keeps its provenance, if what is new has one.** -/
theorem Machine.Provenance.grow (provenance : machine.Provenance foreign log)
    (functions : ∀ closure ∈ later.functions, closure ∈ machine.functions ∨
      later.Belongs longer closure.frame closure.decl.lexical ∧ closure.Bound longer)
    (classes : ∀ (id : Nat) class_, later.hierarchy.classes[id]? = some class_ →
      machine.hierarchy.classes[id]? = some class_ ∨ ∃ origin : ClassRun,
        origin.operation ∈ longer ∧ origin.Accounts later foreign id class_)
    (bound : ∀ method id before bound after,
      Operation.bind method id before (.ok bound after) ∈ longer →
        Operation.bind method id before (.ok bound after) ∈ log ∨
          later.Binding longer method bound id) :
    later.Provenance foreign longer where
  functions closure member :=
    (functions closure member).elim
      (fun old => (provenance.functions closure old).imp (·.widen widens more) (·.mono more)) id
  classes id class_ here := by
    rcases classes id class_ here with old | new
    · obtain ⟨origin, member, provides, founds⟩ := provenance.classes id class_ old
      exact ⟨origin, more member,
        fun label method found => (provides label method found).widen widens, founds⟩
    · exact new
  bound method id before bound' after member :=
    (bound method id before bound' after member).elim
      (fun old => (provenance.bound method id before bound' after old).widen widens more) (·)

omit more in
/-- Nothing that is written binds a method. -/
theorem Machine.Provenance.extend {operations : List Operation}
    (provenance : machine.Provenance foreign log)
    (functions : ∀ closure ∈ later.functions, closure ∈ machine.functions ∨
      later.Belongs (log ++ operations) closure.frame closure.decl.lexical ∧
        closure.Bound (log ++ operations))
    (classes : ∀ (id : Nat) class_, later.hierarchy.classes[id]? = some class_ →
      machine.hierarchy.classes[id]? = some class_ ∨ ∃ origin : ClassRun,
        origin.operation ∈ log ++ operations ∧ origin.Accounts later foreign id class_)
    (unbound : ∀ method id before bound after,
      Operation.bind method id before (.ok bound after) ∉ operations) :
    later.Provenance foreign (log ++ operations) :=
  provenance.grow widens (List.subset_append_left _ _) functions classes
    fun method id before bound after member =>
      .inl ((List.mem_append.mp member).resolve_right (unbound method id before bound after))

end Growth

namespace Machine.Belongs

variable {machine : Machine} {log : List Operation} {frame : Nat}
  {references : List (Use × Reference Hops)}

theorem mono {fewer : List (Use × Reference Hops)} (belongs : machine.Belongs log frame references)
    (subset : fewer ⊆ references) : machine.Belongs log frame fewer where
  inside := belongs.inside
  method holder found inner := by
    obtain ⟨method, id, before, bound, after, member, same, inside⟩ :=
      belongs.method holder found inner
    exact ⟨method, id, before, bound, after, member, same, List.Subset.trans subset inside⟩

/-- Code in the globals belongs to no method. -/
theorem globals (root : machine.store.enclosing? Machine.globals = none)
    (inhabited : Machine.globals < machine.store.size) :
    machine.Belongs log Machine.globals references where
  inside := inhabited
  method _ found inner := absurd (Store.eq_of_holder?_root root found) inner

/-- A frame without `this` belongs to the same code as the one around it. -/
theorem inner {outer : Nat} (belongs : machine.Belongs log outer references)
    (missing : ¬ machine.store.binds frame thisName = true)
    (link : machine.store.enclosing? frame = some outer) :
    machine.Belongs log frame references where
  inside := Store.lt_size_of_enclosing? link
  method holder found := by
    rw [Store.holder?_of_enclosing? missing link] at found
    exact belongs.method holder found

/-- What was bound belongs to its own code. -/
theorem bound {method bound : Closure} {id : Nat} {before after : Machine}
    (binding : machine.Binding log method bound id)
    (member : Operation.bind method id before (.ok bound after) ∈ log) :
    machine.Belongs log bound.frame method.decl.lexical where
  inside := Store.lt_size_of_get? binding.this
  method holder found _ := by
    have binds : machine.store.binds bound.frame thisName = true :=
      Store.binds_iff.mpr ⟨_, binding.this⟩
    rw [Store.holder?_of_binds binds] at found
    obtain rfl := Option.some.inj found
    exact ⟨method, id, before, bound, after, member, rfl, List.Subset.refl _⟩

end Machine.Belongs

namespace Machine.Provenance

variable {machine : Machine} {foreign : Prop} {log : List Operation}
  (provenance : machine.Provenance foreign log)

include provenance

/-- The method that a class finds was made by a class statement. -/
theorem method? {name : String} {id : Nat} {method : Closure}
    (found : machine.hierarchy.method? name id = some method) :
    ∃ origin : ClassRun, origin.operation ∈ log ∧ origin.Provides machine method := by
  fun_induction Hierarchy.method? machine.hierarchy name id with
  | case1 id own here =>
      obtain rfl := Option.some.inj found
      unfold Hierarchy.ownMethod? at here
      split at here
      · rename_i class_ at_
        obtain ⟨origin, member, provides, _⟩ := provenance.classes id class_ at_
        exact ⟨origin, member, provides name _ here⟩
      · cases here
  | case2 => cases found
  | case3 id _ parent _ ih => exact ih found

/-- What was bound has its instance as `this`, and is an initializer just if it is named `init`. -/
theorem binds {old : Operation} (member : old ∈ log) {closure : Closure} {id : Nat}
    (binds : old.Binds closure id) :
    (machine.store.bindings closure.frame).get? thisName = some (.instance_ id) ∧
      (closure.isInitializer = true ↔ closure.decl.name.lexeme = initName) := by
  obtain ⟨method, before, after, rfl⟩ := binds
  have binding := provenance.bound method id before closure after member
  obtain ⟨origin, _, provides⟩ := binding.origin
  refine ⟨binding.this, ?_⟩
  rw [binding.same]
  exact provides.named ▸ beq_iff_eq

end Machine.Provenance

end Lox
