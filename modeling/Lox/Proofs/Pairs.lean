/-
**Pairs of machines** that differ in their frames only.

* A `Pair` is two machines, and for every frame of the first one its partner in the second one. The
  second machine may have more frames. `Pair.Sees` says that two frames have the same frames around
  them, up to a shift of the number of links.
* `Pair.Alike` is the invariant of runs: partners bind the same, functions and methods are the same
  up to a shift of their frames, and all else is equal.
* `Pair.Grows`: what was alike stays so while frames are added and names are bound.
-/

import Lox.Proofs.Shifts
import Lox.Proofs.Steps
import Mathlib.Data.List.Forall2

namespace Lox

open Run

/-! ### Links -/

namespace Store

variable {α : Type} {store later : Store α}

theorem frameAt_le {frame hops found : Nat} (walked : store.frameAt frame hops = .ok found) :
    found ≤ frame := by
  induction hops generalizing frame with
  | zero => exact Nat.le_of_eq (Except.ok.inj walked).symm
  | succ hops ih =>
      cases link : store.enclosing? frame with
      | none =>
          simp only [frameAt, ancestor, walk, link] at walked
          cases hops <;> cases walked
      | some outer =>
          rw [frameAt_succ link] at walked
          exact Nat.le_trans (ih walked) (Nat.le_of_lt (enclosing?_lt link))

/-- Frames that are there keep what lies around them. -/
theorem frameAt_of_links
    (links : ∀ frame < store.size, later.enclosing? frame = store.enclosing? frame)
    {frame : Nat} (inside : frame < store.size) (hops : Nat) :
    later.frameAt frame hops = store.frameAt frame hops := by
  induction hops generalizing frame with
  | zero => rfl
  | succ hops ih =>
      cases link : store.enclosing? frame with
      | none =>
          have link' := (links frame inside).trans link
          simp only [frameAt, ancestor, walk, link, link']
          cases hops <;> rfl
      | some outer =>
          rw [frameAt_succ link, frameAt_succ ((links frame inside).trans link)]
          exact ih (Nat.lt_trans (enclosing?_lt link) inside)

/-- Nothing encloses the globals. -/
theorem enclosing?_globals (store : Store α) : store.enclosing? Machine.globals = none := by
  cases link : store.enclosing? Machine.globals with
  | none => rfl
  | some outer => exact absurd (enclosing?_lt link) (Nat.not_lt_zero outer)

theorem holder?_of_root {frame : Nat} {name : String} (root : store.enclosing? frame = none)
    (missing : ¬ store.binds frame name = true) : store.holder? name frame = none := by
  rw [holder?, if_neg missing]
  split
  · rfl
  · simp_all

theorem bindings_of_le {frame : Nat} (outside : store.size ≤ frame) :
    store.bindings frame = [] := by
  rw [bindings, Array.getElem?_eq_none outside]

theorem bindings_define {frame : Nat} (inside : frame < store.size) (name : String) (value : α)
    (other : Nat) : (store.define frame name value).bindings other =
      if other = frame then (store.bindings frame).set name value else store.bindings other := by
  unfold bindings define modify
  rw [Array.getElem?_modify]
  by_cases same : frame = other
  · subst same
    rw [if_pos rfl, if_pos rfl, Array.getElem?_eq_getElem inside]
    rfl
  · rw [if_neg same, if_neg (Ne.symm same)]

end Store

theorem forall₂_getElem? {α β : Type} {R : α → β → Prop} {first : List α} {second : List β}
    (all : List.Forall₂ R first second) (index : Nat) :
    Option.Rel R first[index]? second[index]? := by
  induction all generalizing index with
  | nil => exact .none
  | cons here _ ih =>
      cases index with
      | zero => exact .some here
      | succ index => exact ih index

theorem rel_cases {α β : Type} {R : α → β → Prop} {first : Option α} {second : Option β}
    (rel : Option.Rel R first second) : first = none ∧ second = none ∨
      ∃ value other, first = some value ∧ second = some other ∧ R value other := by
  cases rel with
  | none => exact .inl ⟨rfl, rfl⟩
  | some here => exact .inr ⟨_, _, rfl, rfl, here⟩

namespace Hierarchy

variable {hierarchy : Hierarchy} {name : String} {id : Nat}

theorem method?_of_own {method : Closure} (own : hierarchy.ownMethod? id name = some method) :
    hierarchy.method? name id = some method := by
  rw [method?, own]

theorem method?_of_root (missing : hierarchy.ownMethod? id name = none)
    (root : hierarchy.superclass? id = none) : hierarchy.method? name id = none := by
  rw [method?]
  simp only [missing]
  split
  · rfl
  · simp_all

theorem method?_of_parent {parent : Nat} (missing : hierarchy.ownMethod? id name = none)
    (link : hierarchy.superclass? id = some parent) :
    hierarchy.method? name id = hierarchy.method? name parent := by
  rw [method?]
  simp only [missing]
  split
  · simp_all
  · simp_all

end Hierarchy

theorem ShiftsMethods.forall₂ {shift : Nat → Nat} {methods methods' : List (Function Hops)}
    (shifts : ShiftsMethods shift methods methods') :
    List.Forall₂ (Function.Shifts shift) methods methods' := by
  induction methods generalizing methods' with
  | nil =>
      cases shifts with
      | nil => exact .nil
  | cons method more ih =>
      cases shifts with
      | cons here rest => exact .cons here (ih rest)

/-- Functions that are the same up to a shift have the same name and parameters. -/
theorem Function.Shifts.head {shift : Nat → Nat} {decl other : Function Hops}
    (shifts : decl.Shifts shift other) : other.name = decl.name ∧ other.params = decl.params := by
  cases shifts with
  | mk => exact ⟨rfl, rfl⟩

/-! ### Pairs of machines -/

/-- Two machines, and for every frame of the first one its partner in the second one. -/
structure Pair where
  first : Machine
  second : Machine
  partner : Nat → Nat

namespace Pair

/-- From two frames, the same frames are found, up to a shift of the number of links. -/
structure Sees (pair : Pair) (shift : Nat → Nat) (frame other : Nat) : Prop where
  inside : frame < pair.first.store.size
  inside' : other < pair.second.store.size
  walks : ∀ hops, pair.second.store.frameAt other (shift hops) =
    (pair.first.store.frameAt frame hops).map pair.partner

/-- Functions that can be called in place of each other. -/
structure Calls (pair : Pair) (closure other : Closure) : Prop where
  initializer : other.isInitializer = closure.isInitializer
  code : ∃ shift, pair.Sees shift closure.frame other.frame ∧
    closure.decl.Shifts (under shift) other.decl ∧ (closure.isInitializer = true → shift 0 = 0)

theorem Calls.head {pair : Pair} {closure other : Closure} (calls : pair.Calls closure other) :
    other.decl.name = closure.decl.name ∧ other.decl.params = closure.decl.params := by
  obtain ⟨_, _, shifts, _⟩ := calls.code
  exact shifts.head

/-- Methods that can be bound in place of each other. -/
structure Binds (pair : Pair) (method other : Closure) : Prop where
  initializer : other.isInitializer = method.isInitializer
  code : ∃ shift, pair.Sees shift method.frame other.frame ∧
    method.decl.Shifts (under (under shift)) other.decl

theorem Binds.params {pair : Pair} {method other : Closure} (binds : pair.Binds method other) :
    other.decl.params = method.decl.params := by
  obtain ⟨_, _, shifts⟩ := binds.code
  exact shifts.head.2

/-- Methods under the same names that can be bound in place of each other. -/
abbrev BindsAll (pair : Pair) : Bindings Closure → Bindings Closure → Prop :=
  List.Forall₂ fun own own' => own'.1 = own.1 ∧ pair.Binds own.2 own'.2

theorem BindsAll.get? {pair : Pair} {methods methods' : Bindings Closure}
    (binds : pair.BindsAll methods methods') (name : String) :
    Option.Rel pair.Binds (methods.get? name) (methods'.get? name) := by
  induction binds with
  | nil => exact .none
  | @cons own own' more more' here _ ih =>
      obtain ⟨label, method⟩ := own
      obtain ⟨label', method'⟩ := own'
      obtain ⟨rfl, binds⟩ := here
      rw [Bindings.get?, Bindings.get?]
      split
      · exact .some binds
      · exact ih

theorem BindsAll.set {pair : Pair} {methods methods' : Bindings Closure} {method method' : Closure}
    (binds : pair.BindsAll methods methods') (name : String) (here : pair.Binds method method') :
    pair.BindsAll (methods.set name method) (methods'.set name method') := by
  induction binds with
  | nil => exact .cons ⟨rfl, here⟩ .nil
  | @cons own own' more more' first rest ih =>
      obtain ⟨label, old⟩ := own
      obtain ⟨label', old'⟩ := own'
      obtain ⟨rfl, binds⟩ := first
      rw [Bindings.set, Bindings.set]
      split
      · exact .cons ⟨rfl, here⟩ rest
      · exact .cons ⟨rfl, binds⟩ ih

/-- Classes that are the same up to the frames of their methods. -/
structure Inherits (pair : Pair) (class_ other : Class) : Prop where
  name : other.name = class_.name
  superclass : other.superclass = class_.superclass
  methods : pair.BindsAll class_.methods other.methods

/-- Partners bind the same. -/
structure Framed (pair : Pair) : Prop where
  inhabited : Machine.globals < pair.first.store.size
  globals : pair.partner Machine.globals = Machine.globals
  inside : ∀ frame < pair.first.store.size, pair.partner frame < pair.second.store.size
  apart : ∀ frame < pair.first.store.size, ∀ other < pair.first.store.size,
    pair.partner frame = pair.partner other → frame = other
  bindings : ∀ frame < pair.first.store.size,
    pair.second.store.bindings (pair.partner frame) = pair.first.store.bindings frame

/-- **Pairs of machines that are alike.** -/
structure Alike (pair : Pair) : Prop extends pair.Framed where
  natives : pair.second.natives = pair.first.natives
  functions : List.Forall₂ pair.Calls pair.first.functions.toList pair.second.functions.toList
  classes : List.Forall₂ pair.Inherits pair.first.hierarchy.classes.toList
    pair.second.hierarchy.classes.toList
  instances : pair.second.instances = pair.first.instances
  printed : pair.second.printed = pair.first.printed
  clock : pair.second.clock = pair.first.clock
  readings : pair.second.readings = pair.first.readings

/-- Frames stay where they are, and partners stay partners. -/
structure Grows (pair later : Pair) : Prop where
  size : pair.first.store.size ≤ later.first.store.size := by exact Nat.le_refl _
  size' : pair.second.store.size ≤ later.second.store.size := by exact Nat.le_refl _
  links : ∀ frame < pair.first.store.size,
      later.first.store.enclosing? frame = pair.first.store.enclosing? frame := by
    exact fun _ _ => rfl
  links' : ∀ frame < pair.second.store.size,
      later.second.store.enclosing? frame = pair.second.store.enclosing? frame := by
    exact fun _ _ => rfl
  partner : ∀ frame < pair.first.store.size, later.partner frame = pair.partner frame := by
    exact fun _ _ => rfl

namespace Grows

theorem refl (pair : Pair) : pair.Grows pair := {}

theorem trans {first second third : Pair} (early : first.Grows second) (late : second.Grows third) :
    first.Grows third where
  size := Nat.le_trans early.size late.size
  size' := Nat.le_trans early.size' late.size'
  links frame inside := by
    rw [late.links frame (Nat.lt_of_lt_of_le inside early.size), early.links frame inside]
  links' frame inside := by
    rw [late.links' frame (Nat.lt_of_lt_of_le inside early.size'), early.links' frame inside]
  partner frame inside := by
    rw [late.partner frame (Nat.lt_of_lt_of_le inside early.size), early.partner frame inside]

variable {pair later : Pair} (grows : pair.Grows later)

include grows

theorem sees {shift : Nat → Nat} {frame other : Nat} (sees : pair.Sees shift frame other) :
    later.Sees shift frame other where
  inside := Nat.lt_of_lt_of_le sees.inside grows.size
  inside' := Nat.lt_of_lt_of_le sees.inside' grows.size'
  walks hops := by
    rw [Store.frameAt_of_links grows.links' sees.inside', sees.walks,
      Store.frameAt_of_links grows.links sees.inside]
    cases walked : pair.first.store.frameAt frame hops with
    | error fault => rfl
    | ok found =>
        have inside := Nat.lt_of_le_of_lt (Store.frameAt_le walked) sees.inside
        exact congrArg Except.ok (grows.partner found inside).symm

theorem calls {closure other : Closure} (calls : pair.Calls closure other) :
    later.Calls closure other := by
  obtain ⟨shift, seen, rest⟩ := calls.code
  exact ⟨calls.initializer, shift, grows.sees seen, rest⟩

theorem binds {method other : Closure} (binds : pair.Binds method other) :
    later.Binds method other := by
  obtain ⟨shift, seen, rest⟩ := binds.code
  exact ⟨binds.initializer, shift, grows.sees seen, rest⟩

theorem inherits {class_ other : Class} (inherits : pair.Inherits class_ other) :
    later.Inherits class_ other where
  name := inherits.name
  superclass := inherits.superclass
  methods := inherits.methods.imp fun _ _ here => ⟨here.1, grows.binds here.2⟩

end Grows

section Tables

variable {pair later : Pair} (alike : pair.Alike) (grows : pair.Grows later)

include alike grows

theorem Alike.functions_later :
    List.Forall₂ later.Calls pair.first.functions.toList pair.second.functions.toList :=
  alike.functions.imp fun _ _ => grows.calls

theorem Alike.classes_later : List.Forall₂ later.Inherits pair.first.hierarchy.classes.toList
    pair.second.hierarchy.classes.toList :=
  alike.classes.imp fun _ _ => grows.inherits

end Tables

namespace Sees

variable {pair : Pair} {shift : Nat → Nat} {frame other : Nat}

/-- Where the innermost scope stays so, the two frames are partners. -/
theorem partner (sees : pair.Sees shift frame other) (steady : shift 0 = 0) :
    pair.partner frame = other := by
  have here := sees.walks 0
  rw [steady] at here
  exact (Except.ok.inj here).symm

/-- A partner of one more frame on each side. -/
theorem enter {inner inner' : Nat} (sees : pair.Sees shift frame other)
    (link : pair.first.store.enclosing? inner = some frame)
    (link' : pair.second.store.enclosing? inner' = some other)
    (partner : pair.partner inner = inner') : pair.Sees (under shift) inner inner' where
  inside := Store.lt_size_of_enclosing? link
  inside' := Store.lt_size_of_enclosing? link'
  walks hops := by
    cases hops with
    | zero => exact congrArg Except.ok partner.symm
    | succ hops => rw [under, Store.frameAt_succ link', Store.frameAt_succ link, sees.walks]

/-- One more frame on the second side. -/
theorem behind {inner : Nat} (sees : pair.Sees shift frame other)
    (link : pair.second.store.enclosing? inner = some other) :
    pair.Sees (fun hops => shift hops + 1) frame inner where
  inside := sees.inside
  inside' := Store.lt_size_of_enclosing? link
  walks hops := by rw [Store.frameAt_succ link, sees.walks]

end Sees

/-! ### What is alike -/

namespace Alike

variable {pair : Pair} (alike : pair.Alike)

include alike

theorem binds_globals (name : String) :
    pair.second.store.binds Machine.globals name = pair.first.store.binds Machine.globals name := by
  have same := alike.bindings Machine.globals alike.inhabited
  rw [alike.globals] at same
  rw [Store.binds, same]
  rfl

theorem holder?_globals (name : String) :
    pair.second.store.holder? name Machine.globals =
      pair.first.store.holder? name Machine.globals := by
  by_cases binds : pair.first.store.binds Machine.globals name = true
  · rw [Store.holder?_of_binds binds, Store.holder?_of_binds (alike.binds_globals name ▸ binds)]
  · rw [Store.holder?_of_root (Store.enclosing?_globals _) binds,
      Store.holder?_of_root (Store.enclosing?_globals _) (alike.binds_globals name ▸ binds)]

theorem get?_globals (name : String) :
    pair.second.store.get? Machine.globals name = pair.first.store.get? Machine.globals name := by
  have same := alike.bindings Machine.globals alike.inhabited
  rw [alike.globals] at same
  unfold Store.get?
  rw [alike.holder?_globals]
  cases found : pair.first.store.holder? name Machine.globals with
  | none => rfl
  | some holder =>
      obtain rfl := Store.eq_of_holder?_root (Store.enclosing?_globals _) found
      simp only [same]

theorem function? (id : Nat) :
    Option.Rel pair.Calls pair.first.functions[id]? pair.second.functions[id]? := by
  simpa using forall₂_getElem? alike.functions id

theorem class? (id : Nat) :
    Option.Rel pair.Inherits pair.first.hierarchy.classes[id]?
      pair.second.hierarchy.classes[id]? := by
  simpa using forall₂_getElem? alike.classes id

theorem className (id : Nat) : pair.second.hierarchy.name id = pair.first.hierarchy.name id := by
  unfold Hierarchy.name
  rcases rel_cases (alike.class? id) with ⟨here, here'⟩ | ⟨_, _, here, here', inherits⟩
  · rw [here, here']
  · rw [here, here']
    exact inherits.name

theorem superclass? (id : Nat) :
    pair.second.hierarchy.superclass? id = pair.first.hierarchy.superclass? id := by
  unfold Hierarchy.superclass?
  rcases rel_cases (alike.class? id) with ⟨here, here'⟩ | ⟨_, _, here, here', inherits⟩
  · rw [here, here']
  · rw [here, here']
    exact inherits.superclass

theorem ownMethod? (id : Nat) (name : String) :
    Option.Rel pair.Binds (pair.first.hierarchy.ownMethod? id name)
      (pair.second.hierarchy.ownMethod? id name) := by
  unfold Hierarchy.ownMethod?
  rcases rel_cases (alike.class? id) with ⟨here, here'⟩ | ⟨_, _, here, here', inherits⟩
  · rw [here, here']
    exact .none
  · rw [here, here']
    exact inherits.methods.get? name

theorem missing {id : Nat} {name : String}
    (missing : pair.first.hierarchy.ownMethod? id name = none) :
    pair.second.hierarchy.ownMethod? id name = none := by
  rcases rel_cases (alike.ownMethod? id name) with ⟨_, missing'⟩ | ⟨_, _, here, _⟩
  · exact missing'
  · exact absurd (here.symm.trans missing) (Option.some_ne_none _)

/-- Classes find the same methods. -/
theorem method? (name : String) (id : Nat) :
    Option.Rel pair.Binds (pair.first.hierarchy.method? name id)
      (pair.second.hierarchy.method? name id) := by
  fun_induction Hierarchy.method? pair.first.hierarchy name id with
  | case1 id method found =>
      rcases rel_cases (alike.ownMethod? id name) with ⟨never, _⟩ | ⟨_, _, here, here', binds⟩
      · exact absurd (found.symm.trans never) (Option.some_ne_none _)
      · obtain rfl := Option.some.inj (found.symm.trans here)
        rw [Hierarchy.method?_of_own here']
        exact .some binds
  | case2 id missing root =>
      rw [Hierarchy.method?_of_root (alike.missing missing) ((alike.superclass? id).trans root)]
      exact .none
  | case3 id missing parent link ih =>
      rw [Hierarchy.method?_of_parent (alike.missing missing) ((alike.superclass? id).trans link)]
      exact ih

/-- Values have the same texts. -/
theorem text : pair.second.text = pair.first.text := by
  funext value
  cases value with
  | bool value => cases value <;> rfl
  | native id => simp only [Machine.text, alike.natives]
  | function id =>
      rcases rel_cases (alike.function? id) with ⟨here, here'⟩ | ⟨_, _, here, here', calls⟩
      · simp only [Machine.text, here, here']
      · simp only [Machine.text, here, here', calls.head.1]
  | class_ id => exact alike.className id
  | instance_ id => simp only [Machine.text, alike.instances, alike.className]
  | _ => rfl

/-- Values take the same numbers of arguments. -/
theorem arity? (value : Value) : pair.second.arity? value = pair.first.arity? value := by
  cases value with
  | native id => simp only [Machine.arity?, alike.natives]
  | function id =>
      rcases rel_cases (alike.function? id) with ⟨here, here'⟩ | ⟨_, _, here, here', calls⟩
      · simp only [Machine.arity?, here, here', Option.map_none]
      · simp only [Machine.arity?, here, here', Option.map_some, calls.head.2]
  | class_ id =>
      rcases rel_cases (alike.method? initName id) with ⟨here, here'⟩ | ⟨_, _, here, here', binds⟩
      · simp only [Machine.arity?, Machine.classArity, here, here']
      · simp only [Machine.arity?, Machine.classArity, here, here', binds.params]
  | _ => rfl

end Alike

/-! ### Changes -/

/-- The same machines with other frames. -/
def reframe (pair : Pair) (first second : Store Value) (partner : Nat → Nat) : Pair :=
  ⟨{ pair.first with store := first }, { pair.second with store := second }, partner⟩

theorem Alike.reframe {pair : Pair} (alike : pair.Alike) {first second : Store Value}
    {partner : Nat → Nat} (grows : pair.Grows (pair.reframe first second partner))
    (framed : (pair.reframe first second partner).Framed) :
    (pair.reframe first second partner).Alike where
  toFramed := framed
  natives := alike.natives
  functions := alike.functions_later grows
  classes := alike.classes_later grows
  instances := alike.instances
  printed := alike.printed
  clock := alike.clock
  readings := alike.readings

/-- The partners of one more frame on each side. -/
def pushPartner (pair : Pair) (frame : Nat) : Nat :=
  if frame = pair.first.store.size then pair.second.store.size else pair.partner frame

theorem pushPartner_of_lt {pair : Pair} {frame : Nat} (inside : frame < pair.first.store.size) :
    pair.pushPartner frame = pair.partner frame :=
  if_neg (Nat.ne_of_lt inside)

theorem pushPartner_size (pair : Pair) :
    pair.pushPartner pair.first.store.size = pair.second.store.size :=
  if_pos rfl

/-- One more frame on each side. -/
def push (pair : Pair) (frame other : Nat) : Pair :=
  pair.reframe (pair.first.store.push (some frame)) (pair.second.store.push (some other))
    pair.pushPartner

theorem grows_push (pair : Pair) (frame other : Nat) : pair.Grows (pair.push frame other) where
  size := by simp [push, Pair.reframe]
  size' := by simp [push, Pair.reframe]
  links _ inside := Store.enclosing?_push_of_lt inside _
  links' _ inside := Store.enclosing?_push_of_lt inside _
  partner _ inside := pushPartner_of_lt inside

theorem Alike.push {pair : Pair} (alike : pair.Alike) (frame other : Nat) :
    (pair.push frame other).Alike := by
  have size : (pair.push frame other).first.store.size = pair.first.store.size + 1 := by
    simp [Pair.push, Pair.reframe]
  have size' : (pair.push frame other).second.store.size = pair.second.store.size + 1 := by
    simp [Pair.push, Pair.reframe]
  have old_or_new : ∀ {index}, index < pair.first.store.size + 1 →
      index < pair.first.store.size ∧ pair.pushPartner index < pair.second.store.size ∨
        index = pair.first.store.size ∧ pair.pushPartner index = pair.second.store.size := by
    intro index inside
    rcases Nat.lt_succ_iff_lt_or_eq.mp inside with old | rfl
    · exact .inl ⟨old, by rw [pushPartner_of_lt old]; exact alike.inside index old⟩
    · exact .inr ⟨rfl, pair.pushPartner_size⟩
  refine alike.reframe (pair.grows_push frame other) ⟨?_, ?_, ?_, ?_, ?_⟩
  · exact size ▸ Nat.lt_succ_of_lt alike.inhabited
  · exact (pushPartner_of_lt alike.inhabited).trans alike.globals
  · intro index inside
    rcases old_or_new (size ▸ inside) with ⟨_, old⟩ | ⟨_, new⟩
    · exact size' ▸ Nat.lt_succ_of_lt old
    · exact size' ▸ Nat.lt_succ_of_le (Nat.le_of_eq new)
  · intro index inside index' inside' same
    have same : pair.pushPartner index = pair.pushPartner index' := same
    rcases old_or_new (size ▸ inside) with ⟨old, low⟩ | ⟨rfl, new⟩
    · rcases old_or_new (size ▸ inside') with ⟨old', _⟩ | ⟨_, new'⟩
      · rw [pushPartner_of_lt old, pushPartner_of_lt old'] at same
        exact alike.apart index old index' old' same
      · omega
    · rcases old_or_new (size ▸ inside') with ⟨_, low⟩ | ⟨rfl, _⟩
      · omega
      · rfl
  · intro index inside
    show ((pair.second.store.push _).bindings _) = (pair.first.store.push _).bindings index
    rw [Store.bindings_push, Store.bindings_push]
    rcases old_or_new (size ▸ inside) with ⟨old, _⟩ | ⟨rfl, new⟩
    · exact (congrArg _ (pushPartner_of_lt old)).trans (alike.bindings index old)
    · rw [Store.bindings_of_le (Nat.le_refl _)]
      exact Store.bindings_of_le (Nat.le_of_eq new.symm)

/-- One more frame on the second side. -/
def pushSecond (pair : Pair) (other : Nat) : Pair :=
  pair.reframe pair.first.store (pair.second.store.push (some other)) pair.partner

theorem grows_pushSecond (pair : Pair) (other : Nat) : pair.Grows (pair.pushSecond other) where
  size' := by simp [pushSecond, Pair.reframe]
  links' _ inside := Store.enclosing?_push_of_lt inside _

theorem Alike.pushSecond {pair : Pair} (alike : pair.Alike) (other : Nat) :
    (pair.pushSecond other).Alike := by
  refine alike.reframe (pair.grows_pushSecond other)
    ⟨alike.inhabited, alike.globals, fun frame inside => ?_, alike.apart, fun frame inside => ?_⟩
  · exact Nat.lt_of_lt_of_le (alike.inside frame inside) (pair.grows_pushSecond other).size'
  · exact (Store.bindings_push _ _).trans (alike.bindings frame inside)

/-- A name bound in a frame and in its partner. -/
def define (pair : Pair) (frame : Nat) (name : String) (value : Value) : Pair :=
  pair.reframe (pair.first.store.define frame name value)
    (pair.second.store.define (pair.partner frame) name value) pair.partner

theorem grows_define (pair : Pair) (frame : Nat) (name : String) (value : Value) :
    pair.Grows (pair.define frame name value) where
  size := by simp [define, Pair.reframe]
  size' := by simp [define, Pair.reframe]
  links _ _ := Store.enclosing?_define _ _ _ _
  links' _ _ := Store.enclosing?_define _ _ _ _

theorem Alike.define {pair : Pair} (alike : pair.Alike) {frame : Nat}
    (inside : frame < pair.first.store.size) (name : String) (value : Value) :
    (pair.define frame name value).Alike := by
  have size : (pair.define frame name value).first.store.size = pair.first.store.size := by
    simp [Pair.define, Pair.reframe]
  have grows := pair.grows_define frame name value
  refine alike.reframe grows ⟨?_, alike.globals, ?_, ?_, ?_⟩
  · exact Nat.lt_of_lt_of_le alike.inhabited grows.size
  · exact fun index here => Nat.lt_of_lt_of_le (alike.inside index (size ▸ here)) grows.size'
  · exact fun index here index' here' => alike.apart index (size ▸ here) index' (size ▸ here')
  · intro index here
    have here : index < pair.first.store.size := size ▸ here
    show (pair.second.store.define _ _ _).bindings (pair.partner index) =
      (pair.first.store.define _ _ _).bindings index
    rw [Store.bindings_define (alike.inside frame inside), Store.bindings_define inside,
      alike.bindings frame inside]
    by_cases same : index = frame
    · subst same
      rw [if_pos rfl, if_pos rfl]
    · rw [if_neg same, if_neg fun partners => same (alike.apart index here frame inside partners)]
      exact alike.bindings index here

end Pair

end Lox
