/-
**Worlds.** Machines on which resolved references lead somewhere.

* A `Heap` is a machine that also says for every frame which scope it is for. `Heap.Spans` ties the
  frames from a given one outward to what is known about the scopes around a place.
* `Heap.Sound` is the invariant of runs: frames bind only names of their scopes, `this` stands for
  an instance and `super` for a class, and every function fits the frame in which it was made.
* `Heap.Sound.step` says once what a step has to show to keep the invariant: that the heap grows and
  that what is new is as it should be.
* A `World` is a sound heap.
-/

import Lox.Eval
import Lox.Proofs.Resolution

namespace Lox

open Layer

/-! ### Bindings -/

theorem Bindings.mem_of_get? {α : Type} {bindings : Bindings α} {name : String} {value : α}
    (found : bindings.get? name = some value) : (name, value) ∈ bindings := by
  induction bindings with
  | nil => cases found
  | cons binding more ih =>
      obtain ⟨other, old⟩ := binding
      rw [get?] at found
      split at found
      · rename_i same
        rw [same, Option.some.inj found]
        exact List.mem_cons_self
      · exact List.mem_cons_of_mem _ (ih found)

theorem Bindings.mem_set {α : Type} {bindings : Bindings α} {name : String} {value : α}
    {binding : String × α} (member : binding ∈ bindings.set name value) :
    binding = (name, value) ∨ binding ∈ bindings := by
  induction bindings with
  | nil => exact .inl (List.mem_singleton.mp member)
  | cons first more ih =>
      obtain ⟨other, old⟩ := first
      rw [set] at member
      split at member
      · rename_i same
        subst same
        exact (List.mem_cons.mp member).imp id (List.mem_cons_of_mem _)
      · rcases List.mem_cons.mp member with rfl | later
        · exact .inr List.mem_cons_self
        · exact (ih later).imp id (List.mem_cons_of_mem _)

/-! ### The store -/

namespace Store

variable {α : Type} {store : Store α}

@[simp] theorem size_push (enclosing : Option Nat) :
    (store.push enclosing).size = store.size + 1 :=
  Array.size_push _

@[simp] theorem size_define (frame : Nat) (name : String) (value : α) :
    (store.define frame name value).size = store.size :=
  Array.size_modify

theorem enclosing?_push_of_lt {frame : Nat} (inside : frame < store.size)
    (enclosing : Option Nat) :
    (store.push enclosing).enclosing? frame = store.enclosing? frame := by
  unfold enclosing? push
  rw [Array.getElem?_push_lt inside, Array.getElem?_eq_getElem inside]

theorem enclosing?_push_size {outer : Nat} (inside : outer < store.size) :
    (store.push (some outer)).enclosing? store.size = some outer := by
  unfold enclosing? push size
  simp only [Array.getElem?_push_size]
  exact Option.filter_eq_some_iff.mpr ⟨rfl, decide_eq_true inside⟩

/-- A new frame binds nothing. -/
theorem bindings_push (enclosing : Option Nat) (frame : Nat) :
    (store.push enclosing).bindings frame = store.bindings frame := by
  unfold bindings push
  rw [Array.getElem?_push]
  by_cases last : frame = store.frames.size
  · rw [if_pos last, Array.getElem?_eq_none (Nat.le_of_eq last.symm)]
  · rw [if_neg last]

@[simp] theorem enclosing?_define (frame : Nat) (name : String) (value : α) (other : Nat) :
    (store.define frame name value).enclosing? other = store.enclosing? other := by
  unfold enclosing? define modify
  rw [Array.getElem?_modify]
  by_cases same : frame = other
  · rw [if_pos same]
    cases store.frames[other]? <;> rfl
  · rw [if_neg same]

/-- A definition changes one name in one frame. -/
theorem get?_define_of_ne {frame other : Nat} {name found : String}
    (apart : ¬ (other = frame ∧ found = name)) (value : α) :
    ((store.define frame name value).bindings other).get? found =
      (store.bindings other).get? found := by
  unfold bindings define modify
  rw [Array.getElem?_modify]
  by_cases same : frame = other
  · have known : found ≠ name := fun named => apart ⟨same.symm, named⟩
    rw [if_pos same]
    cases store.frames[other]? with
    | none => rfl
    | some old => exact Bindings.get?_set_of_ne known value old.bindings
  · rw [if_neg same]

theorem get?_define {frame : Nat} (inside : frame < store.size) (name : String) (value : α)
    (other : Nat) (found : String) :
    ((store.define frame name value).bindings other).get? found =
      if other = frame ∧ found = name then some value else (store.bindings other).get? found := by
  by_cases here : other = frame ∧ found = name
  · obtain ⟨rfl, rfl⟩ := here
    unfold bindings define modify
    rw [Array.getElem?_modify, Array.getElem?_eq_getElem inside]
    simp
  · rw [if_neg here, get?_define_of_ne here]

theorem lt_size_of_enclosing? {frame outer : Nat} (link : store.enclosing? frame = some outer) :
    frame < store.size := by
  unfold enclosing? at link
  split at link
  · exact (Array.getElem?_eq_some_iff.mp ‹_›).1
  · cases link

theorem lt_size_of_get? {frame : Nat} {name : String} {value : α}
    (found : (store.bindings frame).get? name = some value) : frame < store.size := by
  unfold bindings at found
  split at found
  · exact (Array.getElem?_eq_some_iff.mp ‹_›).1
  · cases found

@[simp] theorem frameAt_zero (frame : Nat) : store.frameAt frame 0 = .ok frame := rfl

theorem frameAt_succ {frame outer : Nat} (link : store.enclosing? frame = some outer) (hops : Nat) :
    store.frameAt frame (hops + 1) = store.frameAt outer hops := by
  simp [frameAt, ancestor, walk, link]

theorem holder?_of_binds {frame : Nat} {name : String} (here : store.binds frame name = true) :
    store.holder? name frame = some frame := by
  rw [holder?, if_pos here]

theorem holder?_of_enclosing? {frame outer : Nat} {name : String}
    (missing : ¬ store.binds frame name = true) (link : store.enclosing? frame = some outer) :
    store.holder? name frame = store.holder? name outer := by
  rw [holder?, if_neg missing]
  split
  · simp_all
  · simp_all

/-- The search outward from the outermost frame ends there. -/
theorem eq_of_holder?_root {frame holder : Nat} {name : String}
    (root : store.enclosing? frame = none) (found : store.holder? name frame = some holder) :
    holder = frame := by
  rw [holder?] at found
  split at found
  · exact (Option.some.inj found).symm
  · split at found
    · cases found
    · simp_all

theorem binds_iff {frame : Nat} {name : String} :
    store.binds frame name = true ↔ ∃ value, (store.bindings frame).get? name = some value :=
  Option.isSome_iff_exists

end Store

/-! ### Values -/

/-- What a value refers to exists. -/
def Machine.Holds (machine : Machine) : Value → Prop
  | .native id => id < machine.natives.size
  | .function id => id < machine.functions.size
  | .instance_ id => id < machine.instances.size
  | _ => True

/-- A value that `this` or `super` may stand for, if that is the name. -/
structure Value.Befits (value : Value) (name : String) : Prop where
  this : name = thisName → ∃ id, value = .instance_ id
  super : name = superName → ∃ id, value = .class_ id

namespace Value.Befits

theorem of_proper {name : String} (proper : ProperName name) (value : Value) :
    value.Befits name :=
  ⟨fun same => absurd same proper.1, fun same => absurd same proper.2⟩

theorem instance_ (id : Nat) : (Value.instance_ id).Befits thisName :=
  ⟨fun _ => ⟨id, rfl⟩, fun same => absurd same (by decide)⟩

theorem class_ (id : Nat) : (Value.class_ id).Befits superName :=
  ⟨fun same => absurd same (by decide), fun _ => ⟨id, rfl⟩⟩

end Value.Befits

/-- The class that a value refers to exists. -/
def Machine.Has (machine : Machine) : Value → Prop
  | .class_ id => id < machine.hierarchy.classes.size
  | _ => True

/-- A native function gives only values that exist. -/
def Native.Lawful (native : Native) : Prop :=
  ∀ machine : Machine, ∀ args, (∀ arg ∈ args, machine.Holds arg) →
    machine.Holds (native.body machine.text args)

/-- A native function makes up no classes. -/
def Native.Faithful (native : Native) : Prop :=
  ∀ machine : Machine, ∀ args, (∀ arg ∈ args, machine.Has arg) →
    machine.Has (native.body machine.text args)

/-! ### Heaps -/

/-- A machine, for every frame the scope that it is for, and whether native functions may make up
classes. -/
structure Heap where
  machine : Machine
  scopes : Nat → LocalScope
  foreign : Prop

namespace Heap

/-- What a value refers to exists, unless it is a class that was made up. -/
def Holds (heap : Heap) : Value → Prop
  | .native id => id < heap.machine.natives.size
  | .function id => id < heap.machine.functions.size
  | .instance_ id => id < heap.machine.instances.size
  | .class_ id => heap.foreign ∨ id < heap.machine.hierarchy.classes.size
  | _ => True

theorem holds_iff {heap : Heap} {value : Value} :
    heap.Holds value ↔ heap.machine.Holds value ∧ (heap.foreign ∨ heap.machine.Has value) := by
  cases value <;> simp [Holds, Machine.Holds, Machine.Has]

theorem holds_literal (heap : Heap) (value : Literal) : heap.Holds (.ofLiteral value) := by
  cases value <;> trivial

/-- The frames from one outward are for the scopes around a place, and bind those of the complete
names that are asked for. The outermost one holds the globals. -/
def Spans (heap : Heap) (asked : String → Prop) : (frame : Nat) → List Layer → Prop
  | frame, [] => frame = Machine.globals
  | frame, layer :: more =>
    heap.scopes frame = layer.scope ∧
      (∀ name ∈ layer.sure, asked name → heap.machine.store.binds frame name = true) ∧
      ∃ outer, heap.machine.store.enclosing? frame = some outer ∧ Spans heap asked outer more

/-- The frames from one outward bind all the names that are complete. -/
abbrev Fits (heap : Heap) : (frame : Nat) → List Layer → Prop :=
  heap.Spans fun _ => True

/-- Nothing that a heap has goes away in a later one. -/
structure Grows (heap later : Heap) : Prop where
  size : heap.machine.store.size ≤ later.machine.store.size := by exact Nat.le_refl _
  scopes : ∀ frame < heap.machine.store.size, later.scopes frame = heap.scopes frame := by
    exact fun _ _ => rfl
  links : ∀ frame < heap.machine.store.size,
      later.machine.store.enclosing? frame = heap.machine.store.enclosing? frame := by
    exact fun _ _ => rfl
  bound : ∀ frame name, heap.machine.store.binds frame name = true →
      later.machine.store.binds frame name = true := by
    exact fun _ _ known => known
  natives : heap.machine.natives.size ≤ later.machine.natives.size := by exact Nat.le_refl _
  functions : heap.machine.functions.size ≤ later.machine.functions.size := by exact Nat.le_refl _
  classes : heap.machine.hierarchy.classes.size ≤ later.machine.hierarchy.classes.size := by
    exact Nat.le_refl _
  instances : heap.machine.instances.size ≤ later.machine.instances.size := by exact Nat.le_refl _
  foreign : later.foreign ↔ heap.foreign := by exact Iff.rfl

namespace Grows

theorem refl (heap : Heap) : heap.Grows heap := {}

theorem trans {first second third : Heap} (before : first.Grows second)
    (behind : second.Grows third) : first.Grows third where
  size := Nat.le_trans before.size behind.size
  scopes frame inside := by
    rw [behind.scopes frame (Nat.lt_of_lt_of_le inside before.size), before.scopes frame inside]
  links frame inside := by
    rw [behind.links frame (Nat.lt_of_lt_of_le inside before.size), before.links frame inside]
  bound frame name known := behind.bound frame name (before.bound frame name known)
  natives := Nat.le_trans before.natives behind.natives
  functions := Nat.le_trans before.functions behind.functions
  classes := Nat.le_trans before.classes behind.classes
  instances := Nat.le_trans before.instances behind.instances
  foreign := behind.foreign.trans before.foreign

variable {heap later : Heap} (grows : heap.Grows later)

include grows

theorem holds {value : Value} (holds : heap.Holds value) : later.Holds value := by
  cases value with
  | native id => exact Nat.lt_of_lt_of_le holds grows.natives
  | function id => exact Nat.lt_of_lt_of_le holds grows.functions
  | class_ id => exact holds.imp grows.foreign.mpr (Nat.lt_of_lt_of_le · grows.classes)
  | instance_ id => exact Nat.lt_of_lt_of_le holds grows.instances
  | _ => trivial

theorem spans {asked : String → Prop} {frame : Nat} {layers : List Layer}
    (spans : heap.Spans asked frame layers) : later.Spans asked frame layers := by
  induction layers generalizing frame with
  | nil => exact spans
  | cons layer more ih =>
      obtain ⟨scope, bound, outer, link, rest⟩ := spans
      have inside := Store.lt_size_of_enclosing? link
      refine ⟨(grows.scopes frame inside).trans scope, ?_, outer,
        (grows.links frame inside).trans link, ih rest⟩
      exact fun name sure here => grows.bound frame name (bound name sure here)

end Grows

namespace Spans

variable {heap : Heap} {asked : String → Prop} {frame : Nat} {layers : List Layer}

/-- Fewer names may be asked for. -/
theorem weaken (fits : heap.Fits frame layers) : heap.Spans asked frame layers := by
  induction layers generalizing frame with
  | nil => exact fits
  | cons layer more ih =>
      obtain ⟨scope, bound, outer, link, rest⟩ := fits
      exact ⟨scope, fun name sure _ => bound name sure trivial, outer, link, ih rest⟩

/-- The frame a number of links out is for the scope a number of scopes out. -/
theorem frameAt (spans : heap.Spans asked frame layers) {hops : Nat} {layer : Layer}
    (at_ : layers[hops]? = some layer) :
    ∃ holder more, heap.machine.store.frameAt frame hops = .ok holder ∧
      heap.Spans asked holder (layer :: more) := by
  induction layers generalizing frame hops with
  | nil => cases at_
  | cons first rest ih =>
      cases hops with
      | zero =>
          obtain rfl := Option.some.inj at_
          exact ⟨frame, rest, Store.frameAt_zero frame, spans⟩
      | succ hops =>
          obtain ⟨_, _, outer, link, outward⟩ := spans
          rw [Store.frameAt_succ link]
          exact ih outward at_

/-- Names that are not asked for may count as complete. -/
theorem learn {name : String} (spans : heap.Spans asked frame layers)
    (known : asked name → layers ≠ [] → heap.machine.store.binds frame name = true) :
    heap.Spans asked frame (Layer.learn name layers) := by
  cases layers with
  | nil => exact spans
  | cons layer more =>
      obtain ⟨scope, bound, link⟩ := spans
      refine ⟨scope, List.forall_mem_cons.mpr ⟨fun here => known here (by simp), bound⟩, link⟩

/-- A name that is being initialized makes no difference. -/
theorem begin (spans : heap.Spans asked frame layers) (name : String) :
    heap.Spans asked frame (Layer.begin name layers) := by
  cases layers with
  | nil => exact spans
  | cons layer more => exact spans

end Spans

/-! ### Sound heaps -/

end Heap

/-- A function all of whose references are in order where some layers are known. -/
structure Function.Runs (ok : Site Hops → Prop) (layers : List Layer) (decl : Function Hops) :
    Prop where
  sites : ∀ site ∈ decl.sites layers, ok site
  accepted : decl.Each Accepted

namespace Heap

section Sound

variable (heap : Heap) (ok : Site Hops → Prop)

/-- A function that can be called: it fits the frame in which it was made. -/
def Callable (closure : Closure) : Prop :=
  ∃ layers, heap.Fits closure.frame layers ∧ closure.decl.Runs ok layers ∧
    (closure.isInitializer = true → Sure thisName layers 0)

/-- A method that can be bound: it fits a frame with `this` in the one in which it was made. -/
def Bindable (method : Closure) : Prop :=
  ∃ layers, heap.Fits method.frame layers ∧ method.decl.Runs ok (Layer.only thisName :: layers)

/-- A name may stand for a value in a frame. -/
structure Admits (frame : Nat) (name : String) (value : Value) : Prop where
  holds : heap.Holds value
  befits : frame ≠ Machine.globals → value.Befits name
  declares : frame ≠ Machine.globals → (heap.scopes frame).declares name = true

/-- **The invariant of runs.** -/
structure Sound : Prop where
  root : heap.machine.store.enclosing? Machine.globals = none
  inhabited : Machine.globals < heap.machine.store.size
  bindings : ∀ frame name value, (heap.machine.store.bindings frame).get? name = some value →
    heap.Admits frame name value
  natives : ∀ native ∈ heap.machine.natives, native.Lawful ∧ (heap.foreign ∨ native.Faithful)
  functions : ∀ closure ∈ heap.machine.functions, heap.Callable ok closure
  classes : ∀ class_ ∈ heap.machine.hierarchy.classes, ∀ binding ∈ class_.methods,
    heap.Bindable ok binding.2
  instances : ∀ instance_ ∈ heap.machine.instances, heap.Holds (.class_ instance_.class_)
  fields : ∀ instance_ ∈ heap.machine.instances, ∀ name value,
    instance_.fields.get? name = some value → heap.Holds value

end Sound

variable {heap later : Heap} {ok : Site Hops → Prop}

theorem Grows.callable (grows : heap.Grows later) {closure : Closure}
    (callable : heap.Callable ok closure) : later.Callable ok closure :=
  let ⟨layers, fits, rest⟩ := callable
  ⟨layers, grows.spans fits, rest⟩

theorem Grows.bindable (grows : heap.Grows later) {method : Closure}
    (bindable : heap.Bindable ok method) : later.Bindable ok method :=
  let ⟨layers, fits, rest⟩ := bindable
  ⟨layers, grows.spans fits, rest⟩

theorem Grows.admits (grows : heap.Grows later) {frame : Nat} {name : String} {value : Value}
    (inside : frame < heap.machine.store.size) (admits : heap.Admits frame name value) :
    later.Admits frame name value where
  holds := grows.holds admits.holds
  befits := admits.befits
  declares inner := by
    rw [grows.scopes frame inside]
    exact admits.declares inner

/-- A heap grows by what is as it should be. -/
structure Extends (heap : Heap) (ok : Site Hops → Prop) (later : Heap) : Prop where
  grows : heap.Grows later
  bindings : ∀ frame name value, (later.machine.store.bindings frame).get? name = some value →
      (heap.machine.store.bindings frame).get? name = some value ∨
        later.Admits frame name value := by
    exact fun _ _ _ => .inl
  natives : ∀ native ∈ later.machine.natives,
      native ∈ heap.machine.natives ∨ native.Lawful ∧ (later.foreign ∨ native.Faithful) := by
    exact fun _ => .inl
  functions : ∀ closure ∈ later.machine.functions,
      closure ∈ heap.machine.functions ∨ later.Callable ok closure := by
    exact fun _ => .inl
  classes : ∀ class_ ∈ later.machine.hierarchy.classes,
      class_ ∈ heap.machine.hierarchy.classes ∨
        ∀ binding ∈ class_.methods, later.Bindable ok binding.2 := by
    exact fun _ => .inl
  instances : ∀ instance_ ∈ later.machine.instances,
      (∃ old ∈ heap.machine.instances, old.class_ = instance_.class_) ∨
        later.Holds (.class_ instance_.class_) := by
    exact fun instance_ member => .inl ⟨instance_, member, rfl⟩
  fields : ∀ instance_ ∈ later.machine.instances, ∀ name value,
      instance_.fields.get? name = some value →
        (∃ old ∈ heap.machine.instances, old.fields.get? name = some value) ∨
          later.Holds value := by
    exact fun instance_ member _ _ found => .inl ⟨instance_, member, found⟩

/-- **A heap stays sound if it grows by what is as it should be.** -/
theorem Sound.extend (sound : heap.Sound ok) (extends_ : heap.Extends ok later) :
    later.Sound ok where
  root := by rw [extends_.grows.links _ sound.inhabited, sound.root]
  inhabited := Nat.lt_of_lt_of_le sound.inhabited extends_.grows.size
  bindings frame name value found := by
    rcases extends_.bindings frame name value found with old | new
    · exact extends_.grows.admits (Store.lt_size_of_get? old) (sound.bindings frame name value old)
    · exact new
  natives native member :=
    (extends_.natives native member).elim
      (fun old => (sound.natives native old).imp_right (.imp_left extends_.grows.foreign.mpr)) id
  functions closure member :=
    (extends_.functions closure member).elim
      (fun old => extends_.grows.callable (sound.functions closure old)) id
  classes class_ member := by
    rcases extends_.classes class_ member with old | new
    · exact fun binding member => extends_.grows.bindable (sound.classes class_ old binding member)
    · exact new
  instances instance_ member := by
    rcases extends_.instances instance_ member with ⟨old, here, same⟩ | new
    · exact same ▸ extends_.grows.holds (sound.instances old here)
    · exact new
  fields instance_ member name value found := by
    rcases extends_.fields instance_ member name value found with ⟨old, here, same⟩ | new
    · exact extends_.grows.holds (sound.fields old here name value same)
    · exact new

namespace Sound

variable (sound : heap.Sound ok)

include sound

/-- A frame that spans a place exists. -/
theorem lt_size {asked : String → Prop} {frame : Nat} {layers : List Layer}
    (spans : heap.Spans asked frame layers) : frame < heap.machine.store.size := by
  cases layers with
  | nil => exact spans ▸ sound.inhabited
  | cons layer more =>
      obtain ⟨_, _, _, link, _⟩ := spans
      exact Store.lt_size_of_enclosing? link

/-- A frame that is for a local scope does not hold the globals. -/
theorem ne_globals {asked : String → Prop} {frame : Nat} {layer : Layer} {more : List Layer}
    (spans : heap.Spans asked frame (layer :: more)) : frame ≠ Machine.globals := by
  obtain ⟨_, _, _, link, _⟩ := spans
  rintro rfl
  rw [sound.root] at link
  cases link

/-- A complete name is bound the right number of links out, to what it may stand for. -/
theorem getAt {frame hops : Nat} {name : String} {layers : List Layer}
    (spans : heap.Spans (· = name) frame layers) (sure : Sure name layers hops) :
    ∃ value, heap.machine.store.getAt frame hops name = .ok value ∧
      heap.Holds value ∧ value.Befits name := by
  obtain ⟨layer, at_, member⟩ := sure
  obtain ⟨holder, more, walked, here⟩ := spans.frameAt at_
  obtain ⟨value, found⟩ := Store.binds_iff.mp (here.2.1 name member rfl)
  have admits := sound.bindings holder name value found
  refine ⟨value, ?_, admits.holds, admits.befits (sound.ne_globals here)⟩
  simp only [Store.getAt, walked, found]

/-- A class finds only methods that can be bound. -/
theorem method? {name : String} {id : Nat} {method : Closure}
    (found : heap.machine.hierarchy.method? name id = some method) : heap.Bindable ok method := by
  fun_induction Hierarchy.method? heap.machine.hierarchy name id with
  | case1 id own here =>
      obtain rfl := Option.some.inj found
      unfold Hierarchy.ownMethod? at here
      split at here
      · exact sound.classes _ (Array.mem_of_getElem? ‹_›) _ (Bindings.mem_of_get? here)
      · cases here
  | case2 => cases found
  | case3 id _ parent _ ih => exact ih found

end Sound

end Heap

/-! ### Worlds -/

/-- A sound heap. -/
structure World (ok : Site Hops → Prop) extends Heap where
  sound : toHeap.Sound ok

end Lox
