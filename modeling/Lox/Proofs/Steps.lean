/-
**Steps.** What the steps of a run do to the world.

* `World.Meets` compares two computations on a world: they agree, they fail only as programs may
  (`Failure.Benign`), and what they leave behind is a world that has grown and meets a condition.
  `World.Ensures` is the same about one computation.
* One lemma for every step says which condition that is. A step is shown to extend the heap
  (`Heap.Extends`), and the invariant follows from that.
-/

import Lox.Proofs.RunLogic
import Lox.Proofs.World

namespace Lox

open Layer

/-- A failure that a program can bring about. -/
def Failure.Benign : Failure → Prop
  | .error _ _ | .overflow | .exhausted => True
  | .access _ | .misbound => False

/-- A computation that starts by looking at the machine. -/
@[simp] theorem Run.get_bind {α : Type} (next : Machine → Run α) (machine : Machine) :
    ((MonadState.get : Run Machine) >>= next) machine = next machine machine := rfl

namespace World

variable {ok : Site Hops → Prop} {α β : Type}

/-! ### Outcomes -/

/-- Worlds grow, and a run fails on them only in a way that a program can bring about. -/
def logic : RunLogic (World ok) Machine where
  view world := world.machine
  le world later := world.Grows later.toHeap
  refl world := .refl world.toHeap
  trans before behind := before.trans behind
  fails failure _ := failure.Benign

/-- Two computations agree on a world and end well. -/
structure Meets (world : World ok) (run other : Run α) (post : α → World ok → Prop) : Prop where
  same : other world.machine = run world.machine
  ends : logic.Ensures world run post

/-- A computation ends well on a world. -/
abbrev Ensures (world : World ok) (run : Run α) (post : α → World ok → Prop) : Prop :=
  world.Meets run run post

/-- A value exists. -/
abbrev Held (value : Value) (world : World ok) : Prop :=
  world.Holds value

/-- A value that is returned exists. -/
abbrev Returned (completion : Completion) (world : World ok) : Prop :=
  ∀ value ∈ completion, world.Holds value

namespace Meets

variable {world : World ok} {run other : Run α} {post : α → World ok → Prop}

theorem pure {value : α} (here : post value world) : world.Ensures (Pure.pure value) post :=
  ⟨rfl, .pure here⟩

theorem throw {failure : Failure} (benign : failure.Benign) :
    world.Ensures (MonadExcept.throw failure) post :=
  ⟨rfl, RunLogic.Ensures.throw benign⟩

theorem fail {token : Token} {error : RunError} : world.Ensures (Run.fail token error) post :=
  throw trivial

/-- **Computations one after the other.** -/
theorem bind {post : β → World ok → Prop} {mid : α → World ok → Prop} {next next' : α → Run β}
    (first : world.Meets run other mid)
    (second : ∀ value (later : World ok), world.Grows later.toHeap → mid value later →
      later.Meets (next value) (next' value) post) :
    world.Meets (run >>= next) (other >>= next') post := by
  refine ⟨?_, first.ends.bind fun value later grows here => (second value later grows here).ends⟩
  have ends : logic.Ends world mid (run world.machine) := first.ends
  simp only [Bind.bind, EStateM.bind, first.same]
  cases result : run world.machine with
  | ok value machine =>
      rw [result] at ends
      obtain ⟨later, rfl, grows, here⟩ := ends
      exact (second value later grows here).same
  | error failure machine => rfl

theorem get {next next' : Machine → Run α}
    (here : world.Meets (next world.machine) (next' world.machine) post) :
    world.Meets (MonadState.get >>= next) (MonadState.get >>= next') post :=
  ⟨here.same, .get here.ends⟩

theorem weaken {post' : α → World ok → Prop} (meets : world.Meets run other post)
    (less : ∀ value (later : World ok), world.Grows later.toHeap → post value later →
      post' value later) : world.Meets run other post' :=
  ⟨meets.same, meets.ends.weaken less⟩

/-- A step that extends the heap. -/
theorem step {value : α} {heap : Heap} (extends_ : world.toHeap.Extends ok heap)
    (moves : run world.machine = .ok value heap.machine)
    (here : ∀ sound, post value ⟨heap, sound⟩) : world.Ensures run post := by
  refine ⟨rfl, ?_⟩
  show logic.Ends world post (run world.machine)
  rw [moves]
  exact ⟨⟨heap, world.sound.extend extends_⟩, rfl, extends_.grows, here _⟩

end Meets

end World

/-! ### Frames -/

/-- A name of the innermost scope may stand for a value in its frame. -/
theorem Heap.Spans.admits {heap : Heap} {frame : Nat} {layers : List Layer} {name : String}
    {value : Value} (fits : heap.Fits frame layers)
    (hosts : ∀ layer ∈ layers.head?, layer.scope.declares name = true)
    (befits : value.Befits name) (holds : heap.Holds value) :
    heap.Admits frame name value := by
  refine ⟨holds, fun _ => befits, fun inner => ?_⟩
  cases layers with
  | nil => exact absurd fits inner
  | cons layer more =>
      rw [fits.1]
      exact hosts layer rfl

/-- A heap with one more frame. -/
def Heap.enter (heap : Heap) (outer : Nat) (scope : LocalScope) : Heap where
  machine := { heap.machine with store := heap.machine.store.push (some outer) }
  scopes frame := if frame = heap.machine.store.size then scope else heap.scopes frame
  foreign := heap.foreign

theorem Heap.extends_enter (heap : Heap) (ok : Site Hops → Prop) (outer : Nat)
    (scope : LocalScope) : heap.Extends ok (heap.enter outer scope) where
  grows := {
    size := by simp [enter]
    scopes := fun frame inside => if_neg (Nat.ne_of_lt inside)
    links := fun frame inside => Store.enclosing?_push_of_lt inside _
    bound := fun frame name known => by
      simpa [enter, Store.binds, Store.bindings_push] using known }
  bindings frame name value found := by
    rw [enter, Store.bindings_push] at found
    exact .inl found

/-- A heap in which a name stands for a value in a frame. -/
def Heap.define (heap : Heap) (frame : Nat) (name : String) (value : Value) : Heap where
  machine := { heap.machine with store := heap.machine.store.define frame name value }
  scopes := heap.scopes
  foreign := heap.foreign

theorem Store.binds_define {α : Type} {store : Store α} {frame : Nat} (inside : frame < store.size)
    (name : String) (value : α) (other : Nat) (found : String) :
    (store.define frame name value).binds other found = true ↔
      (other = frame ∧ found = name) ∨ store.binds other found = true := by
  unfold binds Bindings.has
  rw [get?_define inside]
  by_cases same : other = frame ∧ found = name <;> simp [same]

theorem Heap.grows_define {heap : Heap} {frame : Nat} (inside : frame < heap.machine.store.size)
    (name : String) (value : Value) : heap.Grows (heap.define frame name value) where
  __ := Grows.refl heap
  size := by simp [define]
  links := by simp [define]
  bound other found known := (Store.binds_define inside name value other found).mpr (.inr known)

theorem Heap.extends_define {heap : Heap} {frame : Nat} {name : String} {value : Value}
    (ok : Site Hops → Prop) (inside : frame < heap.machine.store.size)
    (admits : heap.Admits frame name value) :
    heap.Extends ok (heap.define frame name value) where
  grows := grows_define inside name value
  bindings other known result found := by
    rw [define, Store.get?_define inside] at found
    by_cases same : other = frame ∧ known = name
    · rw [if_pos same] at found
      obtain ⟨rfl, rfl⟩ := same
      obtain rfl := Option.some.inj found
      exact .inr ((grows_define inside known value).admits inside admits)
    · rw [if_neg same] at found
      exact .inl found

/-- A name that was just defined is complete. -/
theorem Heap.Spans.define {heap : Heap} {frame : Nat} {layers : List Layer}
    (inside : frame < heap.machine.store.size) (fits : heap.Fits frame layers) (name : String)
    (value : Value) : (heap.define frame name value).Fits frame (Layer.learn name layers) :=
  ((grows_define inside name value).spans fits).learn fun _ _ =>
    (Store.binds_define inside name value frame name).mpr (.inl ⟨rfl, rfl⟩)

namespace World.Meets

variable {ok : Site Hops → Prop} {world : World ok}

/-- A new frame is for a scope in which nothing is complete. -/
theorem newFrame {frame : Nat} {layers : List Layer} (fits : world.Fits frame layers)
    (scope : LocalScope) :
    world.Ensures (Run.newFrame frame) fun inner later =>
      later.Fits inner (⟨scope, [], none⟩ :: layers) := by
  have extends_ := world.toHeap.extends_enter ok frame scope
  refine .step extends_ rfl fun sound => ⟨if_pos rfl, List.forall_mem_nil _, frame, ?_, ?_⟩
  · exact Store.enclosing?_push_size (world.sound.lt_size fits)
  · exact extends_.grows.spans fits

theorem define {frame : Nat} {layers : List Layer} {name : String} {value : Value}
    (fits : world.Fits frame layers)
    (hosts : ∀ layer ∈ layers.head?, layer.scope.declares name = true)
    (befits : value.Befits name) (holds : world.Holds value) :
    world.Ensures (Run.define frame name value) fun _ later =>
      later.Fits frame (learn name layers) := by
  have inside := world.sound.lt_size fits
  exact .step (Heap.extends_define ok inside (fits.admits hosts befits holds)) rfl fun _ =>
    fits.define inside name value

/-- Parameters get their arguments. -/
theorem defineAll {frame : Nat} {scope : LocalScope} {sure : List String} {layers : List Layer}
    {params : List Token} {args : List Value}
    (fits : world.Fits frame (⟨scope, sure, none⟩ :: layers))
    (hosts : ∀ param ∈ params, scope.declares param.lexeme = true ∧ ProperName param.lexeme)
    (holds : ∀ arg ∈ args, world.Holds arg) (paired : params.length = args.length) :
    world.Ensures (Run.defineAll frame params args) fun _ later =>
      later.Fits frame (⟨scope, (params.map Token.lexeme).reverse ++ sure, none⟩ :: layers) := by
  induction params generalizing args sure world with
  | nil => exact .pure fits
  | cons param params ih =>
      cases args with
      | nil => cases paired
      | cons arg args =>
          obtain ⟨host, others⟩ := List.forall_mem_cons.mp hosts
          obtain ⟨first, rest⟩ := List.forall_mem_cons.mp holds
          refine .bind (define fits (fun _ here => ?_) (.of_proper host.2 arg) first)
            fun _ later grows next => ?_
          · obtain rfl := Option.some.inj here
            exact host.1
          · have further := ih next others (fun arg member => grows.holds (rest arg member))
              (Nat.succ.inj paired)
            simpa using further

end World.Meets

/-! ### Functions -/

/-- A heap with one more function. -/
def Heap.addFunction (heap : Heap) (closure : Closure) : Heap where
  machine := { heap.machine with functions := heap.machine.functions.push closure }
  scopes := heap.scopes
  foreign := heap.foreign

/-- The value of the function that comes next. -/
def Heap.nextFunction (heap : Heap) : Value :=
  .function heap.machine.functions.size

theorem Heap.grows_addFunction (heap : Heap) (closure : Closure) :
    heap.Grows (heap.addFunction closure) where
  __ := Grows.refl heap
  functions := by simp [addFunction]

theorem Heap.holds_nextFunction (heap : Heap) (closure : Closure) :
    (heap.addFunction closure).Holds heap.nextFunction := by
  simp [addFunction, nextFunction, Heap.Holds]

theorem Heap.extends_addFunction {heap : Heap} {ok : Site Hops → Prop} {closure : Closure}
    (callable : heap.Callable ok closure) : heap.Extends ok (heap.addFunction closure) where
  grows := heap.grows_addFunction closure
  functions other member := by
    rcases Array.mem_push.mp member with old | rfl
    · exact .inl old
    · exact .inr ((heap.grows_addFunction other).callable callable)

/-- A function may need the name under which it becomes known. -/
theorem Heap.extends_function {heap : Heap} {ok : Site Hops → Prop} {closure : Closure}
    {frame : Nat} {name : String} (inside : frame < (heap.addFunction closure).machine.store.size)
    (admits : (heap.addFunction closure).Admits frame name heap.nextFunction)
    (callable : ((heap.addFunction closure).define frame name heap.nextFunction).Callable ok
      closure) :
    heap.Extends ok ((heap.addFunction closure).define frame name heap.nextFunction) where
  __ := extends_define ok inside admits
  grows := (heap.grows_addFunction closure).trans (grows_define inside name _)
  functions other member := by
    rcases Array.mem_push.mp member with old | rfl
    · exact .inl old
    · exact .inr callable

/-! ### Classes and instances -/

/-- A heap with one more class. -/
def Heap.addClass (heap : Heap) (name : String) (superclass : Option Nat)
    (methods : Bindings Closure) : Heap where
  machine := { heap.machine with hierarchy := heap.machine.hierarchy.push name superclass methods }
  scopes := heap.scopes
  foreign := heap.foreign

theorem Heap.extends_addClass {heap : Heap} {ok : Site Hops → Prop} {methods : Bindings Closure}
    (name : String) (superclass : Option Nat)
    (bindable : ∀ binding ∈ methods, heap.Bindable ok binding.2) :
    heap.Extends ok (heap.addClass name superclass methods) := by
  have grows : heap.Grows (heap.addClass name superclass methods) :=
    { classes := by simp [addClass, Hierarchy.push] }
  refine { grows, classes := fun class_ member => ?_ }
  rcases Array.mem_push.mp member with old | rfl
  · exact .inl old
  · exact .inr fun binding member => grows.bindable (bindable binding member)

/-- A heap with one more instance. -/
def Heap.addInstance (heap : Heap) (class_ : Nat) : Heap where
  machine := { heap.machine with instances := heap.machine.instances.push ⟨class_, []⟩ }
  scopes := heap.scopes
  foreign := heap.foreign

theorem Heap.extends_addInstance {heap : Heap} (ok : Site Hops → Prop) {class_ : Nat}
    (holds : heap.Holds (.class_ class_)) : heap.Extends ok (heap.addInstance class_) where
  grows := { instances := by simp [addInstance] }
  instances instance_ member := by
    rcases Array.mem_push.mp member with old | rfl
    · exact .inl ⟨instance_, old, rfl⟩
    · exact .inr holds
  fields instance_ member name value found := by
    rcases Array.mem_push.mp member with old | rfl
    · exact .inl ⟨instance_, old, found⟩
    · cases found

/-- A heap in which an instance has a field. -/
def Heap.setField (heap : Heap) (id : Nat) (name : String) (value : Value) : Heap where
  machine := { heap.machine with
    instances := heap.machine.instances.modify id fun old =>
      { old with fields := old.fields.set name value } }
  scopes := heap.scopes
  foreign := heap.foreign

theorem Heap.extends_setField {heap : Heap} (ok : Site Hops → Prop) (id : Nat) (name : String)
    {value : Value} (holds : heap.Holds value) :
    heap.Extends ok (heap.setField id name value) := by
  have grows : heap.Grows (heap.setField id name value) := { instances := by simp [setField] }
  have changed : ∀ instance_ ∈ (heap.setField id name value).machine.instances,
      ∃ old ∈ heap.machine.instances, old.class_ = instance_.class_ ∧ ∀ label result,
        instance_.fields.get? label = some result →
          old.fields.get? label = some result ∨ result = value := by
    intro instance_ member
    obtain ⟨index, inside, rfl⟩ := Array.mem_iff_getElem.mp member
    have old : index < heap.machine.instances.size := by simpa [setField] using inside
    refine ⟨_, Array.getElem_mem old, ?_⟩
    simp only [setField, Array.getElem_modify]
    split
    · refine ⟨rfl, fun label result found => ?_⟩
      by_cases same : label = name
      · subst same
        rw [Bindings.get?_set_self] at found
        exact .inr (Option.some.inj found).symm
      · rw [Bindings.get?_set_of_ne same] at found
        exact .inl found
    · exact ⟨rfl, fun _ _ => .inl⟩
  refine { grows, instances := fun instance_ member => ?_, fields := fun instance_ member => ?_ }
  · obtain ⟨old, here, same, _⟩ := changed instance_ member
    exact .inl ⟨old, here, same⟩
  · obtain ⟨old, here, _, fields⟩ := changed instance_ member
    intro label result found
    rcases fields label result found with kept | rfl
    · exact .inl ⟨old, here, kept⟩
    · exact .inr (grows.holds holds)

namespace World.Meets

variable {ok : Site Hops → Prop} {world : World ok}

theorem newFunction {closure : Closure} (callable : world.Callable ok closure) :
    world.Ensures (Run.newFunction closure) Held :=
  .step (Heap.extends_addFunction callable) rfl fun _ => world.holds_nextFunction closure

/-- A function declaration: the function can be called once its name is bound. -/
theorem function {frame : Nat} {layers : List Layer} {decl : Function Hops}
    (fits : world.Fits frame layers) (hosts : Hosts layers decl.name)
    (runs : decl.Runs ok (learn decl.name.lexeme layers)) {result : Completion} :
    world.Ensures (do
        let made ← Run.newFunction ⟨decl, frame, false⟩
        Run.define frame decl.name.lexeme made
        Pure.pure result)
      fun completion later =>
        completion = result ∧ later.Fits frame (learn decl.name.lexeme layers) := by
  -- The function fits its frame only when its own name is bound there, so the two steps are one.
  let closure : Closure := ⟨decl, frame, false⟩
  have kept := (world.grows_addFunction closure).spans fits
  have inside : frame < (world.addFunction closure).machine.store.size := world.sound.lt_size fits
  have known := kept.define inside decl.name.lexeme world.nextFunction
  have admits := kept.admits hosts.2 (.of_proper hosts.1 _) (world.holds_nextFunction closure)
  refine .step (Heap.extends_function inside admits ⟨_, known, runs, nofun⟩) rfl fun _ => ?_
  exact ⟨rfl, known⟩

theorem newClass {name : String} {superclass : Option Nat} {methods : Bindings Closure}
    (bindable : ∀ binding ∈ methods, world.Bindable ok binding.2) :
    world.Ensures (Run.newClass name superclass methods) Held :=
  .step (Heap.extends_addClass name superclass bindable) rfl fun _ =>
    .inr (by simp [Heap.addClass, Hierarchy.push])

theorem newInstance {class_ : Nat} (holds : world.Holds (.class_ class_)) :
    world.Ensures (Run.newInstance class_) fun id later =>
      later.Holds (.instance_ id) ∧
        later.machine.hierarchy = world.machine.hierarchy :=
  .step (Heap.extends_addInstance ok holds) rfl fun _ =>
    ⟨by simp [Heap.Holds, Heap.addInstance], rfl⟩

theorem setField {id : Nat} {name : String} {value : Value} (holds : world.Holds value) :
    world.Ensures (Run.setField id name value) fun _ _ => True :=
  .step (Heap.extends_setField ok id name holds) rfl fun _ => trivial

theorem print (value : Value) : world.Ensures (Run.print value) fun _ _ => True := by
  let heap : Heap := ⟨{ world.machine with
    printed := world.machine.printed.push (world.machine.text value) }, world.scopes, world.foreign⟩
  have extends_ : world.Extends ok heap := { grows := {} }
  exact .step extends_ rfl fun _ => trivial

/-! ### Methods and properties -/

/-- A method that was bound can be called. -/
theorem bindMethod {method : Closure} {this : Nat} (bindable : world.Bindable ok method)
    (holds : world.Holds (.instance_ this)) :
    world.Ensures (Run.bind method this) fun closure later =>
      later.Callable ok closure ∧ closure.decl = method.decl := by
  obtain ⟨layers, fits, runs⟩ := bindable
  refine .bind (newFrame fits (.only thisName)) fun frame later grows inner => ?_
  refine .bind (define inner ?_ (.instance_ this) (grows.holds holds)) fun _ last _ known => ?_
  · rintro _ ⟨⟩
    simp [LocalScope.only, LocalScope.declares]
  · exact .pure ⟨⟨_, known, runs, fun _ => ⟨_, rfl, List.mem_singleton_self _⟩⟩, rfl⟩

/-- A method that a class finds, as a function of its own. -/
theorem newMethod {method : Closure} {this : Nat} (bindable : world.Bindable ok method)
    (holds : world.Holds (.instance_ this)) :
    world.Ensures (do Run.newFunction (← Run.bind method this)) Held :=
  .bind (bindMethod bindable holds) fun _ _ _ bound => newFunction bound.1

theorem getProperty {id : Nat} {name : Token} (holds : world.Holds (.instance_ id)) :
    world.Ensures (Run.getProperty id name) Held := by
  obtain ⟨found, here⟩ : ∃ found, world.machine.instances[id]? = some found :=
    ⟨_, Array.getElem?_eq_getElem holds⟩
  refine .get ?_
  simp only [here]
  cases field : found.fields.get? name.lexeme with
  | some value =>
      exact .pure (world.sound.fields found (Array.mem_of_getElem? here) name.lexeme value field)
  | none =>
      cases inherited : world.machine.hierarchy.method? name.lexeme found.class_ with
      | some method => exact newMethod (world.sound.method? inherited) holds
      | none => exact .fail

/-! ### Calls -/

theorem checkCall {paren : Token} {callee : Value} {got : Nat} :
    world.Ensures (Run.checkCall paren callee got) fun _ later =>
      later.machine.arity? callee = some got := by
  refine .get ?_
  cases known : world.machine.arity? callee with
  | none => exact .fail
  | some expected =>
      by_cases same : expected = got
      · subst same
        simp only [if_pos]
        exact .pure known
      · simp only [if_neg same]
        exact .fail

theorem readClock : world.Ensures Run.readClock fun _ later =>
    later.machine.natives = world.machine.natives ∧ later.machine.text = world.machine.text := by
  let heap : Heap := ⟨{ world.machine with readings := world.machine.readings + 1 }, world.scopes,
    world.foreign⟩
  have extends_ : world.Extends ok heap := { grows := {} }
  exact .step extends_ rfl fun _ => ⟨rfl, funext fun value => by cases value <;> rfl⟩

/-- What a native function gives exists, on a machine that prints in the same way. -/
theorem holds_native {native : Native} (member : native ∈ world.machine.natives)
    {args : List Value} (given : ∀ arg ∈ args, world.Holds arg) :
    world.Holds (native.body world.machine.text args) := by
  obtain ⟨lawful, faithful⟩ := world.sound.natives native member
  refine Heap.holds_iff.mpr ⟨lawful world.machine args fun arg listed =>
    (Heap.holds_iff.mp (given arg listed)).1, ?_⟩
  rcases faithful with foreign | faithful
  · exact .inl foreign
  · by_cases foreign : world.foreign
    · exact .inl foreign
    · exact .inr (faithful world.machine args fun arg listed =>
        (Heap.holds_iff.mp (given arg listed)).2.resolve_left foreign)

theorem callNative {id : Nat} {args : List Value} (holds : world.Holds (.native id))
    (given : ∀ arg ∈ args, world.Holds arg) :
    world.Ensures (Run.callNative id args) Held := by
  obtain ⟨native, here⟩ : ∃ native, world.machine.natives[id]? = some native :=
    ⟨_, Array.getElem?_eq_getElem holds⟩
  have member := Array.mem_of_getElem? here
  refine .get ?_
  simp only [here]
  by_cases timed : native.timed = true
  · simp only [if_pos timed]
    refine .bind readClock fun time later grows same => .pure ?_
    rw [← same.2]
    exact holds_native (same.1 ▸ member)
      (List.forall_mem_cons.mpr ⟨trivial, fun arg listed => grows.holds (given arg listed)⟩)
  · simp only [if_neg timed]
    exact .pure (holds_native member given)

theorem closureOf {id : Nat} (holds : world.Holds (.function id)) :
    world.Ensures (Run.closureOf id) fun closure later =>
      later.Callable ok closure ∧
        world.machine.arity? (.function id) = some closure.decl.params.length := by
  obtain ⟨closure, here⟩ : ∃ closure, world.machine.functions[id]? = some closure :=
    ⟨_, Array.getElem?_eq_getElem holds⟩
  refine .get ?_
  simp only [here]
  refine .pure ⟨world.sound.functions closure (Array.mem_of_getElem? here), ?_⟩
  rw [Machine.arity?, here]
  rfl

theorem initializerOf (id : Nat) :
    world.Ensures (Run.initializerOf id) fun method later =>
      method = world.machine.hierarchy.method? initName id ∧
        ∀ found ∈ method, later.Bindable ok found :=
  .get (.pure ⟨rfl, fun _ found => world.sound.method? found⟩)

/-! ### Operators -/

theorem applySign {sign : Sign} {token : Token} {value : Value} :
    world.Ensures (Run.applySign sign token value) Held := by
  unfold Run.applySign
  split
  · exact .pure trivial
  · exact .pure trivial
  · exact .fail

theorem applyNumeric {token : Token} {left right : Value} {op : Number → Number → Run Value}
    (number : ∀ x y, world.Ensures (op x y) Held) :
    world.Ensures (Run.applyNumeric token left right op) Held := by
  unfold Run.applyNumeric
  split
  · exact number _ _
  · exact .fail

theorem applyPlus {token : Token} {left right : Value} :
    world.Ensures (Run.applyPlus token left right) Held := by
  unfold Run.applyPlus
  split
  · exact .pure trivial
  · exact .pure trivial
  · exact .pure trivial
  · exact .pure trivial
  · exact .fail

theorem applyBinary {op : BinaryOp} {token : Token} {left right : Value} :
    world.Ensures (Run.applyBinary op token left right) Held := by
  cases op with
  | equal | notEqual => exact .pure trivial
  | plus => exact applyPlus
  | divide =>
      refine applyNumeric fun x y => ?_
      split
      · exact .fail
      · exact .pure trivial
  | _ => exact applyNumeric fun _ _ => .pure trivial

/-! ### Sequences and loops -/

section Loops

variable {invariant : World ok → Prop}

/-- Steps one after the other, each of which keeps an invariant. -/
theorem collect {γ : Type} {step step' : γ → Run Value} {items : List γ}
    (stable : ∀ {world later : World ok}, world.Grows later.toHeap → invariant world →
      invariant later)
    (one : ∀ item ∈ items, ∀ {world : World ok}, invariant world →
      world.Meets (step item) (step' item) Held)
    (here : invariant world) :
    world.Meets (Run.collect step items) (Run.collect step' items) fun values later =>
      ∀ value ∈ values, later.Holds value := by
  induction items generalizing world with
  | nil => exact .pure (List.forall_mem_nil _)
  | cons item items ih =>
      obtain ⟨first, rest⟩ := List.forall_mem_cons.mp one
      refine .bind (first here) fun value later grows holds => ?_
      refine .bind (ih rest (stable grows here)) fun values last more others => ?_
      exact .pure (List.forall_mem_cons.mpr ⟨more.holds holds, others⟩)

/-- A loop, whose condition and body keep an invariant. -/
theorem loop {cond cond' : Run Value} {body body' : Run Completion} {fuel : Nat}
    (stable : ∀ {world later : World ok}, world.Grows later.toHeap → invariant world →
      invariant later)
    (test : ∀ {world : World ok}, invariant world → world.Meets cond cond' Held)
    (turn : ∀ {world : World ok}, invariant world → world.Meets body body' Returned)
    (here : invariant world) :
    world.Meets (Run.loop cond body fuel) (Run.loop cond' body' fuel) Returned := by
  induction fuel generalizing world with
  | zero => exact .throw trivial
  | succ fuel ih =>
      refine .bind (test here) fun value later grows _ => ?_
      by_cases truthy : value.isTruthy
      · simp only [if_pos truthy]
        refine .bind (turn (stable grows here)) fun completion last more result => ?_
        cases completion with
        | some value => exact .pure result
        | none => exact ih (stable more (stable grows here))
      · simp only [if_neg truthy]
        exact .pure nofun

end Loops

end World.Meets

end Lox
