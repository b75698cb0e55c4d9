/-
**What a machine carries.** The functions and methods that a machine holds come from declarations
that were executed on it.

* `Run.Still`: a step only looks at the machine, and if it goes wrong, then at a known token.
* `Machine.Carries`: something holds of every function and method of a machine.
* `Run.Keeps`: a step leaves it so, however it ends. Only making a function and declaring a class
  have something to show.
-/

import Lox.Proofs.Safety

namespace Lox

/-- What a call of a function runs: its declaration, and whether it is an initializer. The frame in
which it was made is left out. -/
def Closure.code (closure : Closure) : Function Hops × Bool :=
  (closure.decl, closure.isInitializer)

/-- The code of a method, by its declaration. -/
def Function.methodCode (decl : Function Hops) : Function Hops × Bool :=
  (decl, decl.name.lexeme == initName)

/-- The token at which a program went wrong, if that is how a run failed. -/
def Failure.token? : Failure → Option Token
  | .error _ token => some token
  | _ => none

/-- If a program went wrong, then at a known token. -/
def Failure.At (known : Token → Prop) (failure : Failure) : Prop :=
  ∀ token ∈ failure.token?, known token

theorem Failure.At.error {known : Token → Prop} {token : Token} (here : known token)
    {error : RunError} : (Failure.error error token).At known := by
  rintro _ ⟨⟩
  exact here

variable {known : Token → Prop}

/-! ### Steps that only look -/

namespace Run

variable {α β : Type}

/-- Steps that leave the machine as it is. -/
def looking (known : Token → Prop) : RunLogic Machine Machine where
  view machine := machine
  le machine later := later = machine
  refl _ := rfl
  trans before behind := behind.trans before
  fails failure _ := failure.At known

/-- A step leaves the machine as it is, however it ends, and if it goes wrong, then at a known
token. -/
def Still (known : Token → Prop) (run : Run α) : Prop :=
  ∀ machine, (looking known).Ensures machine run fun _ _ => True

namespace Still

theorem leftBehind_eq {run : Run α} (still : Still known run) (machine : Machine) :
    leftBehind (run machine) = machine := by
  obtain ⟨later, same, rfl⟩ := RunLogic.Ends.exists_later (still machine)
  exact same.symm

theorem pure {value : α} : Still known (Pure.pure value) :=
  fun _ => .pure trivial

theorem throw {failure : Failure} (here : failure.At known) :
    Still known (throwThe Failure failure : Run α) :=
  fun _ => .throw here

theorem misbound : Still known (throwThe Failure .misbound : Run α) :=
  throw nofun

theorem fail {token : Token} (here : known token) {error : RunError} :
    Still known (Run.fail token error : Run α) :=
  throw (.error here)

theorem bind {run : Run α} {next : α → Run β} (first : Still known run)
    (then_ : ∀ value, Still known (next value)) : Still known (run >>= next) :=
  fun machine => (first machine).bind fun value later _ _ => then_ value later

theorem get {next : Machine → Run α} (then_ : ∀ machine, Still known (next machine)) :
    Still known (MonadState.get >>= next) :=
  fun machine => .get (then_ machine machine)

theorem ofAccess {access : Except Access α} : Still known (ofAccess access) := by
  cases access with
  | ok value => exact pure
  | error fault => exact throw nofun

theorem getAt {frame hops : Nat} {name : String} : Still known (getAt frame hops name) :=
  get fun _ => ofAccess

theorem closureOf {id : Nat} : Still known (closureOf id) := by
  refine get fun machine => ?_
  cases machine.functions[id]? with
  | none => exact misbound
  | some closure => exact pure

theorem initializerOf {id : Nat} : Still known (initializerOf id) :=
  get fun _ => pure

theorem callResult {closure : Closure} {completion : Completion} :
    Still known (callResult .direct closure completion) := by
  unfold Run.callResult
  by_cases initializer : closure.isInitializer = true
  · rw [if_pos initializer]
    exact getAt
  · rw [if_neg initializer]
    exact pure

/-! ### Steps that name a token -/

section Named

variable {token : Token} (here : known token)

include here

theorem getGlobal : Still known (getGlobal token) := by
  refine get fun machine => ?_
  cases machine.store.get? Machine.globals token.lexeme with
  | none => exact fail here
  | some value => exact pure

theorem applySign {sign : Sign} {value : Value} : Still known (applySign sign token value) := by
  unfold Run.applySign
  split
  · exact pure
  · exact pure
  · exact fail here

theorem applyNumeric {left right : Value} {op : Number → Number → Run Value}
    (still : ∀ x y, Still known (op x y)) : Still known (applyNumeric token left right op) := by
  unfold Run.applyNumeric
  split
  · exact still _ _
  · exact fail here

theorem applyPlus {left right : Value} : Still known (applyPlus token left right) := by
  unfold Run.applyPlus
  split
  iterate 4 exact pure
  exact fail here

theorem applyBinary {op : BinaryOp} {left right : Value} :
    Still known (applyBinary op token left right) := by
  cases op with
  | plus => exact applyPlus here
  | equal => exact pure
  | notEqual => exact pure
  | divide =>
      refine applyNumeric here fun x y => ?_
      by_cases zero : y.isZero = true
      · simp only [if_pos zero]
        exact fail here
      · simp only [if_neg zero]
        exact pure
  | _ => exact applyNumeric here fun _ _ => pure

theorem checkCall {callee : Value} {got : Nat} : Still known (checkCall token callee got) := by
  refine get fun machine => ?_
  cases machine.arity? callee with
  | none => exact fail here
  | some expected =>
      by_cases same : expected = got
      · simp only [if_pos same]
        exact pure
      · simp only [if_neg same]
        exact fail here

end Named

section References

variable {reference : Reference Hops} (here : known reference.token) {frame : Nat}

include here

theorem follow : Still known (Lookup.follow Run.getAt frame reference) := by
  unfold Lookup.follow
  cases reference.target with
  | none => exact getGlobal here
  | some hops => exact getAt

theorem holderOf : Still known (holderOf frame reference) := by
  refine get fun machine => ?_
  cases reference.target with
  | some hops => exact ofAccess
  | none =>
      cases machine.store.holder? reference.token.lexeme Machine.globals with
      | none => exact fail here
      | some holder => exact pure

theorem superclassOf : Still known (superclassOf .direct frame reference) := by
  refine (follow here).bind fun value => ?_
  cases value with
  | class_ id => exact pure
  | _ => exact fail here

end References

end Still

end Run

/-! ### What is carried -/

/-- The method that a class has or inherits is one of the methods of a class. -/
theorem Hierarchy.mem_of_method? {hierarchy : Hierarchy} {name : String} {id : Nat}
    {method : Closure} (found : hierarchy.method? name id = some method) :
    ∃ class_ ∈ hierarchy.classes, ∃ binding ∈ class_.methods, binding.2 = method := by
  fun_induction Hierarchy.method? hierarchy name id with
  | case1 id own here =>
      obtain rfl := Option.some.inj found
      unfold Hierarchy.ownMethod? at here
      split at here
      · exact ⟨_, Array.mem_of_getElem? ‹_›, _, Bindings.mem_of_get? here, rfl⟩
      · cases here
  | case2 => cases found
  | case3 id _ parent _ ih => exact ih found

variable {fine : Function Hops × Bool → Prop}

/-- Something holds of all functions and methods of a machine. -/
structure Machine.Carries (fine : Function Hops × Bool → Prop) (machine : Machine) : Prop where
  functions : ∀ closure ∈ machine.functions, fine closure.code
  methods : ∀ class_ ∈ machine.hierarchy.classes, ∀ method ∈ class_.methods, fine method.2.code

theorem Machine.Carries.method? {machine : Machine} (carries : machine.Carries fine)
    {name : String} {id : Nat} {method : Closure}
    (found : machine.hierarchy.method? name id = some method) : fine method.code := by
  obtain ⟨class_, inside, binding, member, rfl⟩ := Hierarchy.mem_of_method? found
  exact carries.methods class_ inside binding member

namespace Run

variable {α β : Type}

/-- Steps on machines whose functions and methods are fine. -/
def keeping (fine : Function Hops × Bool → Prop) (known : Token → Prop) :
    RunLogic { machine : Machine // machine.Carries fine } Machine where
  view machine := machine.1
  le _ _ := True
  refl _ := trivial
  trans _ _ := trivial
  fails failure _ := failure.At known

/-- A step leaves a machine with fine functions and methods behind, and something is known about
its result. If it goes wrong, then at a known token. -/
def Keeps (fine : Function Hops × Bool → Prop) (known : Token → Prop) (run : Run α)
    (post : α → Prop) : Prop :=
  ∀ machine, (keeping fine known).Ensures machine run fun value _ => post value

namespace Keeps

variable {run : Run α} {post mid : α → Prop} {after : β → Prop}

theorem carries (keeps : Keeps fine known run post) {machine : Machine}
    (carries : machine.Carries fine) : (leftBehind (run machine)).Carries fine := by
  obtain ⟨later, same, _⟩ := RunLogic.Ends.exists_later (keeps ⟨machine, carries⟩)
  exact same ▸ later.2

theorem fails (keeps : Keeps fine known run post) {machine later : Machine}
    (carries : machine.Carries fine) {failure : Failure}
    (failed : run machine = .error failure later) : failure.At known := by
  have ends : (keeping fine known).Ends ⟨machine, carries⟩ (fun value _ => post value)
      (run machine) := keeps ⟨machine, carries⟩
  rw [failed] at ends
  obtain ⟨_, _, _, here⟩ := ends
  exact here

theorem pure {value : α} (holds : post value) : Keeps fine known (Pure.pure value) post :=
  fun _ => .pure holds

theorem throw {failure : Failure} (here : failure.At known) :
    Keeps fine known (throwThe Failure failure : Run α) post :=
  fun _ => .throw here

theorem misbound : Keeps fine known (throwThe Failure .misbound : Run α) post :=
  throw nofun

theorem fail {token : Token} (here : known token) {error : RunError} :
    Keeps fine known (Run.fail token error) post :=
  throw (.error here)

theorem bind {next : α → Run β} (first : Keeps fine known run mid)
    (then_ : ∀ value, mid value → Keeps fine known (next value) after) :
    Keeps fine known (run >>= next) after :=
  fun machine => (first machine).bind fun value later _ holds => then_ value holds later

theorem get {next : Machine → Run α}
    (then_ : ∀ machine : Machine, machine.Carries fine → Keeps fine known (next machine) post) :
    Keeps fine known (MonadState.get >>= next) post :=
  fun machine => .get (then_ machine.1 machine.2 machine)

/-- A step that always ends well. -/
theorem step {result : Machine → α} {change : Machine → Machine}
    (moves : ∀ machine, run machine = .ok (result machine) (change machine))
    (kept : ∀ machine : Machine, machine.Carries fine → (change machine).Carries fine) :
    Keeps fine known run fun _ => True := by
  intro machine
  show (keeping fine known).Ends machine _ (run machine.1)
  rw [moves]
  exact ⟨⟨_, kept machine.1 machine.2⟩, rfl, trivial, trivial⟩

/-! ### Sequences and loops -/

theorem untilReturn {γ : Type} {step : γ → Run Completion} {parts : List γ}
    (each : ∀ part ∈ parts, Keeps fine known (step part) fun _ => True) :
    Keeps fine known (untilReturn step parts) fun _ => True := by
  let ready (parts : List γ) (_ : { machine : Machine // machine.Carries fine }) : Prop :=
    ∀ part ∈ parts, Keeps fine known (step part) fun _ => True
  have one : ∀ {machine part more}, ready (part :: more) machine →
      (keeping fine known).Ensures machine (step part) fun completion later =>
        completion.elim (ready more later) fun _ => True := by
    intro machine part more here
    obtain ⟨first, others⟩ := List.forall_mem_cons.mp here
    refine (first machine).weaken fun completion later _ _ => ?_
    cases completion with
    | none => exact others
    | some value => trivial
  exact fun _ => .untilReturn (fun _ => trivial) one each

theorem collect {γ : Type} {step : γ → Run Value} {parts : List γ}
    (each : ∀ part ∈ parts, Keeps fine known (step part) fun _ => True) :
    Keeps fine known (collect step parts) fun _ => True := by
  intro machine
  refine (RunLogic.Ensures.collect (fun _ _ => trivial) (fun part member state _ =>
    (each part member state).weaken fun _ _ _ _ => ⟨trivial, trivial⟩) trivial).weaken ?_
  exact fun _ _ _ _ => trivial

theorem loop {cond : Run Value} {body : Run Completion} (fuel : Nat)
    (tests : Keeps fine known cond fun _ => True) (turns : Keeps fine known body fun _ => True) :
    Keeps fine known (loop cond body fuel) fun _ => True :=
  fun _ => RunLogic.Ensures.loop (fun _ => tests _) (fun _ => turns _) (fun _ => nofun) trivial

/-! ### Steps that make no function -/

/-- A step that only looks. -/
theorem of_still (still : Still known run) : Keeps fine known run fun _ => True := by
  intro machine
  have ends : (looking known).Ends machine.1 (fun _ _ => True) (run machine.1) := still machine.1
  show (keeping fine known).Ends machine _ (run machine.1)
  cases ended : run machine.1 with
  | ok value later =>
      rw [ended] at ends
      obtain ⟨_, rfl, rfl, _⟩ := ends
      exact ⟨machine, rfl, trivial, trivial⟩
  | error failure later =>
      rw [ended] at ends
      obtain ⟨_, rfl, rfl, here⟩ := ends
      exact ⟨machine, rfl, trivial, here⟩

theorem newFrame {enclosing : Nat} : Keeps fine known (newFrame enclosing) fun _ => True :=
  step (fun _ => rfl) fun _ carries => ⟨carries.functions, carries.methods⟩

theorem define {frame : Nat} {name : String} {value : Value} :
    Keeps fine known (define frame name value) fun _ => True :=
  step (fun _ => rfl) fun _ carries => ⟨carries.functions, carries.methods⟩

theorem defineAll {frame : Nat} (names : List Token) (values : List Value) :
    Keeps fine known (defineAll frame names values) fun _ => True := by
  induction names generalizing values with
  | nil => exact pure trivial
  | cons name names ih =>
      cases values with
      | nil => exact pure trivial
      | cons value values => exact define.bind fun _ _ => ih values

theorem assign {frame : Nat} {reference : Reference Hops} {value : Value}
    (here : known reference.token) :
    Keeps fine known (assign frame reference value) fun _ => True :=
  (of_still (.holderOf here)).bind fun _ _ => define

theorem newInstance {class_ : Nat} : Keeps fine known (newInstance class_) fun _ => True :=
  step (fun _ => rfl) fun _ carries => ⟨carries.functions, carries.methods⟩

theorem print {value : Value} : Keeps fine known (print value) fun _ => True :=
  step (fun _ => rfl) fun _ carries => ⟨carries.functions, carries.methods⟩

theorem setField {id : Nat} {name : String} {value : Value} :
    Keeps fine known (setField id name value) fun _ => True :=
  step (fun _ => rfl) fun _ carries => ⟨carries.functions, carries.methods⟩

theorem readClock : Keeps fine known readClock fun _ => True :=
  step (fun _ => rfl) fun _ carries => ⟨carries.functions, carries.methods⟩

theorem callNative {id : Nat} {args : List Value} :
    Keeps fine known (callNative id args) fun _ => True := by
  refine get fun machine _ => ?_
  cases machine.natives[id]? with
  | none => exact misbound
  | some native =>
      by_cases timed : native.timed = true
      · simp only [if_pos timed]
        exact readClock.bind fun _ _ => pure trivial
      · simp only [if_neg timed]
        exact pure trivial

/-! ### Functions and classes -/

theorem newFunction {closure : Closure} (holds : fine closure.code) :
    Keeps fine known (newFunction closure) fun _ => True := by
  refine step (fun _ => rfl) fun machine carries => ⟨fun other member => ?_, carries.methods⟩
  rcases Array.mem_push.mp member with old | rfl
  · exact carries.functions other old
  · exact holds

theorem newClass {name : String} {superclass : Option Nat} {methods : Bindings Closure}
    (holds : ∀ method ∈ methods, fine method.2.code) :
    Keeps fine known (newClass name superclass methods) fun _ => True := by
  refine step (fun _ => rfl) fun machine carries => ⟨carries.functions, fun class_ member => ?_⟩
  rcases Array.mem_push.mp member with old | rfl
  · exact carries.methods class_ old
  · exact holds

theorem bindMethod {method : Closure} {id : Nat} (holds : fine method.code) :
    Keeps fine known (Run.bind method id) fun bound => fine bound.code :=
  newFrame.bind fun _ _ => define.bind fun _ _ => pure holds

theorem newMethod {method : Closure} {id : Nat} (holds : fine method.code) :
    Keeps fine known (Run.bind method id >>= fun bound => Run.newFunction bound) fun _ => True :=
  (bindMethod holds).bind fun _ holds => newFunction holds

theorem getProperty {id : Nat} {name : Token} (here : known name) :
    Keeps fine known (getProperty id name) fun _ => True := by
  refine get fun machine carries => ?_
  cases machine.instances[id]? with
  | none => exact misbound
  | some found =>
      cases own : found.fields.get? name.lexeme with
      | some value =>
          simp only [own]
          exact pure trivial
      | none =>
          simp only [own]
          cases inherited : machine.hierarchy.method? name.lexeme found.class_ with
          | some method => exact newMethod (carries.method? inherited)
          | none => exact fail here

theorem superMethod {frame : Nat} {keyword : Reference Hops} {name : Token} (here : known name) :
    Keeps fine known (superMethod .direct frame keyword name) fun _ => True := by
  unfold Run.superMethod
  cases keyword.target with
  | none => exact throw nofun
  | some hops =>
      refine (of_still .getAt).bind fun superclass _ => (of_still .getAt).bind fun this _ => ?_
      cases superclass with
      | class_ superclass =>
          cases this with
          | instance_ this =>
              refine get fun machine carries => ?_
              cases found : machine.hierarchy.method? name.lexeme superclass with
              | some method => exact newMethod (carries.method? found)
              | none => exact fail here
          | _ => exact misbound
      | _ => exact misbound

theorem closureOf {id : Nat} :
    Keeps fine known (closureOf id) fun closure => fine closure.code := by
  refine get fun machine carries => ?_
  cases found : machine.functions[id]? with
  | none => exact misbound
  | some closure => exact pure (carries.functions closure (Array.mem_of_getElem? found))

theorem initializerOf {id : Nat} :
    Keeps fine known (initializerOf id) fun method => ∀ closure ∈ method, fine closure.code :=
  get fun _ carries => pure fun _ found => carries.method? found

theorem declareClass {frame : Nat} {name : Token} {superclass : Option (Reference Hops)}
    (here : ∀ reference ∈ superclass, known reference.token) {methods : List (Function Hops)}
    (holds : ∀ method ∈ methods, fine method.methodCode) :
    Keeps fine known (declareClass .direct frame name superclass methods) fun _ => True := by
  have made : ∀ holder, ∀ binding ∈ methodsIn holder methods, fine binding.2.code := by
    intro holder binding member
    obtain ⟨method, declared, same⟩ := mem_methodsIn member
    rw [same]
    exact holds method declared
  cases superclass with
  | none => exact define.bind fun _ _ => (newClass (made frame)).bind fun _ _ => define
  | some reference =>
      refine (of_still (.superclassOf (here reference rfl))).bind fun parent _ => ?_
      refine define.bind fun _ _ => newFrame.bind fun inner _ => define.bind fun _ _ => ?_
      exact (newClass (made inner)).bind fun _ _ => define

end Keeps

end Run

end Lox
