/-
**Twins.** Runs on two machines that differ in their frames only.

* A `Twin` is a pair of machines that are alike, and `Twin.Agree` compares computations on the two:
  they end the same way, and leave twins.
* `Twin.agreeing`: trees that are the same up to a shift agree. The induction is on the room for
  nested evaluation.
-/

import Lox.Proofs.Pairs

namespace Lox

open Run

/-- Two machines that are alike. -/
structure Twin extends Pair where
  alike : toPair.Alike

namespace Twin

variable {α β γ δ : Type}

/-- **Computations on twins agree**: they end the same way and leave twins. -/
inductive Agree (twin : Twin) (run : Run α) (other : Run β) (post : α → β → Twin → Prop) : Prop
  | ok {value : α} {value' : β} (later : Twin) (ended : run twin.first = .ok value later.first)
      (ended' : other twin.second = .ok value' later.second) (grows : twin.Grows later.toPair)
      (here : post value value' later)
  | error (failure : Failure) (later : Twin)
      (failed : run twin.first = .error failure later.first)
      (failed' : other twin.second = .error failure later.second) (grows : twin.Grows later.toPair)

/-- The two results are the same. -/
abbrev Same (value value' : α) (_ : Twin) : Prop :=
  value = value'

namespace Agree

variable {twin : Twin} {run : Run α} {other : Run β} {post : α → β → Twin → Prop}

theorem pure {value : α} {value' : β} (here : post value value' twin) :
    twin.Agree (Pure.pure value) (Pure.pure value') post :=
  .ok twin rfl rfl (.refl _) here

theorem throw {failure : Failure} :
    twin.Agree (throwThe Failure failure : Run α) (throwThe Failure failure : Run β) post :=
  .error failure twin rfl rfl (.refl _)

theorem fail {token : Token} {error : RunError} :
    twin.Agree (Run.fail token error : Run α) (Run.fail token error : Run β) post :=
  throw

/-- **Computations one after the other.** -/
theorem bind {next : α → Run γ} {next' : β → Run δ} {after : γ → δ → Twin → Prop}
    (first : twin.Agree run other post)
    (second : ∀ value value' later, twin.Grows later.toPair → post value value' later →
      later.Agree (next value) (next' value') after) :
    twin.Agree (run >>= next) (other >>= next') after := by
  cases first with
  | ok later ended ended' grows here =>
      cases second _ _ later grows here with
      | ok last finished finished' more result =>
          refine .ok last ?_ ?_ (grows.trans more) result
          · simp only [Bind.bind, EStateM.bind, ended, finished]
          · simp only [Bind.bind, EStateM.bind, ended', finished']
      | error failure last failed failed' more =>
          refine .error failure last ?_ ?_ (grows.trans more)
          · simp only [Bind.bind, EStateM.bind, ended, failed]
          · simp only [Bind.bind, EStateM.bind, ended', failed']
  | error failure later failed failed' grows =>
      refine .error failure later ?_ ?_ grows
      · simp only [Bind.bind, EStateM.bind, failed]
      · simp only [Bind.bind, EStateM.bind, failed']

theorem get {next : Machine → Run α} {next' : Machine → Run β}
    (here : twin.Agree (next twin.first) (next' twin.second) post) :
    twin.Agree (MonadState.get >>= next) (MonadState.get >>= next') post := by
  cases here with
  | ok later ended ended' grows here => exact .ok later ended ended' grows here
  | error failure later failed failed' grows => exact .error failure later failed failed' grows

/-! ### Frames -/

theorem newFrame {shift : Nat → Nat} {frame frame' : Nat} (sees : twin.Sees shift frame frame') :
    twin.Agree (Run.newFrame frame) (Run.newFrame frame') fun inner inner' later =>
      later.Sees (under shift) inner inner' := by
  have grows := twin.grows_push frame frame'
  refine .ok ⟨twin.push frame frame', twin.alike.push frame frame'⟩ rfl rfl grows ?_
  refine (grows.sees sees).enter ?_ ?_ twin.pushPartner_size
  · exact Store.enclosing?_push_size sees.inside
  · exact Store.enclosing?_push_size sees.inside'

/-- One more frame on the second side. -/
theorem newFrame_second {shift : Nat → Nat} {frame frame' : Nat}
    (sees : twin.Sees shift frame frame') :
    twin.Agree (Pure.pure ()) (Run.newFrame frame') fun _ inner later =>
      later.Sees (fun hops => shift hops + 1) frame inner := by
  have grows := twin.grows_pushSecond frame'
  refine .ok ⟨twin.pushSecond frame', twin.alike.pushSecond frame'⟩ rfl rfl grows ?_
  exact (grows.sees sees).behind (Store.enclosing?_push_size sees.inside')

/-- A name bound in partners. -/
theorem define_partner {frame : Nat} (inside : frame < twin.first.store.size) (name : String)
    (value : Value) :
    twin.Agree (Run.define frame name value) (Run.define (twin.partner frame) name value) Same :=
  .ok ⟨twin.define frame name value, twin.alike.define inside name value⟩ rfl rfl
    (twin.grows_define frame name value) rfl

theorem define {shift : Nat → Nat} {frame frame' : Nat} (sees : twin.Sees shift frame frame')
    (steady : shift 0 = 0) (name : String) (value : Value) :
    twin.Agree (Run.define frame name value) (Run.define frame' name value) Same :=
  sees.partner steady ▸ define_partner sees.inside name value

theorem defineAll {shift : Nat → Nat} {frame frame' : Nat} (sees : twin.Sees shift frame frame')
    (steady : shift 0 = 0) (params : List Token) (args : List Value) :
    twin.Agree (Run.defineAll frame params args) (Run.defineAll frame' params args) Same := by
  induction params generalizing args twin with
  | nil => exact .pure rfl
  | cons param params ih =>
      cases args with
      | nil => exact .pure rfl
      | cons arg args =>
          exact .bind (define sees steady _ _) fun _ _ _ grows _ => ih (grows.sees sees) args

/-! ### Names -/

theorem getAt {shift : Nat → Nat} {frame frame' : Nat} (sees : twin.Sees shift frame frame')
    (hops : Nat) (name : String) :
    twin.Agree (Run.getAt frame hops name) (Run.getAt frame' (shift hops) name) Same := by
  refine .get ?_
  unfold Store.getAt
  rw [sees.walks]
  cases walked : twin.first.store.frameAt frame hops with
  | error fault => exact throw
  | ok found =>
      have inside := Nat.lt_of_le_of_lt (Store.frameAt_le walked) sees.inside
      simp only [Except.map, twin.alike.bindings found inside]
      cases (twin.first.store.bindings found).get? name with
      | none => exact throw
      | some value => exact .pure rfl

theorem getGlobal {name : Token} : twin.Agree (Run.getGlobal name) (Run.getGlobal name) Same := by
  refine .get ?_
  rw [twin.alike.get?_globals]
  cases twin.first.store.get? Machine.globals name.lexeme with
  | some value => exact .pure rfl
  | none => exact .fail

theorem follow {shift : Nat → Nat} {frame frame' : Nat} (sees : twin.Sees shift frame frame')
    (reference : Reference Hops) :
    twin.Agree (Lookup.follow Run.getAt frame reference)
      (Lookup.follow Run.getAt frame' (reference.shift shift)) Same := by
  obtain ⟨token, target⟩ := reference
  cases target with
  | none => exact getGlobal
  | some hops => exact getAt sees hops token.lexeme

theorem assign {shift : Nat → Nat} {frame frame' : Nat} (sees : twin.Sees shift frame frame')
    (reference : Reference Hops) (value : Value) :
    twin.Agree (Run.assign frame reference value) (Run.assign frame' (reference.shift shift) value)
      Same := by
  have holder : twin.Agree (Run.holderOf frame reference)
      (Run.holderOf frame' (reference.shift shift)) fun holder holder' later =>
        holder < later.first.store.size ∧ holder' = later.partner holder := by
    obtain ⟨token, target⟩ := reference
    refine .get ?_
    cases target with
    | none =>
        simp only [Reference.shift, Option.map_none, twin.alike.holder?_globals]
        cases found : twin.first.store.holder? token.lexeme Machine.globals with
        | none => exact .fail
        | some holder =>
            obtain rfl := Store.eq_of_holder?_root (Store.enclosing?_globals _) found
            exact .pure ⟨twin.alike.inhabited, twin.alike.globals.symm⟩
    | some hops =>
        simp only [Reference.shift, Option.map_some, sees.walks]
        cases walked : twin.first.store.frameAt frame hops with
        | error fault => exact throw
        | ok holder =>
            exact .pure ⟨Nat.lt_of_le_of_lt (Store.frameAt_le walked) sees.inside, rfl⟩
  refine .bind holder fun holder holder' later grows here => ?_
  obtain ⟨inside, rfl⟩ := here
  exact define_partner inside _ _

/-! ### Functions, classes and instances -/

theorem newFunction {closure closure' : Closure} (calls : twin.Calls closure closure') :
    twin.Agree (Run.newFunction closure) (Run.newFunction closure') Same := by
  let later : Pair :=
    ⟨{ twin.first with functions := twin.first.functions.push closure },
      { twin.second with functions := twin.second.functions.push closure' }, twin.partner⟩
  have grows : twin.Grows later := {}
  have functions : List.Forall₂ later.Calls (twin.first.functions.push closure).toList
      (twin.second.functions.push closure').toList := by
    rw [Array.toList_push, Array.toList_push]
    exact List.rel_append (twin.alike.functions_later grows) (.cons (grows.calls calls) .nil)
  have alike : later.Alike :=
    { twin.alike with functions, classes := twin.alike.classes_later grows }
  refine .ok ⟨later, alike⟩ rfl rfl grows ?_
  exact congrArg Value.function twin.alike.functions.length_eq

theorem newClass {name : String} {superclass : Option Nat} {methods methods' : Bindings Closure}
    (binds : twin.BindsAll methods methods') :
    twin.Agree (Run.newClass name superclass methods) (Run.newClass name superclass methods')
      Same := by
  let later : Pair :=
    ⟨{ twin.first with hierarchy := twin.first.hierarchy.push name superclass methods },
      { twin.second with hierarchy := twin.second.hierarchy.push name superclass methods' },
      twin.partner⟩
  have grows : twin.Grows later := {}
  have size : twin.second.hierarchy.classes.size = twin.first.hierarchy.classes.size :=
    twin.alike.classes.length_eq.symm
  have classes : List.Forall₂ later.Inherits
      (twin.first.hierarchy.push name superclass methods).classes.toList
      (twin.second.hierarchy.push name superclass methods').classes.toList := by
    rw [Hierarchy.push, Hierarchy.push, Array.toList_push, Array.toList_push]
    refine List.rel_append (twin.alike.classes_later grows) (.cons ?_ .nil)
    refine ⟨rfl, ?_, binds.imp fun _ _ here => ⟨here.1, grows.binds here.2⟩⟩
    simp only [Hierarchy.next, size]
  have alike : later.Alike :=
    { twin.alike with functions := twin.alike.functions_later grows, classes }
  exact .ok ⟨later, alike⟩ rfl rfl grows (congrArg Value.class_ size.symm)

theorem newInstance {class_ : Nat} :
    twin.Agree (Run.newInstance class_) (Run.newInstance class_) Same := by
  let later : Pair :=
    ⟨{ twin.first with instances := twin.first.instances.push ⟨class_, []⟩ },
      { twin.second with instances := twin.second.instances.push ⟨class_, []⟩ }, twin.partner⟩
  have grows : twin.Grows later := {}
  have alike : later.Alike :=
    { twin.alike with
      functions := twin.alike.functions_later grows
      classes := twin.alike.classes_later grows
      instances := congrArg (Array.push · ⟨class_, []⟩) twin.alike.instances }
  exact .ok ⟨later, alike⟩ rfl rfl grows (congrArg Array.size twin.alike.instances.symm)

theorem setField {id : Nat} {name : String} {value : Value} :
    twin.Agree (Run.setField id name value) (Run.setField id name value) Same := by
  let change (instances : Array Instance) : Array Instance :=
    instances.modify id fun old => { old with fields := old.fields.set name value }
  let later : Pair :=
    ⟨{ twin.first with instances := change twin.first.instances },
      { twin.second with instances := change twin.second.instances }, twin.partner⟩
  have grows : twin.Grows later := {}
  have alike : later.Alike :=
    { twin.alike with
      functions := twin.alike.functions_later grows
      classes := twin.alike.classes_later grows
      instances := congrArg change twin.alike.instances }
  exact .ok ⟨later, alike⟩ rfl rfl grows rfl

theorem print {value : Value} : twin.Agree (Run.print value) (Run.print value) Same := by
  let later : Pair :=
    ⟨{ twin.first with printed := twin.first.printed.push (twin.first.text value) },
      { twin.second with printed := twin.second.printed.push (twin.second.text value) },
      twin.partner⟩
  have grows : twin.Grows later := {}
  have printed : later.second.printed = later.first.printed := by
    show twin.second.printed.push (twin.second.text value) = _
    rw [twin.alike.printed, twin.alike.text]
  have alike : later.Alike :=
    { twin.alike with
      functions := twin.alike.functions_later grows
      classes := twin.alike.classes_later grows, printed }
  exact .ok ⟨later, alike⟩ rfl rfl grows rfl

/-- Binding methods makes functions. -/
theorem bindMethod {method method' : Closure} {id : Nat} (binds : twin.Binds method method') :
    twin.Agree (Run.bind method id) (Run.bind method' id) fun bound bound' later =>
      later.Calls bound bound' := by
  obtain ⟨initializer, shift, seen, shifts⟩ := binds
  refine .bind (newFrame seen) fun inner inner' later _ sees => ?_
  refine .bind (define sees rfl thisName (.instance_ id)) fun _ _ last more _ => ?_
  exact .pure ⟨initializer, under shift, more.sees sees, shifts, fun _ => rfl⟩

theorem newMethod {method method' : Closure} {id : Nat} (binds : twin.Binds method method') :
    twin.Agree (Run.bind method id >>= fun bound => Run.newFunction bound)
      (Run.bind method' id >>= fun bound => Run.newFunction bound) Same :=
  .bind (bindMethod binds) fun _ _ _ _ calls => newFunction calls

theorem getProperty {id : Nat} {name : Token} :
    twin.Agree (Run.getProperty id name) (Run.getProperty id name) Same := by
  refine .get ?_
  rw [twin.alike.instances]
  cases twin.first.instances[id]? with
  | none => exact throw
  | some found =>
      simp only
      cases found.fields.get? name.lexeme with
      | some value => exact .pure rfl
      | none =>
          rcases rel_cases (twin.alike.method? name.lexeme found.class_) with
            ⟨here, here'⟩ | ⟨_, _, here, here', binds⟩
          · simp only [here, here']
            exact .fail
          · simp only [here, here']
            exact newMethod binds

/-- The frame with `this` stays directly inside the one with `super`. -/
theorem superMethod {shift : Nat → Nat} {frame frame' : Nat} {keyword : Reference Hops}
    {name : Token} (sees : twin.Sees shift frame frame')
    (adjacent : ∀ hops ∈ keyword.target, Adjacent shift hops) :
    twin.Agree (Run.superMethod .direct frame keyword name)
      (Run.superMethod .direct frame' (keyword.shift shift) name) Same := by
  obtain ⟨token, target⟩ := keyword
  cases target with
  | none => exact throw
  | some hops =>
      have inner : shift hops - 1 = shift (hops - 1) := by
        cases hops with
        | zero => rw [show shift 0 = 0 from adjacent 0 rfl]
        | succ hops => rw [show shift (hops + 1) = shift hops + 1 from adjacent _ rfl]; rfl
      simp only [Run.superMethod, Reference.shift, Option.map_some, inner]
      refine .bind (getAt sees hops superName) ?_
      rintro superclass _ later grows rfl
      refine .bind (getAt (grows.sees sees) (hops - 1) thisName) ?_
      rintro this _ last more rfl
      cases superclass with
      | class_ parent =>
          cases this with
          | instance_ id =>
              refine .get ?_
              rcases rel_cases (last.alike.method? name.lexeme parent) with
                ⟨here, here'⟩ | ⟨_, _, here, here', binds⟩
              · simp only [here, here']
                exact .fail
              · simp only [here, here']
                exact newMethod binds
          | _ => exact throw
      | _ => exact throw

/-! ### Operators and calls -/

theorem applySign {sign : Sign} {token : Token} {value : Value} :
    twin.Agree (Run.applySign sign token value) (Run.applySign sign token value) Same := by
  unfold Run.applySign
  split
  · exact .pure rfl
  · exact .pure rfl
  · exact .fail

theorem applyNumeric {token : Token} {left right : Value} {op : Number → Number → Run Value}
    (agree : ∀ x y, twin.Agree (op x y) (op x y) Same) :
    twin.Agree (Run.applyNumeric token left right op) (Run.applyNumeric token left right op)
      Same := by
  unfold Run.applyNumeric
  split
  · exact agree _ _
  · exact .fail

theorem applyPlus {token : Token} {left right : Value} :
    twin.Agree (Run.applyPlus token left right) (Run.applyPlus token left right) Same := by
  unfold Run.applyPlus
  split
  iterate 4 exact .pure rfl
  exact .fail

theorem applyBinary {op : BinaryOp} {token : Token} {left right : Value} :
    twin.Agree (Run.applyBinary op token left right) (Run.applyBinary op token left right)
      Same := by
  cases op with
  | plus => exact applyPlus
  | equal => exact .pure rfl
  | notEqual => exact .pure rfl
  | divide =>
      refine applyNumeric fun x y => ?_
      by_cases zero : y.isZero = true
      · simp only [if_pos zero]
        exact .fail
      · simp only [if_neg zero]
        exact .pure rfl
  | _ => exact applyNumeric fun _ _ => .pure rfl

theorem checkCall {paren : Token} {callee : Value} {got : Nat} :
    twin.Agree (Run.checkCall paren callee got) (Run.checkCall paren callee got) Same := by
  refine .get ?_
  rw [twin.alike.arity?]
  cases twin.first.arity? callee with
  | none => exact .fail
  | some expected =>
      by_cases same : expected = got
      · simp only [if_pos same]
        exact .pure rfl
      · simp only [if_neg same]
        exact .fail

theorem readClock : twin.Agree Run.readClock Run.readClock Same := by
  let later : Pair :=
    ⟨{ twin.first with readings := twin.first.readings + 1 },
      { twin.second with readings := twin.second.readings + 1 }, twin.partner⟩
  have grows : twin.Grows later := {}
  have alike : later.Alike :=
    { twin.alike with
      functions := twin.alike.functions_later grows
      classes := twin.alike.classes_later grows
      readings := congrArg (· + 1) twin.alike.readings }
  refine .ok ⟨later, alike⟩ rfl rfl grows ?_
  show twin.first.clock.reading _ = twin.second.clock.reading _
  rw [twin.alike.clock, twin.alike.readings]

theorem callNative {id : Nat} {args : List Value} :
    twin.Agree (Run.callNative id args) (Run.callNative id args) Same := by
  refine .get ?_
  rw [twin.alike.natives, twin.alike.text]
  cases twin.first.natives[id]? with
  | none => exact throw
  | some native =>
      by_cases timed : native.timed = true
      · simp only [if_pos timed]
        refine .bind readClock ?_
        rintro time _ later _ rfl
        exact .pure rfl
      · simp only [if_neg timed]
        exact .pure rfl

theorem closureOf {id : Nat} :
    twin.Agree (Run.closureOf id) (Run.closureOf id) fun closure closure' later =>
      later.Calls closure closure' := by
  refine .get ?_
  rcases rel_cases (twin.alike.function? id) with ⟨here, here'⟩ | ⟨_, _, here, here', calls⟩
  · simp only [here, here']
    exact throw
  · simp only [here, here']
    exact .pure calls

theorem initializerOf {id : Nat} :
    twin.Agree (Run.initializerOf id) (Run.initializerOf id) fun method method' later =>
      Option.Rel later.Binds method method' :=
  .get (.pure (twin.alike.method? initName id))

theorem callResult {closure closure' : Closure} {completion : Completion}
    (calls : twin.Calls closure closure') :
    twin.Agree (Run.callResult .direct closure completion)
      (Run.callResult .direct closure' completion) Same := by
  obtain ⟨initializer, shift, sees, _, steady⟩ := calls
  unfold Run.callResult
  rw [initializer]
  by_cases initializes : closure.isInitializer = true
  · rw [if_pos initializes, if_pos initializes]
    have read := getAt sees 0 thisName
    rwa [steady initializes] at read
  · rw [if_neg initializes, if_neg initializes]
    exact .pure rfl

/-! ### Classes -/

theorem superclassOf {shift : Nat → Nat} {frame frame' : Nat} (sees : twin.Sees shift frame frame')
    (reference : Reference Hops) :
    twin.Agree (Run.superclassOf .direct frame reference)
      (Run.superclassOf .direct frame' (reference.shift shift)) Same := by
  refine .bind (follow sees reference) ?_
  rintro value _ later _ rfl
  cases value with
  | class_ id => exact .pure rfl
  | _ => exact .fail

/-- The methods of a class can be bound in place of each other. -/
theorem methodsIn {shift : Nat → Nat} {frame frame' : Nat} (sees : twin.Sees shift frame frame')
    {methods methods' : List (Function Hops)}
    (shifts : ShiftsMethods (under (under shift)) methods methods') :
    twin.BindsAll (Run.methodsIn frame methods) (Run.methodsIn frame' methods') := by
  refine List.rel_foldl ?_ .nil shifts.forall₂
  intro bindings bindings' binds method method' shifts
  simp only [shifts.head.1]
  exact binds.set _ ⟨rfl, shift, sees, shifts⟩

theorem declareClass_plain {shift : Nat → Nat} {frame frame' : Nat}
    (sees : twin.Sees shift frame frame') (steady : shift 0 = 0) {name : Token}
    {methods methods' : List (Function Hops)}
    (shifts : ShiftsMethods (under (under shift)) methods methods') :
    twin.Agree (Run.declareClass .direct frame name none methods)
      (Run.declareClass .direct frame' name none methods') Same := by
  refine .bind (define sees steady _ _) fun _ _ first grows _ => ?_
  have sees := grows.sees sees
  refine .bind (newClass (methodsIn sees shifts)) ?_
  rintro made _ second grows rfl
  exact define (grows.sees sees) steady _ _

theorem declareClass_derived {shift : Nat → Nat} {frame frame' : Nat}
    (sees : twin.Sees shift frame frame') (steady : shift 0 = 0) {name : Token}
    {parent : Reference Hops} {methods methods' : List (Function Hops)}
    (shifts : ShiftsMethods (under (under (under shift))) methods methods') :
    twin.Agree (Run.declareClass .direct frame name (some parent) methods)
      (Run.declareClass .direct frame' name (some (parent.shift shift)) methods') Same := by
  refine .bind (superclassOf sees parent) ?_
  rintro superclass _ first grows rfl
  have sees := grows.sees sees
  refine .bind (define sees steady _ _) fun _ _ second grows _ => ?_
  have sees := grows.sees sees
  refine .bind (newFrame sees) fun inner inner' third grows entered => ?_
  have sees := grows.sees sees
  refine .bind (define entered rfl _ _) fun _ _ fourth grows _ => ?_
  refine .bind (newClass (methodsIn (grows.sees entered) shifts)) ?_
  rintro made _ fifth more rfl
  exact define ((grows.trans more).sees sees) steady _ _

/-! ### Sequences and loops -/

theorem untilReturn {shift : Nat → Nat} {frame frame' : Nat}
    {step step' : Nat → Stmt Hops → Run Completion} {body body' : List (Stmt Hops)}
    (executes : ∀ {twin : Twin} {stmt stmt' : Stmt Hops}, twin.Sees shift frame frame' →
      stmt.Shifts shift stmt' → twin.Agree (step frame stmt) (step' frame' stmt') Same)
    (sees : twin.Sees shift frame frame') (shifts : ShiftsIn shift body body') :
    twin.Agree (Run.untilReturn (step frame) body) (Run.untilReturn (step' frame') body') Same := by
  induction body generalizing body' twin with
  | nil =>
      cases shifts with
      | nil => exact .pure rfl
  | cons stmt more ih =>
      cases shifts with
      | cons here rest =>
          refine .bind (executes sees here) ?_
          rintro completion _ later grows rfl
          cases completion with
          | some value => exact .pure rfl
          | none => exact ih (grows.sees sees) rest

theorem collect {γ : Type} {R : γ → γ → Prop} {step step' : γ → Run Value} {items items' : List γ}
    {invariant : Twin → Prop} (all : List.Forall₂ R items items')
    (stable : ∀ {twin later : Twin}, twin.Grows later.toPair → invariant twin → invariant later)
    (one : ∀ {twin : Twin} {item item' : γ}, invariant twin → R item item' →
      twin.Agree (step item) (step' item') Same)
    (here : invariant twin) :
    twin.Agree (Run.collect step items) (Run.collect step' items') Same := by
  induction all generalizing twin with
  | nil => exact .pure rfl
  | cons first _ ih =>
      refine .bind (one here first) ?_
      rintro value _ later grows rfl
      refine .bind (ih (stable grows here)) ?_
      rintro values _ last _ rfl
      exact .pure rfl

theorem loop {cond cond' : Run Value} {body body' : Run Completion} {invariant : Twin → Prop}
    (stable : ∀ {twin later : Twin}, twin.Grows later.toPair → invariant twin → invariant later)
    (tests : ∀ {twin : Twin}, invariant twin → twin.Agree cond cond' Same)
    (turns : ∀ {twin : Twin}, invariant twin → twin.Agree body body' Same)
    (here : invariant twin) (fuel : Nat) :
    twin.Agree (Run.loop cond body fuel) (Run.loop cond' body' fuel) Same := by
  induction fuel generalizing twin with
  | zero => exact throw
  | succ fuel ih =>
      refine .bind (tests here) ?_
      rintro test _ later grows rfl
      by_cases truthy : test.isTruthy = true
      · simp only [if_pos truthy]
        refine .bind (turns (stable grows here)) ?_
        rintro completion _ last more rfl
        cases completion with
        | some value => exact .pure rfl
        | none => exact ih (stable more (stable grows here))
      · simp only [if_neg truthy]
        exact .pure rfl

/-- **Calling functions** in place of each other. -/
theorem invoke {step : Nat → Stmt Hops → Run Completion}
    (executes : ∀ {twin : Twin} {shift : Nat → Nat} {frame frame' : Nat} {stmt stmt' : Stmt Hops},
      twin.Sees shift frame frame' → stmt.Shifts shift stmt' →
        twin.Agree (step frame stmt) (step frame' stmt') Same)
    {closure closure' : Closure} (calls : twin.Calls closure closure') (args : List Value) :
    twin.Agree (Run.invoke .direct step closure args) (Run.invoke .direct step closure' args)
      Same := by
  obtain ⟨shift, sees, shifts, steady⟩ := calls.code
  obtain ⟨⟨name, params, body⟩, frame, isInitializer⟩ := closure
  obtain ⟨decl', frame', isInitializer'⟩ := closure'
  cases shifts with
  | mk shifts =>
      refine .bind (newFrame sees) fun inner inner' first early entered => ?_
      refine .bind (defineAll entered rfl params args) fun _ _ second grows _ => ?_
      refine .bind (untilReturn executes (grows.sees entered) shifts) ?_
      rintro completion _ third more rfl
      exact callResult (((early.trans grows).trans more).calls calls)

end Agree

/-! ### Trees -/

/-- Trees that are the same up to a shift agree, with some room for nested evaluation. -/
structure Agreeing (fuel room : Nat) : Prop where
  expr : ∀ {twin : Twin} {shift : Nat → Nat} {frame frame' : Nat} {expr expr' : Expr Hops},
    twin.Sees shift frame frame' → expr.Shifts shift expr' →
      twin.Agree (expr.eval .direct fuel room frame) (expr'.eval .direct fuel room frame') Same
  stmt : ∀ {twin : Twin} {shift : Nat → Nat} {frame frame' : Nat} {stmt stmt' : Stmt Hops},
    twin.Sees shift frame frame' → stmt.Shifts shift stmt' →
      twin.Agree (stmt.exec .direct fuel room frame) (stmt'.exec .direct fuel room frame') Same
  call : ∀ {twin : Twin} (callee : Value) (args : List Value),
    twin.Agree (callValue .direct fuel room callee args) (callValue .direct fuel room callee args)
      Same

section Trees

variable {fuel room : Nat} (agreeing : Agreeing fuel room) {twin : Twin} {shift : Nat → Nat}
  {frame frame' : Nat}

include agreeing

theorem eval_agrees (sees : twin.Sees shift frame frame') {expr expr' : Expr Hops}
    (shifts : expr.Shifts shift expr') :
    twin.Agree (expr.eval .direct fuel (room + 1) frame)
      (expr'.eval .direct fuel (room + 1) frame') Same := by
  cases shifts with
  | assign same value =>
      subst same
      refine .bind (agreeing.expr sees value) ?_
      rintro value _ later grows rfl
      exact .bind (.assign (grows.sees sees) _ value) fun _ _ _ _ _ => .pure rfl
  | binary left right =>
      refine .bind (agreeing.expr sees left) ?_
      rintro left _ later grows rfl
      refine .bind (agreeing.expr (grows.sees sees) right) ?_
      rintro right _ last _ rfl
      exact .applyBinary
  | call callee args =>
      refine .bind (agreeing.expr sees callee) ?_
      rintro callee _ later grows rfl
      refine .bind (.collect args (fun grows => grows.sees) agreeing.expr (grows.sees sees)) ?_
      rintro args _ last _ rfl
      exact .bind .checkCall fun _ _ _ _ _ => agreeing.call callee args
  | get object =>
      refine .bind (agreeing.expr sees object) ?_
      rintro object _ later _ rfl
      cases object with
      | instance_ id => exact .getProperty
      | _ => exact .fail
  | grouping inner => exact agreeing.expr sees inner
  | literal => exact .pure rfl
  | @logical left left' right right' op token first second =>
      refine .bind (agreeing.expr sees first) ?_
      rintro left _ later grows rfl
      by_cases short : shortCircuits op left = true
      · simp only [if_pos short]
        exact .pure rfl
      · simp only [if_neg short]
        exact agreeing.expr (grows.sees sees) second
  | set object value =>
      refine .bind (agreeing.expr sees object) ?_
      rintro object _ later grows rfl
      cases object with
      | instance_ id =>
          refine .bind (agreeing.expr (grows.sees sees) value) ?_
          rintro value _ last _ rfl
          exact .bind .setField fun _ _ _ _ _ => .pure rfl
      | _ => exact .fail
  | super same adjacent =>
      subst same
      exact .superMethod sees adjacent
  | this same =>
      subst same
      exact .follow sees _
  | unary right =>
      refine .bind (agreeing.expr sees right) ?_
      rintro right _ later _ rfl
      exact .applySign
  | var same =>
      subst same
      exact .follow sees _

theorem exec_agrees (sees : twin.Sees shift frame frame') {stmt stmt' : Stmt Hops}
    (shifts : stmt.Shifts shift stmt') :
    twin.Agree (stmt.exec .direct fuel (room + 1) frame)
      (stmt'.exec .direct fuel (room + 1) frame') Same := by
  cases shifts with
  | block body =>
      refine .bind (.newFrame sees) fun inner inner' later _ entered => ?_
      exact .untilReturn agreeing.stmt entered body
  | @function _ decl decl' steady shifts =>
      have calls : twin.Calls ⟨decl, frame, false⟩ ⟨decl', frame', false⟩ :=
        ⟨rfl, shift, sees, shifts, Bool.noConfusion⟩
      refine .bind (.newFunction calls) ?_
      rintro made _ later grows rfl
      rw [shifts.head.1]
      exact .bind (.define (grows.sees sees) steady _ made) fun _ _ _ _ _ => .pure rfl
  | plain steady methods =>
      exact .bind (.declareClass_plain sees steady methods) fun _ _ _ _ _ => .pure rfl
  | derived steady same methods =>
      subst same
      exact .bind (.declareClass_derived sees steady methods) fun _ _ _ _ _ => .pure rfl
  | expression value => exact .bind (agreeing.expr sees value) fun _ _ _ _ _ => .pure rfl
  | ifThen cond yes =>
      refine .bind (agreeing.expr sees cond) ?_
      rintro test _ later grows rfl
      by_cases truthy : test.isTruthy = true
      · simp only [if_pos truthy]
        exact agreeing.stmt (grows.sees sees) yes
      · simp only [if_neg truthy]
        exact .pure rfl
  | ifElse cond yes no =>
      refine .bind (agreeing.expr sees cond) ?_
      rintro test _ later grows rfl
      by_cases truthy : test.isTruthy = true
      · simp only [if_pos truthy]
        exact agreeing.stmt (grows.sees sees) yes
      · simp only [if_neg truthy]
        exact agreeing.stmt (grows.sees sees) no
  | print value =>
      refine .bind (agreeing.expr sees value) ?_
      rintro value _ later _ rfl
      exact .bind .print fun _ _ _ _ _ => .pure rfl
  | return_ value =>
      cases value with
      | none => exact .pure rfl
      | some value =>
          refine .bind (agreeing.expr sees value) ?_
          rintro value _ later _ rfl
          exact .pure rfl
  | var steady init =>
      cases init with
      | none => exact .bind (.define sees steady _ _) fun _ _ _ _ _ => .pure rfl
      | some init =>
          refine .bind (agreeing.expr sees init) ?_
          rintro value _ later grows rfl
          exact .bind (.define (grows.sees sees) steady _ value) fun _ _ _ _ _ => .pure rfl
  | while_ cond body =>
      exact .loop (fun grows => grows.sees) (fun sees => agreeing.expr sees cond)
        (fun sees => agreeing.stmt sees body) sees fuel

theorem call_agrees (callee : Value) (args : List Value) :
    twin.Agree (callValue .direct fuel (room + 1) callee args)
      (callValue .direct fuel (room + 1) callee args) Same := by
  cases callee with
  | native id => exact .callNative
  | function id =>
      exact .bind .closureOf fun _ _ _ _ calls => .invoke agreeing.stmt calls args
  | class_ id =>
      refine .bind .newInstance ?_
      rintro made _ later _ rfl
      refine .bind .initializerOf fun method method' last _ found => ?_
      cases found with
      | none => exact .pure rfl
      | some binds =>
          refine .bind (.bindMethod binds) fun bound bound' _ _ calls => ?_
          exact .bind (.invoke agreeing.stmt calls args) fun _ _ _ _ _ => .pure rfl
  | _ => exact .throw

end Trees

/-- **Trees that are the same up to a shift agree.** -/
theorem agreeing (fuel room : Nat) : Agreeing fuel room := by
  induction room with
  | zero => exact ⟨fun _ _ => .throw, fun _ _ => .throw, fun _ _ => .throw⟩
  | succ room ih =>
      exact ⟨fun sees shifts => eval_agrees ih sees shifts,
        fun sees shifts => exec_agrees ih sees shifts, call_agrees ih⟩

end Twin

end Lox
