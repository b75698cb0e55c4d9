/-
**Evaluation.** Running trees whose references are in order.

* `Lookup.Follows` says when another way to find names does the same as going by what resolution has
  found out: on every world, for every reference that is in order.
* `Lookup.Follows.evaluates`: running expressions, statements and calls with the one or the other
  then comes to the same, it does not fail in a way that a program cannot bring about, and it leaves
  a world behind.

The induction is on the room for nested evaluation. What it carries through a body is that the
frames fit what is known behind each statement (`Stmt.after`).
-/

import Lox.Proofs.Steps

namespace Lox

open Layer
open World (Held Returned)

/-- Another way to find names that comes to the same, as long as references are in order. -/
structure Lookup.Follows (other : Lookup) (ok : Site Hops → Prop) : Prop where
  leads : ∀ {site}, ok site → site.Leads
  bound : ∀ {world : World ok} {frame hops : Nat} {name : String} {layers : List Layer},
    world.Spans (· = name) frame layers → Sure name layers hops →
      other.bound frame hops name world.machine = Run.getAt frame hops name world.machine
  read : ∀ {world : World ok} {frame : Nat} {site : Site Hops}, ok site → site.use = .read →
    world.Spans (· = site.reference.token.lexeme) frame site.layers →
      other.read frame site.reference world.machine =
        Lookup.direct.read frame site.reference world.machine
  write : ∀ {world : World ok} {frame : Nat} {site : Site Hops} (value : Value), ok site →
    site.use = .assign → world.Fits frame site.layers →
      other.write frame site.reference value world.machine =
        Run.assign frame site.reference value world.machine

theorem Lookup.direct_follows {ok : Site Hops → Prop} (leads : ∀ site, ok site → site.Leads) :
    Lookup.direct.Follows ok where
  leads {site} := leads site
  bound _ _ := rfl
  read _ _ _ := rfl
  write _ _ _ _ := rfl

variable {ok : Site Hops → Prop} {world : World ok}

/-! ### Names -/

namespace World.Meets

theorem getAt {frame hops : Nat} {name : String} {layers : List Layer}
    (spans : world.Spans (· = name) frame layers) (sure : Sure name layers hops) :
    world.Ensures (Run.getAt frame hops name) fun value later =>
      later.Holds value ∧ value.Befits name := by
  obtain ⟨value, found, result⟩ := world.sound.getAt spans sure
  refine .get ?_
  rw [found]
  exact .pure result

theorem getGlobal {name : Token} : world.Ensures (Run.getGlobal name) Held := by
  refine .get ?_
  cases found : world.machine.store.get? Machine.globals name.lexeme with
  | none => exact .fail
  | some value =>
      unfold Store.get? at found
      split at found
      · cases found
      · exact .pure (world.sound.bindings _ _ _ found).holds

theorem read {frame : Nat} {reference : Reference Hops} {layers : List Layer}
    (spans : world.Spans (· = reference.token.lexeme) frame layers)
    (leads : ∀ hops, reference.target = some hops → Sure reference.token.lexeme layers hops) :
    world.Ensures (Lookup.direct.read frame reference) Held := by
  simp only [Lookup.direct, Lookup.follow]
  cases target : reference.target with
  | none => exact getGlobal
  | some hops => exact (getAt spans (leads hops target)).weaken fun _ _ _ result => result.1

theorem assign {frame : Nat} {reference : Reference Hops} {value : Value} {layers : List Layer}
    (fits : world.Fits frame layers) (proper : ProperName reference.token.lexeme)
    (leads : ∀ hops, reference.target = some hops →
      ∃ layer, layers[hops]? = some layer ∧ layer.scope.declares reference.token.lexeme = true)
    (holds : world.Holds value) :
    world.Ensures (Run.assign frame reference value) fun _ _ => True := by
  have befits := Value.Befits.of_proper proper value
  have holder : world.Ensures (Run.holderOf frame reference)
      fun holder later => later = world ∧ ∃ layers, world.Fits holder layers ∧
        ∀ layer ∈ layers.head?, layer.scope.declares reference.token.lexeme = true := by
    refine .get ?_
    cases target : reference.target with
    | some hops =>
        obtain ⟨layer, at_, declares⟩ := leads hops target
        obtain ⟨holder, more, walked, here⟩ := fits.frameAt at_
        simp only [walked]
        refine .pure ⟨rfl, _, here, ?_⟩
        rintro _ ⟨⟩
        exact declares
    | none =>
        cases found : world.machine.store.holder? reference.token.lexeme Machine.globals with
        | none => exact .fail
        | some holder =>
            refine .pure ⟨rfl, [], Store.eq_of_holder?_root world.sound.root found, ?_⟩
            exact nofun
  refine .bind holder fun holder later _ result => ?_
  obtain ⟨rfl, layers, here, hosts⟩ := result
  exact (define here hosts befits holds).weaken fun _ _ _ _ => trivial

/-- Something else that comes to the same at a machine. -/
theorem follow {α : Type} {run other : Run α} {post : α → World ok → Prop}
    (meets : world.Ensures run post) (same : other world.machine = run world.machine) :
    world.Meets run other post :=
  ⟨same, meets.ends⟩

end World.Meets

section Names

variable {other : Lookup} (follows : other.Follows ok)

include follows

theorem Lookup.Follows.bound_meets {frame hops : Nat} {name : String} {layers : List Layer}
    (fits : world.Fits frame layers) (sure : Sure name layers hops) :
    world.Meets (Run.getAt frame hops name) (other.bound frame hops name) fun value later =>
      Held value later ∧ value.Befits name :=
  (World.Meets.getAt fits.weaken sure).follow (follows.bound fits.weaken sure)

theorem Lookup.Follows.read_meets {frame : Nat} {name : Reference Hops} {layers : List Layer}
    (fine : ok ⟨.read, name, layers⟩) (spans : world.Spans (· = name.token.lexeme) frame layers) :
    world.Meets (Lookup.direct.read frame name) (other.read frame name) Held :=
  (World.Meets.read spans (follows.leads fine)).follow (follows.read fine rfl spans)

theorem Lookup.Follows.write_meets {frame : Nat} {target : Reference Hops} {value : Value}
    {layers : List Layer} (fine : ok ⟨.assign, target, layers⟩) (fits : world.Fits frame layers)
    (holds : world.Holds value) :
    world.Meets (Lookup.direct.write frame target value) (other.write frame target value)
      fun _ _ => True := by
  obtain ⟨proper, leads⟩ := follows.leads fine
  exact (World.Meets.assign fits proper leads holds).follow (follows.write value fine rfl fits)

theorem superMethod_meets {frame : Nat} {keyword : Reference Hops} {name : Token}
    {layers : List Layer} (fits : world.Fits frame layers) (fine : ok ⟨.super, keyword, layers⟩) :
    world.Meets (Run.superMethod .direct frame keyword name)
      (Run.superMethod other frame keyword name) Held := by
  obtain ⟨hops, target, super, this⟩ := follows.leads fine
  have target : keyword.target = some (hops + 1) := target
  simp only [Run.superMethod, target, Nat.add_sub_cancel]
  refine .bind (follows.bound_meets fits super) fun superclass later grows known => ?_
  refine .bind (follows.bound_meets (grows.spans fits) this) fun this last more known' => ?_
  obtain ⟨superclass, rfl⟩ := known.2.super rfl
  obtain ⟨this, rfl⟩ := known'.2.this rfl
  refine .get ?_
  cases found : last.machine.hierarchy.method? name.lexeme superclass with
  | none => exact .fail
  | some method => exact .newMethod (last.sound.method? found) known'.1

theorem this_meets {frame : Nat} {keyword : Reference Hops} {layers : List Layer}
    (fits : world.Fits frame layers) (fine : ok ⟨.this, keyword, layers⟩) :
    world.Meets (Lookup.follow Lookup.direct.bound frame keyword)
      (Lookup.follow other.bound frame keyword) Held := by
  obtain ⟨same, hops, target, sure⟩ := follows.leads fine
  have same : keyword.token.lexeme = thisName := same
  have target : keyword.target = some hops := target
  simp only [Lookup.follow, target, same]
  exact (follows.bound_meets fits sure).weaken fun _ _ _ result => result.1

end Names

/-! ### Classes and calls -/

/-- A statement that can run where some layers are known. -/
structure Stmt.Ready (ok : Site Hops → Prop) (layers : List Layer) (stmt : Stmt Hops) : Prop where
  sites : ∀ site ∈ stmt.sites layers, ok site
  accepted : stmt.Each Accepted
  hosts : ∀ name ∈ stmt.declared?, Hosts layers name

/-- The methods of a class are those that were declared, in the frame in which they were made. -/
theorem Run.mem_methodsIn {frame : Nat} {methods : List (Function Hops)}
    {binding : String × Closure} (member : binding ∈ Run.methodsIn frame methods) :
    ∃ method ∈ methods, binding.2 = ⟨method, frame, method.name.lexeme == initName⟩ := by
  unfold Run.methodsIn at member
  suffices any : ∀ bindings : Bindings Closure,
      binding ∈ methods.foldl (fun bindings method => bindings.set method.name.lexeme
        ⟨method, frame, method.name.lexeme == initName⟩) bindings →
      binding ∈ bindings ∨
        ∃ method ∈ methods, binding.2 = ⟨method, frame, method.name.lexeme == initName⟩ from
    (any [] member).resolve_left List.not_mem_nil
  clear member
  induction methods with
  | nil => exact fun bindings member => .inl member
  | cons method methods ih =>
      intro bindings member
      rcases ih _ member with early | ⟨later, inside, same⟩
      · rcases Bindings.mem_set early with rfl | old
        · exact .inr ⟨method, List.mem_cons_self, rfl⟩
        · exact .inl old
      · exact .inr ⟨later, List.mem_cons_of_mem _ inside, same⟩

/-- Methods that were made in a frame can be bound. -/
theorem Heap.Spans.bindable {heap : Heap} {frame : Nat} {layers : List Layer}
    (fits : heap.Fits frame layers) {methods : List (Function Hops)}
    (sites : ∀ site ∈ sitesInMethods (Layer.only thisName :: layers) methods, ok site)
    (accepted : eachMethod Accepted methods) :
    ∀ binding ∈ Run.methodsIn frame methods, heap.Bindable ok binding.2 := by
  rintro ⟨name, method⟩ inside
  obtain ⟨decl, member, rfl⟩ := Run.mem_methodsIn inside
  refine ⟨layers, fits, fun site here => sites site ?_, eachMethod_iff.mp accepted _ member⟩
  rw [sitesInMethods_eq]
  exact List.mem_flatMap.mpr ⟨_, member, here⟩

section Calls

variable {other : Lookup} (follows : other.Follows ok)

include follows

/-- The superclass is read before the name of the class is bound, but that is another name. -/
theorem superclassOf_meets {frame : Nat} {name : Token} {parent : Reference Hops}
    {layers : List Layer} (fits : world.Fits frame layers)
    (fine : ok ⟨.read, parent, learn name.lexeme layers⟩)
    (different : parent.token.lexeme ≠ name.lexeme) :
    world.Meets (Run.superclassOf .direct frame parent) (Run.superclassOf other frame parent)
      fun id later => later.Holds (.class_ id) := by
  have spans : world.Spans (· = parent.token.lexeme) frame (learn name.lexeme layers) :=
    fits.weaken.learn fun same => absurd same.symm different
  refine .bind (follows.read_meets fine spans) fun value later _ holds => ?_
  cases value with
  | class_ id => exact .pure holds
  | _ => exact .fail

theorem declareClass_meets {frame : Nat} {name : Token} {superclass : Option (Reference Hops)}
    {methods : List (Function Hops)} {layers : List Layer} (fits : world.Fits frame layers)
    (ready : (Stmt.class_ name superclass methods).Ready ok layers) :
    world.Meets (Run.declareClass .direct frame name superclass methods)
      (Run.declareClass other frame name superclass methods) fun _ later =>
        later.Fits frame (learn name.lexeme layers) := by
  have hosts := ready.hosts name rfl
  have proper := hosts.1
  obtain ⟨parents, bodies⟩ := List.forall_mem_append.mp ready.sites
  -- The name of the class is bound before the class is made, so its methods fit their frame.
  cases superclass with
  | none =>
      refine .bind (.define fits hosts.2 (.of_proper proper .nil) trivial) fun _ first _ known => ?_
      have bindable := known.bindable bodies ready.accepted.2
      refine .bind (.newClass bindable) fun made next grows result => ?_
      have known := grows.spans known
      refine .weaken (.define known (hosts.learn _).2 (.of_proper proper _) result) ?_
      exact fun _ _ grows _ => grows.spans known
  | some parent =>
      have read := superclassOf_meets follows fits (List.forall_mem_singleton.mp parents)
        ready.accepted.1.2
      refine .bind read fun parent first grows holds => ?_
      have fits := grows.spans fits
      refine .bind (.define fits hosts.2 (.of_proper proper .nil) trivial)
        fun _ next more known => ?_
      have holds := more.holds holds
      refine .bind (.newFrame known (.only superName)) fun inner next grows inside => ?_
      refine .bind (.define inside ?_ (.class_ parent) (grows.holds holds))
        fun _ next more inside => ?_
      · rintro _ ⟨⟩
        simp [LocalScope.only, LocalScope.declares]
      · have bindable := inside.bindable bodies ready.accepted.2
        refine .bind (.newClass bindable) fun made last most result => ?_
        have known := ((grows.trans more).trans most).spans known
        refine .weaken (.define known (hosts.learn _).2 (.of_proper proper _) result) ?_
        exact fun _ _ grows _ => grows.spans known

theorem callResult_meets {closure : Closure} {completion : Completion} {layers : List Layer}
    (fits : world.Fits closure.frame layers)
    (initializes : closure.isInitializer = true → Sure thisName layers 0)
    (returns : ∀ value ∈ completion, world.Holds value) :
    world.Meets (Run.callResult .direct closure completion)
      (Run.callResult other closure completion) Held := by
  unfold Run.callResult
  by_cases initializer : closure.isInitializer = true
  · simp only [if_pos initializer]
    refine .weaken (follows.bound_meets fits (initializes initializer)) ?_
    exact fun _ _ _ result => result.1
  · simp only [if_neg initializer]
    cases completion with
    | none => exact .pure trivial
    | some value => exact .pure (returns value rfl)

end Calls

/-! ### Bodies -/

/-- Two ways to execute statements come to the same. -/
def Executes (ok : Site Hops → Prop) (step step' : (frame : Nat) → Stmt Hops → Run Completion) :
    Prop :=
  ∀ {world : World ok} {frame : Nat} {layers : List Layer} {stmt : Stmt Hops},
    world.Fits frame layers → stmt.Ready ok layers →
      world.Meets (step frame stmt) (step' frame stmt) fun completion later =>
        Returned completion later ∧ later.Fits frame (stmt.after layers)

/-- Statements that can run one after the other where some layers are known. -/
structure Ready (ok : Site Hops → Prop) (layers : List Layer) (body : List (Stmt Hops)) : Prop where
  sites : ∀ site ∈ sitesIn layers body, ok site
  accepted : eachIn Accepted body
  hosts : ∀ stmt ∈ body, ∀ name ∈ stmt.declared?, Hosts layers name

namespace Ready

variable {layers : List Layer} {stmt : Stmt Hops} {more : List (Stmt Hops)}

theorem head (ready : Ready ok layers (stmt :: more)) : stmt.Ready ok layers :=
  ⟨(List.forall_mem_append.mp ready.sites).1, ready.accepted.1,
    ready.hosts stmt List.mem_cons_self⟩

theorem tail (ready : Ready ok layers (stmt :: more)) : Ready ok (stmt.after layers) more :=
  ⟨(List.forall_mem_append.mp ready.sites).2, ready.accepted.2, fun other member name declared =>
    (ready.hosts other (List.mem_cons_of_mem _ member) name declared).after stmt⟩

/-- The body of a block or a function, in a scope of its own. -/
theorem ofBody {params : List Token} {body : List (Stmt Hops)}
    (sites : ∀ site ∈ sitesIn (entering params body :: layers) body, ok site)
    (accepted : eachIn Accepted body) : Ready ok (entering params body :: layers) body where
  sites := sites
  accepted := accepted
  hosts stmt member name declared :=
    .of_mem layers member declared ((eachIn_iff.mp accepted stmt member).here.1.names name declared)

end Ready

section Bodies

variable {step step' : (frame : Nat) → Stmt Hops → Run Completion}
  (executes : Executes ok step step')

include executes

theorem untilReturn_meets {frame : Nat} {layers : List Layer} {body : List (Stmt Hops)}
    (fits : world.Fits frame layers) (ready : Ready ok layers body) :
    world.Meets (Run.untilReturn (step frame) body) (Run.untilReturn (step' frame) body)
      Returned := by
  induction body generalizing layers world with
  | nil => exact .pure nofun
  | cons stmt more ih =>
      refine .bind (executes fits ready.head) fun completion later _ result => ?_
      cases completion with
      | some value => exact .pure result.1
      | none => exact ih result.2 ready.tail

/-- **Calling a function**: its parameters are bound, its body runs, and there is a result. -/
theorem invoke_meets {other : Lookup} (follows : other.Follows ok) {closure : Closure}
    {args : List Value} (callable : world.Callable ok closure)
    (given : ∀ arg ∈ args, world.Holds arg)
    (paired : closure.decl.params.length = args.length) :
    world.Meets (Run.invoke .direct step closure args) (Run.invoke other step' closure args)
      Held := by
  obtain ⟨⟨name, params, body⟩, frame, isInitializer⟩ := closure
  obtain ⟨layers, fits, runs, initializes⟩ := callable
  refine .bind (.newFrame fits (.ofBody params body)) fun inner first grows inside => ?_
  have hosts : ∀ param ∈ params, (LocalScope.ofBody params body).declares param.lexeme = true ∧
      ProperName param.lexeme := fun param member =>
    have host := Hosts.of_param layers (by rfl) member (runs.accepted.1 param member)
    ⟨host.2 (entering params body) rfl, host.1⟩
  refine .bind (.defineAll inside hosts (fun arg member => grows.holds (given arg member)) paired)
    fun _ second more inside => ?_
  rw [List.append_nil] at inside
  refine .bind (untilReturn_meets executes inside (.ofBody runs.sites runs.accepted.2))
    fun completion third most returns => ?_
  exact callResult_meets follows (((grows.trans more).trans most).spans fits) initializes returns

end Bodies

/-! ### Trees -/

/-- An expression that can be evaluated where some layers are known. -/
def Expr.Ready (ok : Site Hops → Prop) (layers : List Layer) (expr : Expr Hops) : Prop :=
  ∀ site ∈ place layers expr.references, ok site

theorem place_append {ρ : Type} (layers : List Layer) (first second : List (Use × Reference ρ)) :
    place layers (first ++ second) = place layers first ++ place layers second :=
  List.map_append

/-- Two expressions that can be evaluated. -/
theorem ready_append {layers : List Layer} {first second : List (Use × Reference Hops)} :
    (∀ site ∈ place layers (first ++ second), ok site) ↔
      (∀ site ∈ place layers first, ok site) ∧ ∀ site ∈ place layers second, ok site := by
  rw [place_append, List.forall_mem_append]

/-- Arguments that can be evaluated. -/
theorem ready_arguments {layers : List Layer} {args : List (Expr Hops)}
    (ready : ∀ site ∈ place layers (argumentReferences args), ok site) (arg : Expr Hops)
    (member : arg ∈ args) : arg.Ready ok layers :=
  fun site here => ready site (List.map_subset _ (references_subset_arguments member) here)

/-- **Running with one lookup or another comes to the same**, with some room for nested
evaluation. -/
structure Evaluates (other : Lookup) (ok : Site Hops → Prop) (fuel room : Nat) : Prop where
  expr : ∀ {world : World ok} {frame : Nat} {layers : List Layer} {expr : Expr Hops},
    world.Fits frame layers → expr.Ready ok layers →
      world.Meets (expr.eval .direct fuel room frame) (expr.eval other fuel room frame) Held
  stmt : Executes ok (Stmt.exec .direct fuel room) (Stmt.exec other fuel room)
  call : ∀ {world : World ok} {callee : Value} {args : List Value},
    world.Holds callee → (∀ arg ∈ args, world.Holds arg) →
      world.machine.arity? callee = some args.length →
      world.Meets (callValue .direct fuel room callee args) (callValue other fuel room callee args)
        Held

section Trees

variable {other : Lookup} (follows : other.Follows ok) {fuel room : Nat}
  (evaluates : Evaluates other ok fuel room)

include follows evaluates

theorem Expr.eval_meets {frame : Nat} {layers : List Layer} (fits : world.Fits frame layers)
    (expr : Expr Hops) (ready : expr.Ready ok layers) :
    world.Meets (expr.eval .direct fuel (room + 1) frame) (expr.eval other fuel (room + 1) frame)
      Held := by
  cases expr with
  | assign target value =>
      obtain ⟨fine, rest⟩ := List.forall_mem_cons.mp ready
      simp only [Expr.eval]
      refine .bind (evaluates.expr fits rest) fun value later grows holds => ?_
      refine .bind (follows.write_meets fine (grows.spans fits) holds) fun _ last more _ => ?_
      exact .pure (more.holds holds)
  | binary left op token right =>
      obtain ⟨first, second⟩ := ready_append.mp ready
      simp only [Expr.eval]
      refine .bind (evaluates.expr fits first) fun left later grows _ => ?_
      refine .bind (evaluates.expr (grows.spans fits) second) fun right last _ _ => ?_
      exact .applyBinary
  | call callee paren args =>
      obtain ⟨first, rest⟩ := ready_append.mp ready
      simp only [Expr.eval]
      refine .bind (evaluates.expr fits first) fun callee later grows holds => ?_
      have given : later.Meets (Run.collect (fun arg => arg.eval .direct fuel room frame) args)
          (Run.collect (fun arg => arg.eval other fuel room frame) args) fun values last =>
            ∀ value ∈ values, last.Holds value :=
        .collect (fun grows (fits : Heap.Fits _ frame layers) => grows.spans fits)
          (fun arg member _ fits => evaluates.expr fits (ready_arguments rest arg member))
          (grows.spans fits)
      refine .bind given fun values next more given => ?_
      refine .bind .checkCall fun _ last most paired => ?_
      exact evaluates.call ((more.trans most).holds holds)
        (fun value member => most.holds (given value member)) paired
  | get object name =>
      simp only [Expr.eval]
      refine .bind (evaluates.expr fits ready) fun value later grows holds => ?_
      cases value with
      | instance_ id => exact .getProperty holds
      | _ => exact .fail
  | grouping inner =>
      simp only [Expr.eval]
      exact evaluates.expr fits ready
  | literal value =>
      simp only [Expr.eval]
      exact .pure (world.holds_literal value)
  | logical left op token right =>
      obtain ⟨first, second⟩ := ready_append.mp ready
      simp only [Expr.eval]
      refine .bind (evaluates.expr fits first) fun left later grows holds => ?_
      by_cases short : Run.shortCircuits op left = true
      · simp only [if_pos short]
        exact .pure holds
      · simp only [if_neg short]
        exact evaluates.expr (grows.spans fits) second
  | set object name value =>
      obtain ⟨first, second⟩ := ready_append.mp ready
      simp only [Expr.eval]
      refine .bind (evaluates.expr fits first) fun target later grows _ => ?_
      cases target with
      | instance_ id =>
          refine .bind (evaluates.expr (grows.spans fits) second) fun value next _ holds => ?_
          exact .bind (.setField holds) fun _ last more _ => .pure (more.holds holds)
      | _ => exact .fail
  | super keyword method =>
      simp only [Expr.eval]
      exact superMethod_meets follows fits (List.forall_mem_singleton.mp ready)
  | this keyword =>
      simp only [Expr.eval]
      exact this_meets follows fits (List.forall_mem_singleton.mp ready)
  | unary sign token right =>
      simp only [Expr.eval]
      exact .bind (evaluates.expr fits ready) fun _ _ _ _ => .applySign
  | var name =>
      have fine := List.forall_mem_singleton.mp ready
      simp only [Expr.eval]
      exact follows.read_meets fine fits.weaken

theorem callValue_meets {callee : Value} {args : List Value} (holds : world.Holds callee)
    (given : ∀ arg ∈ args, world.Holds arg)
    (paired : world.machine.arity? callee = some args.length) :
    world.Meets (callValue .direct fuel (room + 1) callee args)
      (callValue other fuel (room + 1) callee args) Held := by
  cases callee with
  | native id =>
      simp only [callValue]
      exact .callNative holds given
  | function id =>
      simp only [callValue]
      refine .bind (.closureOf holds) fun closure later grows result => ?_
      have arity := Option.some.inj (result.2.symm.trans paired)
      exact invoke_meets evaluates.stmt follows result.1
        (fun arg member => grows.holds (given arg member)) arity
  | class_ id =>
      simp only [callValue]
      refine .bind (.newInstance holds) fun made first grows result => ?_
      refine .bind (.initializerOf id) fun method second more found => ?_
      cases method with
      | none => exact .pure (more.holds result.1)
      | some method =>
          have arity : method.decl.params.length = args.length := by
            have same := Option.some.inj paired
            rw [Machine.classArity, ← result.2, ← found.1] at same
            exact same
          refine .bind (.bindMethod (found.2 method rfl) (more.holds result.1))
            fun closure third most bound => ?_
          have kept := (grows.trans more).trans most
          refine .bind (invoke_meets evaluates.stmt follows bound.1
            (fun arg member => kept.holds (given arg member)) (bound.2 ▸ arity))
            fun _ last final _ => ?_
          exact .pure (((more.trans most).trans final).holds result.1)
  | _ => cases paired

omit follows in
/-- A branch declares nothing, so the frames fit the same layers behind it. -/
theorem Evaluates.branch {frame : Nat} {layers : List Layer} (fits : world.Fits frame layers)
    {branch : Stmt Hops} (sites : ∀ site ∈ branch.sites layers, ok site)
    (accepted : branch.Each Accepted) (plain : branch.declared? = none) :
    world.Meets (branch.exec .direct fuel room frame) (branch.exec other fuel room frame)
      fun completion later => Returned completion later ∧ later.Fits frame layers := by
  have run := evaluates.stmt fits ⟨sites, accepted, by simp [plain]⟩
  rwa [Stmt.after_plain plain] at run

theorem Stmt.exec_meets {frame : Nat} {layers : List Layer} (fits : world.Fits frame layers)
    (stmt : Stmt Hops) (ready : stmt.Ready ok layers) :
    world.Meets (stmt.exec .direct fuel (room + 1) frame) (stmt.exec other fuel (room + 1) frame)
      fun completion later => Returned completion later ∧ later.Fits frame (stmt.after layers) := by
  cases stmt with
  | block body =>
      simp only [Stmt.exec]
      refine .bind (.newFrame fits (.ofBody [] body)) fun inner later grows inside => ?_
      have body := untilReturn_meets evaluates.stmt inside (.ofBody ready.sites ready.accepted.2)
      exact body.weaken fun _ last more returns => ⟨returns, (grows.trans more).spans fits⟩
  | function decl =>
      simp only [Stmt.exec]
      refine .weaken (.function fits (ready.hosts decl.name rfl) ⟨ready.sites, ready.accepted.2⟩) ?_
      rintro _ later _ ⟨rfl, known⟩
      exact ⟨nofun, known⟩
  | class_ name superclass methods =>
      simp only [Stmt.exec]
      exact .bind (declareClass_meets follows fits ready) fun _ _ _ known => .pure ⟨nofun, known⟩
  | expression value =>
      simp only [Stmt.exec]
      exact .bind (evaluates.expr fits ready.sites) fun _ later grows _ =>
        .pure ⟨nofun, grows.spans fits⟩
  | ifThen cond yes =>
      obtain ⟨test, branch⟩ := List.forall_mem_append.mp ready.sites
      simp only [Stmt.exec]
      refine .bind (evaluates.expr fits test) fun value later grows _ => ?_
      have fits := grows.spans fits
      by_cases truthy : value.isTruthy = true
      · simp only [if_pos truthy]
        exact evaluates.branch fits branch ready.accepted.2.2
          (ready.accepted.1.1.branches yes List.mem_cons_self)
      · simp only [if_neg truthy]
        exact .pure ⟨nofun, fits⟩
  | ifElse cond yes no =>
      obtain ⟨tested, second⟩ := List.forall_mem_append.mp ready.sites
      obtain ⟨test, first⟩ := List.forall_mem_append.mp tested
      simp only [Stmt.exec]
      refine .bind (evaluates.expr fits test) fun value later grows _ => ?_
      have fits := grows.spans fits
      by_cases truthy : value.isTruthy = true
      · simp only [if_pos truthy]
        exact evaluates.branch fits first ready.accepted.2.2.1
          (ready.accepted.1.1.branches yes List.mem_cons_self)
      · simp only [if_neg truthy]
        exact evaluates.branch fits second ready.accepted.2.2.2
          (ready.accepted.1.1.branches no (by simp [Stmt.branches]))
  | print token value =>
      simp only [Stmt.exec]
      refine .bind (evaluates.expr fits ready.sites) fun value later grows _ => ?_
      exact .bind (.print value) fun _ last more _ => .pure ⟨nofun, (grows.trans more).spans fits⟩
  | return_ keyword value =>
      cases value with
      | none =>
          simp only [Stmt.exec]
          exact .pure ⟨by rintro _ ⟨⟩; trivial, fits⟩
      | some value =>
          simp only [Stmt.exec]
          refine .bind (evaluates.expr fits ready.sites) fun value later grows holds => ?_
          exact .pure ⟨by rintro _ ⟨⟩; exact holds, grows.spans fits⟩
  | var name init =>
      have hosts := ready.hosts name rfl
      cases init with
      | none =>
          simp only [Stmt.exec]
          refine .bind (.define fits hosts.2 (.of_proper hosts.1 _) trivial)
            fun _ later _ known => ?_
          exact .pure ⟨nofun, known⟩
      | some init =>
          simp only [Stmt.exec]
          have begun := fits.begin name.lexeme
          refine .bind (evaluates.expr begun ready.sites) fun value later grows holds => ?_
          refine .bind (.define (grows.spans fits) hosts.2 (.of_proper hosts.1 _) holds)
            fun _ last _ known => ?_
          exact .pure ⟨nofun, known⟩
  | while_ cond body =>
      obtain ⟨test, branch⟩ := List.forall_mem_append.mp ready.sites
      have plain := ready.accepted.1.1.branches body List.mem_cons_self
      -- The body declares nothing, so every turn starts with frames that fit the same layers.
      have turn : ∀ {world : World ok}, world.Fits frame layers →
          world.Meets (body.exec .direct fuel room frame) (body.exec other fuel room frame)
            Returned :=
        fun fits => (evaluates.branch fits branch ready.accepted.2.2 plain).weaken
          fun _ _ _ result => result.1
      simp only [Stmt.exec]
      refine .weaken (.loop (fun grows (fits : Heap.Fits _ frame layers) => grows.spans fits)
        (fun fits => evaluates.expr fits test) turn fits) ?_
      exact fun _ _ grows returns => ⟨returns, grows.spans fits⟩

end Trees

section Programs

variable {other : Lookup} (follows : other.Follows ok)

include follows

/-- **Running trees with one lookup or another comes to the same**, however much room there is. -/
theorem Lookup.Follows.evaluates (fuel room : Nat) : Evaluates other ok fuel room := by
  induction room with
  | zero =>
      exact ⟨fun _ _ => by simp only [Expr.eval]; exact .throw trivial,
        fun _ _ => by simp only [Stmt.exec]; exact .throw trivial,
        fun _ _ _ => by simp only [callValue]; exact .throw trivial⟩
  | succ room ih =>
      exact ⟨fun fits ready => Expr.eval_meets follows ih fits _ ready,
        fun fits ready => Stmt.exec_meets follows ih fits _ ready,
        fun holds given paired => callValue_meets follows ih holds given paired⟩

/-- A program that can run at top level. -/
theorem runStatements_meets (fuel room : Nat) {tree : List (Stmt Hops)} (ready : Ready ok [] tree) :
    world.Meets (runStatements .direct fuel room tree) (runStatements other fuel room tree)
      fun _ _ => True := by
  induction tree generalizing world with
  | nil => exact .pure trivial
  | cons stmt more ih =>
      have top : world.Fits Machine.globals [] := rfl
      refine .bind ((follows.evaluates fuel room).stmt top ready.head) fun _ later _ _ => ?_
      have rest := ready.tail
      rw [stmt.after_nil] at rest
      exact ih rest

end Programs

end Lox
