/-
**`super` is lexical.** What `super` finds depends on where it stands, not on the instance at hand.

* `Hierarchy.Descends`: a class is the same as another one, or inherits from it. A class finds no
  method just if no class that it descends from has one (`Hierarchy.method?_eq_none_iff`).
* `SuperOrigin` says to which method an evaluation of `super` belongs, and which class that method's
  class statement inherited from when it was executed. Every evaluation has one
  (`Expr.Evaluation.superOrigin`).
* `Session.Reached.super_lexical`: the method is looked up from that class, and bound to what `this`
  stands for.
-/

import Mathlib.Logic.Relation
import Lox.Proofs.Histories

namespace Lox

open Layer

/-! ### Classes and what they inherit from -/

/-- A class is another one, or inherits from it. -/
def Hierarchy.Descends (hierarchy : Hierarchy) (id ancestor : Nat) : Prop :=
  Relation.ReflTransGen (fun child parent => hierarchy.superclass? child = some parent) id ancestor

/-- A class without a method of its own finds what its superclass finds. -/
theorem Hierarchy.method?_eq_none_iff {hierarchy : Hierarchy} {name : String} {id : Nat} :
    hierarchy.method? name id = none ↔
      ∀ ancestor, hierarchy.Descends id ancestor → hierarchy.ownMethod? ancestor name = none := by
  fun_induction Hierarchy.method? hierarchy name id with
  | case1 id own here =>
      refine ⟨fun never => absurd never (Option.some_ne_none own), fun none => ?_⟩
      rw [none id .refl] at here
      cases here
  | case2 id missing root =>
      refine ⟨fun _ ancestor descends => ?_, fun _ => rfl⟩
      rcases descends.cases_head with rfl | ⟨parent, link, _⟩
      · exact missing
      · rw [root] at link
        cases link
  | case3 id missing parent link ih =>
      rw [ih]
      refine ⟨fun none ancestor descends => ?_, fun none ancestor descends =>
        none ancestor (.head link descends)⟩
      rcases descends.cases_head with rfl | ⟨other, link', further⟩
      · exact missing
      · obtain rfl := Option.some.inj (link.symm.trans link')
        exact none ancestor further

/-! ### Frames around `super` -/

/-- The frames to which `super` and its `this` lead: the nearest one that binds `this`, and the one
directly around it. -/
structure Machine.Houses (machine : Machine) (frame hops holder outer : Nat) : Prop where
  below : machine.store.frameAt frame hops = .ok holder
  above : machine.store.frameAt frame (hops + 1) = .ok outer
  nearest : machine.store.holder? thisName frame = some holder
  enclosing : machine.store.enclosing? holder = some outer
  super : machine.store.binds outer superName = true
  local_ : holder ≠ Machine.globals ∧ outer ≠ Machine.globals

theorem Heap.Sound.houses {heap : Heap} {ok : Site Hops → Prop} (sound : heap.Sound ok)
    {frame hops : Nat} {layers : List Layer} (fits : heap.Fits frame layers)
    (super : Sure superName layers (hops + 1)) (this : Sure thisName layers hops)
    (housed : ∀ layer ∈ layers.take hops, layer.scope.declares thisName = false) :
    ∃ holder outer, heap.machine.Houses frame hops holder outer := by
  induction hops generalizing frame layers with
  | zero =>
      obtain ⟨layer, at_, complete⟩ := this
      obtain ⟨next, at', complete'⟩ := super
      cases layers with
      | nil => cases at_
      | cons first more =>
          cases more with
          | nil => cases at'
          | cons second more =>
              obtain rfl := Option.some.inj at_
              obtain rfl := Option.some.inj at'
              have inner := sound.ne_globals fits
              obtain ⟨_, bound, outer, link, outward⟩ := fits
              exact ⟨frame, outer, rfl, Store.frameAt_succ link 0,
                Store.holder?_of_binds (bound _ complete trivial), link,
                outward.2.1 _ complete' trivial, inner, sound.ne_globals outward⟩
  | succ hops ih =>
      cases layers with
      | nil =>
          obtain ⟨layer, at_, _⟩ := this
          cases at_
      | cons first more =>
          have inner := sound.ne_globals fits
          obtain ⟨scope, _, outer, link, outward⟩ := fits
          obtain ⟨undeclared, housed⟩ := List.forall_mem_cons.mp housed
          have missing : ¬ heap.machine.store.binds frame thisName = true := fun binds => by
            obtain ⟨value, found⟩ := Store.binds_iff.mp binds
            have declares := (sound.bindings frame thisName value found).declares inner
            rw [scope, undeclared] at declares
            cases declares
          obtain ⟨holder, last, houses⟩ := ih outward super this housed
          exact ⟨holder, last, (Store.frameAt_succ link hops).trans houses.below,
            (Store.frameAt_succ link (hops + 1)).trans houses.above,
            (Store.holder?_of_enclosing? missing link).trans houses.nearest,
            houses.enclosing, houses.super, houses.local_⟩

/-! ### Evaluating `super` -/

/-- The method that a class finds, bound to an instance. -/
def Run.inherited (superclass this : Nat) (name : Token) : Run Value := do
  match (← get).hierarchy.method? name.lexeme superclass with
  | some method =>
    let bound ← Run.bind method this
    newFunction bound
  | none => fail name (.undefinedProperty name.lexeme)

/-- How the lookup of a method fails. -/
theorem Run.inherited_eq_error_iff {superclass this : Nat} {name : Token} {machine after : Machine}
    {failure : Failure} :
    Run.inherited superclass this name machine = .error failure after ↔
      failure = .error (.undefinedProperty name.lexeme) name ∧ after = machine ∧
        ∀ ancestor, machine.hierarchy.Descends superclass ancestor →
          machine.hierarchy.ownMethod? ancestor name.lexeme = none := by
  rw [← Hierarchy.method?_eq_none_iff, Run.inherited, Run.get_bind]
  cases found : machine.hierarchy.method? name.lexeme superclass with
  | none =>
      refine ⟨fun ended => ?_, ?_⟩
      · obtain ⟨rfl, rfl⟩ := EStateM.Result.error.inj ended
        exact ⟨rfl, rfl, rfl⟩
      · rintro ⟨rfl, rfl, _⟩
        rfl
  | some method =>
      refine ⟨fun ended => ?_, fun never => absurd never.2.2 (Option.some_ne_none method)⟩
      cases ended

/-- What `super` comes to, given the frames around it. -/
theorem Machine.Houses.superMethod {machine : Machine} {frame hops holder outer parent id : Nat}
    (houses : machine.Houses frame hops holder outer) {keyword : Reference Hops}
    (target : keyword.target = some (hops + 1))
    (super : (machine.store.bindings outer).get? superName = some (.class_ parent))
    (this : (machine.store.bindings holder).get? thisName = some (.instance_ id)) (name : Token) :
    Run.superMethod .direct frame keyword name machine = Run.inherited parent id name machine := by
  have above : Run.getAt frame (hops + 1) superName machine = .ok (.class_ parent) machine := by
    simp only [Run.getAt, Run.get_bind, Store.getAt, houses.above, super]
    rfl
  have below : Run.getAt frame hops thisName machine = .ok (.instance_ id) machine := by
    simp only [Run.getAt, Run.get_bind, Store.getAt, houses.below, this]
    rfl
  simp only [Run.superMethod, target, Nat.add_sub_cancel, Lookup.direct, Bind.bind, EStateM.bind,
    above, below]
  rfl

/-- Where an evaluation of `super` in a frame belongs: to a method that was made when a class
statement was executed, and that was bound to an instance. -/
structure SuperOrigin (log : List Operation) (machine : Machine) (frame : Nat)
    (keyword : Reference Hops) (origin : ClassRun) (parent : Nat) (method : Closure) (id : Nat) :
    Prop where
  executed : origin.operation ∈ log
  makes : origin.Makes method
  /-- The keyword stands in the method, at any depth, but not inside another class. -/
  stands : (.super, keyword) ∈ method.decl.lexical
  /-- The class that the superclass expression stood for when the class statement was executed. -/
  inherits : origin.Inherits parent
  /-- The method was bound to the instance, in the nearest frame that has a `this`. -/
  bound : ∃ before bound after, Operation.bind method id before (.ok bound after) ∈ log ∧
    machine.store.holder? thisName frame = some bound.frame
  this : machine.store.get? frame thisName = some (.instance_ id)

/-- **Every evaluation of `super` has an origin**, and looks for the method from there. -/
theorem Expr.Evaluation.superOrigin {current : Option Initialization}
    {past later : List Operation} {frame : Nat} {keyword : Reference Hops} {name : Token}
    {before : Machine} {result : RunResult Value}
    (evaluation : (Expr.super keyword name).Evaluation current past later frame before result) :
    ∃ origin parent method id, SuperOrigin past before frame keyword origin parent method id ∧
      result = Run.inherited parent id name before := by
  obtain ⟨logged, rfl, early, layers, locates, ready⟩ := evaluation.located
  have firm : Site.Firm ⟨.super, keyword, layers⟩ := ready _ (List.mem_singleton_self _)
  obtain ⟨hops, target, super, this⟩ := firm.leads
  obtain ⟨holder, outer, houses⟩ :=
    logged.world.sound.houses locates.fits super this (firm.housed rfl hops target)
  obtain ⟨method, id, start, bound, stop, member, rfl, inside⟩ :=
    locates.belongs.method holder houses.nearest houses.local_.1
  have binding := logged.provenance.bound method id start bound stop member
  obtain rfl : method.frame = outer :=
    Option.some.inj (binding.enclosing.symm.trans houses.enclosing)
  obtain ⟨origin, executed, provides⟩ := binding.origin
  have this : logged.machine.store.get? frame thisName = some (.instance_ id) := by
    simp only [Store.get?, houses.nearest, binding.this]
  rcases provides.places with ⟨_, workable⟩ | ⟨parent, inherits, _, here⟩
  · -- Without a superclass, the methods would lie in a frame that does not bind `super`.
    exact absurd rfl (workable.proper houses.local_.2 superName houses.super).2
  · obtain ⟨fuel, room, rfl⟩ := evaluation.evaluated
    exact ⟨origin, parent, method, id,
      ⟨early.subset executed, provides.makes, inside (List.mem_singleton_self _), inherits,
        ⟨start, bound, stop, early.subset member, houses.nearest⟩, this⟩,
      houses.superMethod target here binding.this name⟩

/-- **`super` is lexical.** Whatever texts a session has run, everything that was done is written in
a log, and writing it down changes nothing. In each such log, every evaluation of `super`
belongs to a method of a class statement that was executed before. The method is looked up from the
class that the superclass expression of that statement stood for then, and it is bound to the
instance that `this` stands for. It fails only with an undefined property at the name of the method,
just if no class from there on up has the method. -/
theorem Session.Reached.super_lexical {session : Session} (reached : session.Reached) :
    (∃ log, History Native.Lawful session.machine log) ∧
      ∀ log, History Native.Lawful session.machine log →
        (∀ earlier frame keyword name before result later,
          log = earlier ++ .eval frame (.super keyword name) before result :: later →
            ∃ origin parent method id,
              SuperOrigin earlier before frame keyword origin parent method id ∧
                result = Run.inherited parent id name before ∧
                  ∀ failure after, result = .error failure after ↔
                    failure = .error (.undefinedProperty name.lexeme) name ∧ after = before ∧
                      ∀ ancestor, before.hierarchy.Descends parent ancestor →
                        before.hierarchy.ownMethod? ancestor name.lexeme = none) ∧
          RecordsFaithfully session.machine log := by
  refine ⟨reached.history, fun log history => ⟨?_, recordsFaithfully _ log⟩⟩
  rintro earlier frame keyword name before result later rfl
  obtain ⟨_, _, valid⟩ := history.known
  have evaluation : (Expr.super keyword name).Evaluation none earlier later frame before result :=
    valid.split.1.effect
  obtain ⟨origin, parent, method, id, known, rfl⟩ := evaluation.superOrigin
  exact ⟨origin, parent, method, id, known, rfl, fun _ _ => Run.inherited_eq_error_iff⟩

/-- A text in which `super` stands in a function inside a method, the instance is of a subclass that
overrides the method, and both classes have lost their names. In the end there is no such method. -/
def superText : String :=
  "class A { m() { return 1; } }
  class B < A { m() { return 2; } u() { super.k; }
    t() { fun g() { { return super.m(); } } return g; } }
  class C < B { m() { return 3; } k() {} }
  var g = C().t(); B = nil; A = C; print g(); C().u();"

/-- Whether an operation is an evaluation of `super`. -/
def Operation.isSuper : Operation → Bool
  | .eval _ (.super _ _) _ _ => true
  | _ => false

theorem Session.Reached.super_lexical_renamed :
    let fresh := Session.start {} .zero false
    let session := (fresh.run superText).1
    session.Reached ∧ session.machine.printed = #["1"] ∧
      (∃ tree, Passes superText tree ∧
        (logOf maxTurns maxRoom tree fresh.machine []).countP Operation.isSuper = 2) ∧
      (∃ log, History Native.Lawful session.machine log) ∧
        ∀ log, History Native.Lawful session.machine log →
          (∀ earlier frame keyword name before result later,
            log = earlier ++ .eval frame (.super keyword name) before result :: later →
              ∃ origin parent method id,
                SuperOrigin earlier before frame keyword origin parent method id ∧
                  result = Run.inherited parent id name before ∧
                    ∀ failure after, result = .error failure after ↔
                      failure = .error (.undefinedProperty name.lexeme) name ∧ after = before ∧
                        ∀ ancestor, before.hierarchy.Descends parent ancestor →
                          before.hierarchy.ownMethod? ancestor name.lexeme = none) ∧
            RecordsFaithfully session.machine log := by
  have reached := Session.Reached.run (.start {} .zero false {}) superText
  have ⟨clean, both, printed⟩ : ((parse superText).complaints = [] ∧
      (resolve (parse superText).tree).complaints = [] ∧
        (resolve (parse superText).tree).value.isSome) ∧
      (resolve (parse superText).tree).value.map (fun tree =>
        (logOf maxTurns maxRoom tree (Session.start {} .zero false).machine []).countP
          Operation.isSuper) = some 2 ∧
      ((Session.start {} .zero false).run superText).1.machine.printed = #["1"] := by
    decide +kernel
  obtain ⟨tree, passes⟩ := exists_passes clean
  rw [passes.tree, Option.map_some, Option.some_inj] at both
  exact ⟨reached, printed, ⟨tree, passes, both⟩, reached.super_lexical⟩

end Lox
