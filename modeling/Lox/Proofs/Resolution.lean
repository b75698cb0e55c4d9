/-
**Resolution.** What resolving a tree does to its references.

* `Corresponds` ties the scopes that resolution keeps to what is known at a place.
* `Stmt.resolve_spec`: resolving annotates every reference with the number of scopes to the
  innermost one that is known to have its name, and without complaints every reference `Leads`
  somewhere: to a name that is complete, and `this` and `super` to the scopes of their class.
-/

import Lox.Proofs.Parsed
import Lox.Proofs.Scopes
import Lox.Proofs.Verdict
import Mathlib.Data.List.Forall2

namespace Lox

open Verdict (yields_bind yields_descend yields_objectIf yields_pure)

open Layer

/-! ### Scopes and layers -/

/-- What a layer says about a name, in the terms of resolution. -/
def Layer.state (layer : Layer) (name : String) : Option Bool :=
  if layer.pending = some name then some false
  else if name ∈ layer.sure then some true
  else none

/-- A scope of resolution holds what a layer knows. -/
def Layer.Agrees (scope : Scope) (layer : Layer) : Prop :=
  ∀ name, scope.get? name = layer.state name

theorem Layer.Agrees.has {scope : Scope} {layer : Layer} (agrees : Agrees scope layer)
    (name : String) : scope.has name = layer.knows name := by
  unfold Bindings.has knows
  rw [agrees name, state]
  by_cases initializing : layer.pending = some name
  · simp [initializing]
  · by_cases sure : name ∈ layer.sure <;> simp [initializing, sure]

/-- A layer that starts a declaration. -/
theorem Layer.Agrees.begin {scope : Scope} {layer : Layer} (agrees : Agrees scope layer)
    (settled : layer.pending = none) (name : String) :
    Agrees (scope.set name false) { layer with pending := some name } := by
  intro other
  by_cases same : other = name
  · subst same
    simp [state]
  · rw [Bindings.get?_set_of_ne same, agrees other]
    simp [state, settled, Ne.symm same]

/-- A layer that completes a declaration. -/
theorem Layer.Agrees.learn {scope : Scope} {layer : Layer} (agrees : Agrees scope layer)
    (name : String) (started : ∀ other, layer.pending = some other → other = name) :
    Agrees (scope.set name true)
      { layer with sure := name :: layer.sure, pending := none } := by
  intro other
  by_cases same : other = name
  · subst same
    simp [state]
  · have idle : layer.pending ≠ some other := fun found => same (started other found)
    rw [Bindings.get?_set_of_ne same, agrees other]
    simp [state, idle, same]

theorem Layer.only_agrees (name : String) : Agrees [(name, true)] (only name) := by
  intro other
  by_cases same : name = other <;> simp [Bindings.get?, state, only, same, Ne.symm]

theorem Layer.only_wide (name : String) :
    ∀ other, (only name).knows other = true → (LocalScope.only name).declares other = true := by
  simp [only, LocalScope.only, LocalScope.declares]

/-- A layer knows those names of the language that its scope declares. -/
def Layer.Narrow (layer : Layer) : Prop :=
  ∀ name, ¬ ProperName name → layer.scope.declares name = true → layer.knows name = true

theorem Layer.only_narrow (name : String) : (only name).Narrow := by
  intro other _
  simp [only, LocalScope.only, LocalScope.declares]

/-- A name is complete in the scope a number of scopes out. -/
def Layer.Sure (name : String) (layers : List Layer) (hops : Nat) : Prop :=
  ∃ layer, layers[hops]? = some layer ∧ name ∈ layer.sure

/-- The innermost scope that knows a name is a number of scopes out, and the name is complete
there. -/
def Layer.Binds (name : String) (layers : List Layer) (hops : Nat) : Prop :=
  layers.findIdx? (·.knows name) = some hops ∧ Sure name layers hops

/-- A change to the innermost layer that keeps what is complete. -/
theorem Layer.Sure.update {name : String} {layer next : Layer} {layers : List Layer} {hops : Nat}
    (kept : name ∈ layer.sure → name ∈ next.sure) (sure : Sure name (layer :: layers) hops) :
    Sure name (next :: layers) hops := by
  obtain ⟨inner, at_, member⟩ := sure
  cases hops with
  | zero =>
      obtain rfl := Option.some.inj at_
      exact ⟨next, rfl, kept member⟩
  | succ hops => exact ⟨inner, at_, member⟩

namespace Layer.Binds

variable {name : String} {layer next : Layer} {layers : List Layer} {hops : Nat}

theorem here (sure : name ∈ layer.sure) : Binds name (layer :: layers) 0 := by
  refine ⟨?_, layer, rfl, sure⟩
  rw [List.findIdx?_cons, if_pos (knows_iff.mpr (.inr sure))]

theorem cons (unknown : layer.knows name = false) (binds : Binds name layers hops) :
    Binds name (layer :: layers) (hops + 1) := by
  obtain ⟨found, inner⟩ := binds
  refine ⟨?_, inner⟩
  rw [List.findIdx?_cons, unknown, found]
  rfl

/-- A change to the innermost layer that does not concern the name. -/
theorem update (same : next.knows name = layer.knows name)
    (kept : name ∈ layer.sure → name ∈ next.sure) (binds : Binds name (layer :: layers) hops) :
    Binds name (next :: layers) hops := by
  refine ⟨?_, binds.2.update kept⟩
  have found := binds.1
  rw [List.findIdx?_cons] at found ⊢
  rwa [same]

end Layer.Binds

/-- The layers around a place in a class: one with `this`, and if the class has a superclass, one
with `super` directly around that. -/
structure Houses (class_ : Enclosing.Class) (layers : List Layer) : Prop where
  this : class_ ≠ .none → ∃ hops, Binds thisName layers hops
  super : class_ = .derived → ∃ hops, Binds superName layers (hops + 1) ∧ Binds thisName layers hops

namespace Houses

variable {class_ : Enclosing.Class} {layer next : Layer} {layers : List Layer}

/-- One more scope, without names of the language. -/
theorem cons (houses : Houses class_ layers) (this : layer.knows thisName = false)
    (super : layer.knows superName = false) : Houses class_ (layer :: layers) where
  this inside :=
    let ⟨hops, binds⟩ := houses.this inside
    ⟨hops + 1, binds.cons this⟩
  super inside :=
    let ⟨hops, binds, next⟩ := houses.super inside
    ⟨hops + 1, binds.cons super, next.cons this⟩

/-- A change to the innermost scope that does not concern the names of the language. -/
theorem update (houses : Houses class_ (layer :: layers))
    (same : ∀ name, ¬ ProperName name → next.knows name = layer.knows name)
    (kept : ∀ name ∈ layer.sure, name ∈ next.sure) : Houses class_ (next :: layers) where
  this inside :=
    let ⟨hops, binds⟩ := houses.this inside
    ⟨hops, binds.update (same thisName fun proper => proper.1 rfl) (kept thisName)⟩
  super inside :=
    let ⟨hops, binds, next⟩ := houses.super inside
    ⟨hops, binds.update (same superName fun proper => proper.2 rfl) (kept superName),
      next.update (same thisName fun proper => proper.1 rfl) (kept thisName)⟩

theorem forMethods (derived : Bool) (layers : List Layer) :
    Houses (if derived then .derived else .plain) (Layer.forMethods derived layers) where
  this _ := by
    cases derived <;> exact ⟨0, .here (List.mem_singleton_self _)⟩
  super inside := by
    cases derived with
    | false => cases inside
    | true =>
        exact ⟨0, .cons (by decide) (.here (List.mem_singleton_self _)),
          .here (List.mem_singleton_self _)⟩

end Houses

/-- What stands around a place, and what is known there about the local scopes. -/
structure Corresponds (around : Enclosing) (layers : List Layer) : Prop where
  scopes : List.Forall₂ Layer.Agrees around.scopes layers
  outer : ∀ layer ∈ layers.tail, layer.pending = none
  wide : ∀ layer ∈ layers, ∀ name, layer.knows name = true → layer.scope.declares name = true
  narrow : ∀ layer ∈ layers, layer.Narrow
  houses : Houses around.class_ layers

/-- No name is being initialized. -/
def Idle (layers : List Layer) : Prop :=
  ∀ layer ∈ layers, layer.pending = none

/-- A declared name belongs to the innermost scope, if there is one. -/
def Hosts (layers : List Layer) (name : Token) : Prop :=
  ProperName name.lexeme ∧ ∀ layer ∈ layers.head?, layer.scope.declares name.lexeme = true

namespace Corresponds

theorem topLevel : Corresponds .topLevel [] :=
  ⟨.nil, nofun, nofun, nofun, ⟨fun inside => absurd rfl inside, nofun⟩⟩

theorem hops_eq {scopes : List Scope} {layers : List Layer}
    (agree : List.Forall₂ Layer.Agrees scopes layers) (name : String) :
    Enclosing.hops? name scopes = layers.findIdx? (·.knows name) := by
  induction agree with
  | nil => rfl
  | cons agrees _ ih => simp [Enclosing.hops?, List.findIdx?_cons, agrees.has, ih]

variable {around : Enclosing} {layers : List Layer} (corresponds : Corresponds around layers)

include corresponds

/-- The nearest function does not matter. -/
theorem routine (routine : Enclosing.Routine) : Corresponds { around with routine } layers :=
  ⟨corresponds.scopes, corresponds.outer, corresponds.wide, corresponds.narrow,
    corresponds.houses⟩

/-- One more scope, without names of the language. -/
theorem enter (idle : Idle layers) {scope : Scope} {layer : Layer}
    (agrees : Agrees scope layer)
    (wide : ∀ name, layer.knows name = true → layer.scope.declares name = true)
    (proper : ∀ name, layer.scope.declares name = true → ProperName name) :
    Corresponds (around.enter scope) (layer :: layers) := by
  have narrow : layer.Narrow := fun name improper declares =>
    absurd (proper name declares) improper
  refine ⟨.cons agrees corresponds.scopes, idle, List.forall_mem_cons.mpr ⟨wide, corresponds.wide⟩,
    List.forall_mem_cons.mpr ⟨narrow, corresponds.narrow⟩, corresponds.houses.cons ?_ ?_⟩
  · exact Bool.eq_false_iff.mpr fun known => (proper thisName (wide thisName known)).1 rfl
  · exact Bool.eq_false_iff.mpr fun known => (proper superName (wide superName known)).2 rfl

/-- The place inside the methods of a class. -/
theorem forMethods (idle : Idle layers) (derived : Bool) :
    Corresponds (around.forMethods derived) (Layer.forMethods derived layers) := by
  cases derived with
  | false =>
      exact ⟨.cons (only_agrees _) corresponds.scopes, idle,
        List.forall_mem_cons.mpr ⟨only_wide _, corresponds.wide⟩,
        List.forall_mem_cons.mpr ⟨only_narrow _, corresponds.narrow⟩,
        Houses.forMethods false layers⟩
  | true =>
      exact ⟨.cons (only_agrees _) (.cons (only_agrees _) corresponds.scopes),
        List.forall_mem_cons.mpr ⟨rfl, idle⟩, List.forall_mem_cons.mpr ⟨only_wide _,
          List.forall_mem_cons.mpr ⟨only_wide _, corresponds.wide⟩⟩,
        List.forall_mem_cons.mpr ⟨only_narrow _,
          List.forall_mem_cons.mpr ⟨only_narrow _, corresponds.narrow⟩⟩,
        Houses.forMethods true layers⟩

omit corresponds in
/-- A change to the innermost scope that does not concern the names of the language. -/
theorem update {routine : Enclosing.Routine} {class_ : Enclosing.Class} {scope scope' : Scope}
    {scopes : List Scope} {layer next : Layer}
    (corresponds : Corresponds ⟨routine, class_, scope :: scopes⟩ (layer :: layers))
    (agrees : Agrees scope' next) (scope_eq : next.scope = layer.scope)
    (wide : ∀ name, next.knows name = true → next.scope.declares name = true)
    (same : ∀ name, ¬ ProperName name → next.knows name = layer.knows name)
    (kept : ∀ name ∈ layer.sure, name ∈ next.sure) :
    Corresponds ⟨routine, class_, scope' :: scopes⟩ (next :: layers) := by
  obtain ⟨_, others⟩ := List.forall_mem_cons.mp corresponds.wide
  obtain ⟨narrow, outer⟩ := List.forall_mem_cons.mp corresponds.narrow
  have still : next.Narrow := fun name improper declares => by
    rw [same name improper]
    exact narrow name improper (scope_eq ▸ declares)
  cases corresponds.scopes with
  | cons _ rest =>
      exact ⟨.cons agrees rest, corresponds.outer, List.forall_mem_cons.mpr ⟨wide, others⟩,
        List.forall_mem_cons.mpr ⟨still, outer⟩, corresponds.houses.update same kept⟩

/-- A variable before its initializer. -/
theorem begin (idle : Idle layers) {name : Token} (hosts : Hosts layers name) :
    Corresponds (around.mark name.lexeme false) (begin name.lexeme layers) := by
  obtain ⟨routine, class_, scopes⟩ := around
  cases corresponds.scopes with
  | nil => exact corresponds
  | @cons scope layer scopes layers agrees rest =>
      have settled := idle layer List.mem_cons_self
      refine corresponds.update (agrees.begin settled name.lexeme) rfl ?_ ?_ fun _ => id
      · intro other known
        rcases knows_iff.mp known with found | sure
        · obtain rfl := Option.some.inj found
          exact hosts.2 layer rfl
        · exact corresponds.wide layer List.mem_cons_self other (knows_iff.mpr (.inr sure))
      · intro other improper
        have different : name.lexeme ≠ other := fun same => improper (same ▸ hosts.1)
        simp [knows, settled, different]

omit corresponds in
/-- A name behind its declaration. -/
theorem complete {name : Token} (hosts : Hosts layers name)
    (corresponds : Corresponds around (Layer.begin name.lexeme layers)) :
    Corresponds (around.mark name.lexeme true) (learn name.lexeme layers) := by
  obtain ⟨routine, class_, scopes⟩ := around
  cases layers with
  | nil =>
      cases corresponds.scopes with
      | nil => exact corresponds
  | cons layer layers =>
      cases corresponds.scopes with
      | @cons scope _ scopes _ agrees rest =>
          have learned := agrees.learn name.lexeme fun _ found => (Option.some.inj found).symm
          refine corresponds.update learned rfl ?_ ?_ fun _ => List.mem_cons_of_mem _
          · intro other known
            rcases List.mem_cons.mp ((knows_iff.mp known).resolve_left nofun) with rfl | sure
            · exact hosts.2 layer rfl
            · exact corresponds.wide _ List.mem_cons_self other (knows_iff.mpr (.inr sure))
          · intro other improper
            have different : name.lexeme ≠ other := fun same => improper (same ▸ hosts.1)
            simp [knows, different, Ne.symm different]

/-- A name declared and defined at once. -/
theorem introduce (idle : Idle layers) {name : Token} (hosts : Hosts layers name) {quiet : Prop}
    {after : Enclosing} (yields : (Lox.introduce around name : Verdict _).Yields quiet after) :
    Corresponds after (learn name.lexeme layers) := by
  simp only [Lox.introduce, declare, yields_bind, yields_objectIf, yields_pure,
    exists_const] at yields
  obtain ⟨_, ⟨_, rfl⟩, rfl⟩ := yields
  exact complete hosts (corresponds.begin idle hosts)

end Corresponds

theorem Idle.learn {layers : List Layer} (idle : Idle layers) (name : String) :
    Idle (Layer.learn name layers) := by
  cases layers with
  | nil => exact idle
  | cons layer layers =>
      exact List.forall_mem_cons.mpr ⟨rfl, (List.forall_mem_cons.mp idle).2⟩

theorem Hosts.learn {layers : List Layer} {name : Token} (hosts : Hosts layers name)
    (other : String) : Hosts (Layer.learn other layers) name := by
  cases layers with
  | nil => exact hosts
  | cons layer layers =>
      refine ⟨hosts.1, ?_⟩
      rintro _ ⟨⟩
      exact hosts.2 layer rfl

/-- Parameters, declared and defined one after the other. -/
theorem introduceAll_corresponds {quiet : Prop} {params : List Token} {around after : Enclosing}
    {layer : Layer} {layers : List Layer} (corresponds : Corresponds around (layer :: layers))
    (idle : Idle (layer :: layers)) (hosts : ∀ param ∈ params, Hosts (layer :: layers) param)
    (yields : (introduceAll around params : Verdict _).Yields quiet after) :
    Corresponds after
      ({ layer with sure := (params.map Token.lexeme).reverse ++ layer.sure } :: layers) := by
  induction params generalizing around layer with
  | nil =>
      obtain rfl := yields_pure.mp yields
      exact corresponds
  | cons param more ih =>
      rw [introduceAll, yields_bind] at yields
      obtain ⟨next, first, rest⟩ := yields
      obtain ⟨host, others⟩ := List.forall_mem_cons.mp hosts
      have settled := (List.forall_mem_cons.mp idle).1
      have further := ih (corresponds.introduce idle host first) (idle.learn _)
        (fun param member => (others param member).learn _) rest
      simpa [settled] using further

/-! ### Expressions -/

/-- What resolution asks of a reference at a place. -/
def Enclosing.Permits (around : Enclosing) (used : Use × Reference Unit) : Prop :=
  match used.1 with
  | .read => around.initializing used.2.token.lexeme = false
  | .assign => True
  | .this => around.class_ ≠ .none
  | .super => around.class_ = .derived

/-- A reference with the annotation that it gets at a place. -/
def annotate (around : Enclosing) (used : Use × Reference Unit) : Use × Reference Hops :=
  (used.1, used.2.resolve around)

/-- Resolution annotates references, and if it is quiet, they are permitted. -/
structure Annotates (around : Enclosing) (quiet : Prop) (references : List (Use × Reference Unit))
    (resolved : List (Use × Reference Hops)) : Prop where
  same : resolved = references.map (annotate around)
  permits : quiet → ∀ used ∈ references, around.Permits used

namespace Annotates

variable {around : Enclosing} {quiet : Prop} {first second : List (Use × Reference Unit)}
  {first' second' : List (Use × Reference Hops)}

theorem nil : Annotates around quiet [] [] :=
  ⟨rfl, fun _ => List.forall_mem_nil _⟩

theorem append (left : Annotates around quiet first first')
    (right : Annotates around quiet second second') :
    Annotates around quiet (first ++ second) (first' ++ second') :=
  ⟨by rw [left.same, right.same, List.map_append],
    fun here => List.forall_mem_append.mpr ⟨left.permits here, right.permits here⟩⟩

theorem one {used : Use × Reference Unit} (permits : quiet → around.Permits used) :
    Annotates around quiet [used] [annotate around used] :=
  ⟨rfl, fun here => List.forall_mem_singleton.mpr (permits here)⟩

theorem read {reference : Reference Unit} {resolved : Reference Hops}
    (yields : (reference.read around : Verdict _).Yields quiet resolved) :
    Annotates around quiet [(.read, reference)] [(.read, resolved)] := by
  simp only [Reference.read, yields_bind, yields_objectIf, yields_pure, exists_const] at yields
  obtain ⟨idle, rfl⟩ := yields
  exact one idle

end Annotates

mutual

/-- **Resolving an expression annotates its references.** -/
theorem Expr.resolve_annotates {around : Enclosing} {quiet : Prop} : {room : Nat} →
    (expr : Expr Unit) → {resolved : Expr Hops} →
    (expr.resolve around room : Verdict _).Yields quiet resolved →
    Annotates around quiet expr.references resolved.references
  | _, .assign target value, _, yields => by
    simp only [Expr.resolve, yields_descend, yields_bind, yields_pure] at yields
    obtain ⟨_, value', inner, rfl⟩ := yields
    have assigned : Annotates around quiet [(.assign, target)] [(.assign, target.resolve around)] :=
      .one fun _ => trivial
    exact assigned.append (value.resolve_annotates inner)
  | _, .binary left _ _ right, _, yields | _, .logical left _ _ right, _, yields => by
    simp only [Expr.resolve, yields_descend, yields_bind, yields_pure] at yields
    obtain ⟨_, left', first, right', second, rfl⟩ := yields
    exact (left.resolve_annotates first).append (right.resolve_annotates second)
  | _, .call callee _ args, _, yields => by
    simp only [Expr.resolve, yields_descend, yields_bind, yields_pure] at yields
    obtain ⟨_, callee', first, args', ⟨_, second⟩, rfl⟩ := yields
    exact (callee.resolve_annotates first).append (resolveArguments_annotates args second)
  | _, .get inner _, _, yields | _, .grouping inner, _, yields
  | _, .unary _ _ inner, _, yields => by
    simp only [Expr.resolve, yields_descend, yields_bind, yields_pure] at yields
    obtain ⟨_, inner', first, rfl⟩ := yields
    have annotates := inner.resolve_annotates first
    exact annotates
  | _, .literal _, _, yields => by
    simp only [Expr.resolve, yields_descend, yields_pure] at yields
    obtain ⟨_, rfl⟩ := yields
    exact .nil
  | _, .set object _ value, _, yields => by
    simp only [Expr.resolve, yields_descend, yields_bind, yields_pure] at yields
    obtain ⟨_, value', first, object', second, rfl⟩ := yields
    exact (object.resolve_annotates second).append (value.resolve_annotates first)
  | _, .super keyword _, _, yields => by
    simp only [Expr.resolve, yields_descend, yields_bind, yields_objectIf, yields_pure,
      exists_const, beq_eq_false_iff_ne] at yields
    obtain ⟨_, inside, derived, rfl⟩ := yields
    refine .one fun here => ?_
    cases found : around.class_ with
    | none => exact absurd found (inside here)
    | plain => exact absurd found (derived here)
    | derived => exact found
  | _, .this keyword, _, yields => by
    simp only [Expr.resolve, yields_descend, yields_bind, yields_objectIf, yields_pure,
      exists_const, beq_eq_false_iff_ne] at yields
    obtain ⟨_, inside, rfl⟩ := yields
    exact .one inside
  | _, .var name, _, yields => by
    simp only [Expr.resolve, yields_descend, yields_bind, yields_pure] at yields
    obtain ⟨_, name', read, rfl⟩ := yields
    exact .read read

theorem resolveArguments_annotates {around : Enclosing} {quiet : Prop} : {room : Nat} →
    (args : List (Expr Unit)) → {resolved : List (Expr Hops)} →
    (resolveArguments around room args : Verdict _).Yields quiet resolved →
    Annotates around quiet (argumentReferences args) (argumentReferences resolved)
  | _, [], _, yields => by
    obtain rfl := yields_pure.mp yields
    exact .nil
  | _, arg :: more, _, yields => by
    simp only [resolveArguments, yields_bind, yields_pure] at yields
    obtain ⟨arg', first, more', rest, rfl⟩ := yields
    exact (arg.resolve_annotates first).append (resolveArguments_annotates more rest)

end

/-! ### Statements -/

/-- A site with the annotation that its reference gets. -/
def Site.resolve (site : Site Unit) : Site Hops :=
  ⟨site.use, ⟨site.reference.token, site.layers.findIdx? (·.knows site.reference.token.lexeme)⟩,
    site.layers⟩

/-- Resolution has nothing against the reference of a site. -/
def Site.Permitted (site : Site Unit) : Prop :=
  ∃ around, Corresponds around site.layers ∧ around.Permits site.used

/-- A class does not inherit from itself by name. -/
def Stmt.Distinct {ρ : Type} : Stmt ρ → Prop
  | .class_ name (some parent) _ => parent.token.lexeme ≠ name.lexeme
  | _ => True

/-- **Trees without complaints**, but for what is asked of references. -/
def Accepted {ρ : Type} : Demands ρ where
  expr _ := True
  stmt stmt := stmt.Formed ∧ stmt.Distinct
  function := Function.Formed

/-- Sites get their annotations, and if resolution is quiet, they are permitted. -/
structure Resolves (quiet : Prop) (sites : List (Site Unit)) (resolved : List (Site Hops)) :
    Prop where
  same : resolved = sites.map Site.resolve
  permitted : quiet → ∀ site ∈ sites, site.Permitted

namespace Resolves

variable {quiet : Prop}

theorem nil : Resolves quiet [] [] :=
  ⟨rfl, fun _ => List.forall_mem_nil _⟩

theorem append {first second : List (Site Unit)} {first' second' : List (Site Hops)}
    (left : Resolves quiet first first') (right : Resolves quiet second second') :
    Resolves quiet (first ++ second) (first' ++ second') :=
  ⟨by rw [left.same, right.same, List.map_append],
    fun here => List.forall_mem_append.mpr ⟨left.permitted here, right.permitted here⟩⟩

end Resolves

/-- What is annotated at a place is resolved there. -/
theorem Annotates.place {around : Enclosing} {layers : List Layer} {quiet : Prop}
    {references : List (Use × Reference Unit)} {resolved : List (Use × Reference Hops)}
    (annotates : Annotates around quiet references resolved)
    (corresponds : Corresponds around layers) :
    Resolves quiet (place layers references) (place layers resolved) := by
  refine ⟨?_, fun here site member => ?_⟩
  · rw [annotates.same]
    simp [Lox.place, annotate, Reference.resolve, Site.resolve, Function.comp_def,
      Corresponds.hops_eq corresponds.scopes]
  · obtain ⟨used, inside, rfl⟩ := List.mem_map.mp member
    exact ⟨around, corresponds, annotates.permits here used inside⟩

theorem resolveOptional_annotates {around : Enclosing} {quiet : Prop} {room : Nat}
    {value : Option (Expr Unit)} {resolved : Option (Expr Hops)}
    (yields : (resolveOptional around room value : Verdict _).Yields quiet resolved) :
    Annotates around quiet (optionalReferences value) (optionalReferences resolved) := by
  cases value with
  | none =>
      obtain rfl := yields_pure.mp yields
      exact .nil
  | some value =>
      simp only [resolveOptional, yields_bind, yields_pure] at yields
      obtain ⟨value', inner, rfl⟩ := yields
      exact value.resolve_annotates inner

/-- The superclass of a class is read behind the name of the class, and is another one. -/
theorem resolveSuperclass_annotates {around : Enclosing} {quiet : Prop} {name : Token}
    {superclass : Option (Reference Unit)} {resolved : Option (Reference Hops)}
    (yields : (resolveSuperclass around name superclass : Verdict _).Yields quiet resolved) :
    Annotates around quiet (superclass.toList.map fun parent => (.read, parent))
        (resolved.toList.map fun parent => (.read, parent)) ∧
      resolved.isSome = superclass.isSome ∧
      (quiet → ∀ parent ∈ resolved, parent.token.lexeme ≠ name.lexeme) := by
  cases superclass with
  | none =>
      obtain rfl := yields_pure.mp yields
      exact ⟨.nil, rfl, by simp⟩
  | some parent =>
      simp only [resolveSuperclass, yields_bind, yields_objectIf, yields_pure, exists_const,
        beq_eq_false_iff_ne] at yields
      obtain ⟨other, parent', read, rfl⟩ := yields
      have annotates := Annotates.read read
      refine ⟨annotates, rfl, fun here => ?_⟩
      rintro _ ⟨⟩
      obtain rfl : parent' = parent.resolve around := by simpa [annotate] using annotates.same
      exact other here

/-- What comes of resolving a statement where some layers are known. -/
structure Stmt.ResolvesTo (quiet : Prop) (layers : List Layer) (stmt : Stmt Unit)
    (resolved : Stmt Hops) : Prop where
  sites : Resolves quiet (stmt.sites layers) (resolved.sites layers)
  declaration : resolved.declaration? = stmt.declaration?
  accepted : quiet → resolved.Each Accepted

/-- What comes of resolving statements where some layers are known. -/
structure ResolvesTo (quiet : Prop) (layers : List Layer) (body : List (Stmt Unit))
    (resolved : List (Stmt Hops)) : Prop where
  sites : Resolves quiet (sitesIn layers body) (sitesIn layers resolved)
  declarations : resolved.filterMap Stmt.declaration? = body.filterMap Stmt.declaration?
  accepted : quiet → eachIn Accepted resolved

/-- What comes of resolving a function where some layers are known. -/
structure Function.ResolvesTo (quiet : Prop) (layers : List Layer) (decl : Function Unit)
    (resolved : Function Hops) : Prop where
  sites : Resolves quiet (decl.sites layers) (resolved.sites layers)
  name : resolved.name = decl.name
  accepted : quiet → resolved.Each Accepted

theorem Idle.after {layers : List Layer} (idle : Idle layers) (stmt : Stmt Unit) :
    Idle (stmt.after layers) := by
  unfold Stmt.after
  split
  · exact idle
  · exact idle.learn _

theorem Stmt.after_plain {ρ : Type} {stmt : Stmt ρ} (plain : stmt.declared? = none)
    (layers : List Layer) : stmt.after layers = layers := by
  rw [Stmt.after, plain]

/-- What a statement of a body declares belongs to the scope of the body. -/
theorem Hosts.of_mem {ρ : Type} {params : List Token} {body : List (Stmt ρ)} {stmt : Stmt ρ}
    {name : Token} (layers : List Layer) (member : stmt ∈ body)
    (declared : stmt.declared? = some name) (proper : ProperName name.lexeme) :
    Hosts (entering params body :: layers) name := by
  refine ⟨proper, ?_⟩
  rintro _ ⟨⟩
  rw [Stmt.declaration?_eq, Option.map_eq_some_iff] at declared
  obtain ⟨found, declared, rfl⟩ := declared
  have inside := mem_ofBody.mpr (.inr ⟨stmt, member, declared⟩ :
    (∃ param ∈ params, found = ⟨param, []⟩) ∨ _)
  simpa [entering, LocalScope.declares] using .inr ⟨found, inside, rfl⟩

theorem Hosts.of_param {ρ : Type} {params : List Token} {body : List (Stmt ρ)} {name : Token}
    {layer : Layer} (layers : List Layer) (same : layer.scope = .ofBody params body)
    (member : name ∈ params) (proper : ProperName name.lexeme) : Hosts (layer :: layers) name := by
  refine ⟨proper, ?_⟩
  rintro _ ⟨⟩
  have inside := mem_ofBody.mpr (.inl ⟨name, member, rfl⟩ :
    _ ∨ ∃ stmt ∈ body, stmt.declaration? = some ⟨name, []⟩)
  rw [same]
  simpa [LocalScope.declares] using .inr ⟨_, inside, rfl⟩

/-- The scope of a block or a function declares no name of the language. -/
theorem proper_of_declares {params : List Token} {body : List (Stmt Unit)}
    (proper : ∀ param ∈ params, ProperName param.lexeme) (formed : eachIn Formed body)
    {name : String} (declares : (LocalScope.ofBody params body).declares name = true) :
    ProperName name := by
  obtain ⟨found, member, same⟩ : ∃ found ∈ (LocalScope.ofBody params body).declarations,
      found.name.lexeme = name := by
    have empty : (LocalScope.ofBody params body).implicit = [] := rfl
    simpa only [LocalScope.declares, empty, List.contains_nil, Bool.false_or, List.any_eq_true,
      beq_iff_eq] using declares
  rw [← same]
  rcases mem_ofBody.mp member with ⟨param, inside, rfl⟩ | ⟨stmt, inside, declared⟩
  · exact proper param inside
  · refine (eachIn_iff.mp formed stmt inside).here.names found.name ?_
    rw [Stmt.declaration?_eq, declared]
    rfl

/-- The scope of a block or a function is entered with its parameters. -/
theorem Corresponds.entering {around inside : Enclosing} {layers : List Layer} {quiet : Prop}
    {params : List Token} {body : List (Stmt Unit)} (corresponds : Corresponds around layers)
    (idle : Idle layers) (proper : ∀ param ∈ params, ProperName param.lexeme)
    (formed : eachIn Formed body)
    (yields : (introduceAll (around.enter []) params : Verdict _).Yields quiet inside) :
    Corresponds inside (Layer.entering params body :: layers) := by
  have blank : Corresponds (around.enter []) (⟨.ofBody params body, [], none⟩ :: layers) :=
    corresponds.enter idle (fun _ => rfl) (by simp)
      fun _ declares => proper_of_declares proper formed declares
  have further := introduceAll_corresponds blank (List.forall_mem_cons.mpr ⟨rfl, idle⟩)
    (fun param member => .of_param layers rfl member (proper param member)) yields
  simpa [Layer.entering] using further

theorem Hosts.of_formed {params : List Token} {body : List (Stmt Unit)} (layers : List Layer)
    (formed : eachIn Formed body) :
    ∀ stmt ∈ body, ∀ name ∈ stmt.declared?, Hosts (entering params body :: layers) name :=
  fun stmt member name declared =>
    .of_mem layers member declared ((eachIn_iff.mp formed stmt member).here.names name declared)

/-- Statements that resolve in a scope of their own. -/
theorem ResolvesTo.scoped {quiet : Prop} {layers : List Layer} {params : List Token}
    {body : List (Stmt Unit)} {resolved : List (Stmt Hops)}
    (own : ResolvesTo quiet (entering params body :: layers) body resolved) :
    Resolves quiet (sitesIn (entering params body :: layers) body)
      (sitesIn (entering params resolved :: layers) resolved) := by
  have same : entering params resolved = entering params body := by
    simp only [entering, LocalScope.ofBody, own.declarations]
  rw [same]
  exact own.sites

theorem Stmt.Formed.transfer {stmt : Stmt Unit} {resolved : Stmt Hops} (formed : stmt.Formed)
    (same : resolved.declaration? = stmt.declaration?)
    (plain : ∀ branch ∈ resolved.branches, branch.declared? = none) : resolved.Formed := by
  refine ⟨fun name declared => formed.names name ?_, plain⟩
  rwa [declaration?_eq, ← same, ← declaration?_eq]

theorem Stmt.ResolvesTo.plain {quiet : Prop} {layers : List Layer} {stmt : Stmt Unit}
    {resolved : Stmt Hops} (own : stmt.ResolvesTo quiet layers resolved)
    (plain : stmt.declared? = none) : resolved.declared? = none := by
  rwa [declaration?_eq, own.declaration, ← declaration?_eq]

theorem Stmt.ResolvesTo.after {quiet : Prop} {layers : List Layer} {stmt : Stmt Unit}
    {resolved : Stmt Hops} (own : stmt.ResolvesTo quiet layers resolved) :
    resolved.after layers = stmt.after layers := by
  simp only [Stmt.after, declaration?_eq, own.declaration]

theorem Hosts.after {ρ : Type} {layers : List Layer} {name : Token} (hosts : Hosts layers name)
    (stmt : Stmt ρ) : Hosts (stmt.after layers) name := by
  unfold Stmt.after
  split
  · exact hosts
  · exact hosts.learn _

theorem Idle.forMethods {layers : List Layer} (idle : Idle layers) (derived : Bool) :
    Idle (Layer.forMethods derived layers) := by
  cases derived with
  | false => exact List.forall_mem_cons.mpr ⟨rfl, idle⟩
  | true => exact List.forall_mem_cons.mpr ⟨rfl, List.forall_mem_cons.mpr ⟨rfl, idle⟩⟩

mutual

/-- **Resolving a statement**: its references are annotated with what is known where they stand. -/
theorem Stmt.resolve_spec {quiet : Prop} : {room : Nat} → {around after : Enclosing} →
    {layers : List Layer} → (stmt : Stmt Unit) → {resolved : Stmt Hops} → stmt.Each Formed →
    Corresponds around layers → Idle layers → (∀ name ∈ stmt.declared?, Hosts layers name) →
    (stmt.resolve around room : Verdict _).Yields quiet (resolved, after) →
    stmt.ResolvesTo quiet layers resolved ∧ Corresponds after (stmt.after layers)
  | _, around, _, layers, .block body, _, formed, corresponds, idle, _, yields => by
    simp only [Stmt.resolve, yields_descend, yields_bind, yields_pure, Prod.mk.injEq] at yields
    obtain ⟨_, body', inner, rfl, rfl⟩ := yields
    have start : (introduceAll (around.enter []) [] : Verdict _).Yields quiet (around.enter []) :=
      yields_pure.mpr rfl
    have entered : Corresponds (around.enter []) (entering [] body :: layers) :=
      corresponds.entering idle (List.forall_mem_nil _) formed.2 start
    have own := resolveAll_spec body formed.2 entered
      (List.forall_mem_cons.mpr ⟨rfl, idle⟩) (.of_formed layers formed.2) inner
    refine ⟨⟨own.scoped, rfl, fun here => ⟨⟨?_, trivial⟩, own.accepted here⟩⟩, corresponds⟩
    exact formed.1.transfer rfl (List.forall_mem_nil _)
  | _, _, _, layers, .function decl, _, formed, corresponds, idle, hosts, yields => by
    simp only [Stmt.resolve, yields_descend, yields_bind, yields_pure, Prod.mk.injEq] at yields
    obtain ⟨_, next, first, decl', inner, rfl, rfl⟩ := yields
    have known := corresponds.introduce idle (hosts decl.name rfl) first
    have own := decl.resolve_spec formed.2 (known.routine _) (idle.learn _) inner
    have declared : (Stmt.function decl').declaration? = (Stmt.function decl).declaration? := by
      simp [Stmt.declaration?, own.name]
    refine ⟨⟨?_, declared, fun here => ⟨⟨?_, trivial⟩, own.accepted here⟩⟩, known⟩
    · rw [Stmt.sites, Stmt.sites, own.name]
      exact own.sites
    · exact formed.1.transfer declared (List.forall_mem_nil _)
  | _, _, _, layers, .class_ name superclass methods, _, formed, corresponds, idle, hosts,
      yields => by
    simp only [Stmt.resolve, yields_descend, yields_bind, yields_pure, Prod.mk.injEq] at yields
    obtain ⟨_, next, first, superclass', parent, methods', inner, rfl, rfl⟩ := yields
    have known := corresponds.introduce idle (hosts name rfl) first
    obtain ⟨annotates, some, other⟩ := resolveSuperclass_annotates parent
    have inside := known.forMethods (idle.learn _) superclass'.isSome
    obtain ⟨sites, accepted⟩ := resolveMethods_spec methods formed.2 inside
      ((idle.learn _).forMethods _) inner
    refine ⟨⟨?_, rfl, fun here => ⟨⟨?_, ?_⟩, accepted here⟩⟩, known⟩
    · rw [Stmt.sites, Stmt.sites, ← some]
      exact (annotates.place known).append sites
    · exact formed.1.transfer rfl (List.forall_mem_nil _)
    · cases superclass' with
      | none => trivial
      | some parent' => exact other here parent' rfl
  | _, _, _, layers, .expression value, _, formed, corresponds, _, _, yields
  | _, _, _, layers, .print _ value, _, formed, corresponds, _, _, yields => by
    simp only [Stmt.resolve, yields_descend, yields_bind, yields_pure, Prod.mk.injEq] at yields
    obtain ⟨_, value', inner, rfl, rfl⟩ := yields
    have annotates := value.resolve_annotates inner
    refine ⟨⟨annotates.place corresponds, rfl,
      fun _ => ⟨⟨?_, trivial⟩, .of_forall (fun _ => trivial) _⟩⟩, corresponds⟩
    exact formed.1.transfer rfl (List.forall_mem_nil _)
  | _, _, _, layers, .ifThen cond branch, _, formed, corresponds, idle, _, yields
  | _, _, _, layers, .while_ cond branch, _, formed, corresponds, idle, _, yields => by
    simp only [Stmt.resolve, yields_descend, yields_bind, yields_pure, Prod.mk.injEq] at yields
    obtain ⟨_, cond', test, ⟨branch', _⟩, inner, rfl, rfl⟩ := yields
    have plain := formed.1.branches branch List.mem_cons_self
    obtain ⟨own, next⟩ := branch.resolve_spec formed.2.2 corresponds idle (by simp [plain]) inner
    rw [Stmt.after_plain plain] at next
    refine ⟨⟨((cond.resolve_annotates test).place corresponds).append own.sites, rfl,
      fun here => ⟨⟨?_, trivial⟩, .of_forall (fun _ => trivial) _, own.accepted here⟩⟩, next⟩
    exact formed.1.transfer rfl (List.forall_mem_singleton.mpr (own.plain plain))
  | _, _, _, layers, .ifElse cond yes no, _, formed, corresponds, idle, _, yields => by
    simp only [Stmt.resolve, yields_descend, yields_bind, yields_pure, Prod.mk.injEq] at yields
    obtain ⟨_, cond', test, ⟨yes', _⟩, first, ⟨no', _⟩, second, rfl, rfl⟩ := yields
    have plain := formed.1.branches yes List.mem_cons_self
    have plain' := formed.1.branches no (by simp [Stmt.branches])
    obtain ⟨own, next⟩ := yes.resolve_spec formed.2.2.1 corresponds idle (by simp [plain]) first
    rw [Stmt.after_plain plain] at next
    obtain ⟨own', next⟩ := no.resolve_spec formed.2.2.2 next idle (by simp [plain']) second
    rw [Stmt.after_plain plain'] at next
    have tested := (cond.resolve_annotates test).place corresponds
    refine ⟨⟨(tested.append own.sites).append own'.sites, rfl, fun here => ⟨⟨?_, trivial⟩,
      .of_forall (fun _ => trivial) _, own.accepted here, own'.accepted here⟩⟩, next⟩
    exact formed.1.transfer rfl (List.forall_mem_cons.mpr
      ⟨own.plain plain, List.forall_mem_singleton.mpr (own'.plain plain')⟩)
  | _, _, _, layers, .return_ keyword value, _, formed, corresponds, idle, hosts, yields => by
    simp only [Stmt.resolve, yields_descend, yields_bind, yields_objectIf, yields_pure,
      Prod.mk.injEq, exists_const] at yields
    obtain ⟨_, _, _, value', inner, rfl, rfl⟩ := yields
    refine ⟨⟨(resolveOptional_annotates inner).place corresponds, rfl,
      fun _ => ⟨⟨?_, trivial⟩, fun _ _ => .of_forall (fun _ => trivial) _⟩⟩, corresponds⟩
    exact formed.1.transfer rfl (List.forall_mem_nil _)
  | _, _, _, layers, .var name init, _, formed, corresponds, idle, hosts, yields => by
    simp only [Stmt.resolve, yields_descend, declare, yields_bind, yields_objectIf, yields_pure,
      Prod.mk.injEq, exists_const] at yields
    obtain ⟨_, _, ⟨_, rfl⟩, init', inner, rfl, rfl⟩ := yields
    have begun := corresponds.begin idle (hosts name rfl)
    have annotates := resolveOptional_annotates inner
    have declared : (Stmt.var name init').declaration? = (Stmt.var name init).declaration? := by
      simp only [Stmt.declaration?, tokensUsed, annotates.same, List.map_map]
      rfl
    refine ⟨⟨annotates.place begun, declared,
      fun _ => ⟨⟨?_, trivial⟩, fun _ _ => .of_forall (fun _ => trivial) _⟩⟩,
      .complete (hosts name rfl) begun⟩
    exact formed.1.transfer declared (List.forall_mem_nil _)

/-- **Resolving statements** one after the other. -/
theorem resolveAll_spec {quiet : Prop} : {room : Nat} → {around : Enclosing} →
    {layers : List Layer} → (body : List (Stmt Unit)) → {resolved : List (Stmt Hops)} →
    eachIn Formed body → Corresponds around layers → Idle layers →
    (∀ stmt ∈ body, ∀ name ∈ stmt.declared?, Hosts layers name) →
    (resolveAll around room body : Verdict _).Yields quiet resolved →
    ResolvesTo quiet layers body resolved
  | _, _, _, [], _, _, _, _, _, yields => by
    obtain rfl := yields_pure.mp yields
    exact ⟨.nil, rfl, fun _ => trivial⟩
  | _, _, layers, stmt :: more, _, formed, corresponds, idle, hosts, yields => by
    simp only [resolveAll, yields_bind, yields_pure] at yields
    obtain ⟨⟨stmt', after⟩, first, more', rest, rfl⟩ := yields
    obtain ⟨here, others⟩ := List.forall_mem_cons.mp hosts
    obtain ⟨own, next⟩ := stmt.resolve_spec formed.1 corresponds idle here first
    have further := resolveAll_spec more formed.2 next (idle.after stmt)
      (fun other member name declared => (others other member name declared).after stmt) rest
    refine ⟨?_, ?_, fun here => ⟨own.accepted here, further.accepted here⟩⟩
    · rw [sitesIn, sitesIn, own.after]
      exact own.sites.append further.sites
    · simp only [List.filterMap_cons, own.declaration, further.declarations]

/-- **Resolving a function** where its name is known. -/
theorem Function.resolve_spec {quiet : Prop} : {room : Nat} → {around : Enclosing} →
    {layers : List Layer} → (decl : Function Unit) → {resolved : Function Hops} →
    decl.Each Formed → Corresponds around layers → Idle layers →
    (decl.resolve around room : Verdict _).Yields quiet resolved →
    decl.ResolvesTo quiet layers resolved
  | _, _, layers, .mk name params body, _, formed, corresponds, idle, yields => by
    simp only [Function.resolve, yields_descend, yields_bind, yields_pure] at yields
    obtain ⟨_, inside, first, body', second, rfl⟩ := yields
    have own := resolveAll_spec body formed.2 (corresponds.entering idle formed.1 formed.2 first)
      (List.forall_mem_cons.mpr ⟨rfl, idle⟩) (.of_formed layers formed.2) second
    exact ⟨own.scoped, rfl, fun here => ⟨formed.1, own.accepted here⟩⟩

theorem resolveMethods_spec {quiet : Prop} : {room : Nat} → {around : Enclosing} →
    {layers : List Layer} → (methods : List (Function Unit)) → {resolved : List (Function Hops)} →
    eachMethod Formed methods → Corresponds around layers → Idle layers →
    (resolveMethods around room methods : Verdict _).Yields quiet resolved →
    Resolves quiet (sitesInMethods layers methods) (sitesInMethods layers resolved) ∧
      (quiet → eachMethod Accepted resolved)
  | _, _, _, [], _, _, _, _, yields => by
    obtain rfl := yields_pure.mp yields
    exact ⟨.nil, fun _ => trivial⟩
  | _, _, layers, method :: more, _, formed, corresponds, idle, yields => by
    simp only [resolveMethods, yields_bind, yields_pure] at yields
    obtain ⟨method', first, more', rest, rfl⟩ := yields
    have own := method.resolve_spec formed.1 (corresponds.routine _) idle first
    obtain ⟨sites, accepted⟩ := resolveMethods_spec more formed.2 corresponds idle rest
    exact ⟨own.sites.append sites, fun here => ⟨own.accepted here, accepted here⟩⟩

end

/-! ### References that lead somewhere -/

/-- Where an annotated reference leads. A variable that is read is complete there, `this` and
`super` always lead to the scopes of their class, and those lie next to each other. -/
def Site.Leads (site : Site Hops) : Prop :=
  let name := site.reference.token.lexeme
  match site.use with
  | .read => ∀ hops, site.reference.target = some hops → Sure name site.layers hops
  | .assign => ProperName name ∧ ∀ hops, site.reference.target = some hops →
      ∃ layer, site.layers[hops]? = some layer ∧ layer.scope.declares name = true
  | .this => name = thisName ∧
      ∃ hops, site.reference.target = some hops ∧ Sure thisName site.layers hops
  | .super => ∃ hops, site.reference.target = some (hops + 1) ∧
      Sure superName site.layers (hops + 1) ∧ Sure thisName site.layers hops

/-- The scope to which a reference leads knows its name. -/
theorem Layer.exists_of_findIdx? {layers : List Layer} {name : String} {hops : Nat}
    (found : layers.findIdx? (·.knows name) = some hops) :
    ∃ layer, layers[hops]? = some layer ∧ layer.knows name = true := by
  obtain ⟨inside, known, _⟩ := List.findIdx?_eq_some_iff_getElem.mp found
  exact ⟨layers[hops], List.getElem?_eq_getElem inside, known⟩

/-- A variable that may be read is complete in the innermost scope that knows it. -/
theorem Corresponds.sure_of_read {around : Enclosing} {layers : List Layer}
    (corresponds : Corresponds around layers) {name : String}
    (settled : around.initializing name = false) {hops : Nat}
    (found : layers.findIdx? (·.knows name) = some hops) : Sure name layers hops := by
  obtain ⟨layer, at_, known⟩ := exists_of_findIdx? found
  refine ⟨layer, at_, (knows_iff.mp known).resolve_left fun pending => ?_⟩
  obtain ⟨routine, class_, scopes⟩ := around
  cases corresponds.scopes with
  | nil => cases at_
  | @cons scope first scopes layers agrees rest =>
      cases hops with
      | zero =>
          obtain rfl := Option.some.inj at_
          have unfinished : scope.get? name = some false := by
            rw [agrees name, state, if_pos pending]
          exact beq_eq_false_iff_ne.mp settled unfinished
      | succ hops =>
          have idle := corresponds.outer layer (List.mem_of_getElem? at_)
          rw [idle] at pending
          cases pending

/-- **Without complaints, references lead somewhere.** -/
theorem Site.Permitted.leads {site : Site Unit} (permitted : site.Permitted)
    (suits : site.use.Suits site.reference.token.lexeme) : site.resolve.Leads := by
  obtain ⟨around, corresponds, permits⟩ := permitted
  obtain ⟨use, ⟨token, target⟩, layers⟩ := site
  cases use with
  | read => exact fun hops found => corresponds.sure_of_read permits found
  | assign =>
      refine ⟨suits, fun hops found => ?_⟩
      obtain ⟨layer, at_, known⟩ := exists_of_findIdx? found
      exact ⟨layer, at_, corresponds.wide layer (List.mem_of_getElem? at_) _ known⟩
  | this =>
      obtain ⟨hops, found, sure⟩ := corresponds.houses.this permits
      have same : token.lexeme = thisName := suits
      refine ⟨suits, hops, ?_, sure⟩
      simpa [Site.resolve, same] using found
  | super =>
      obtain ⟨hops, ⟨found, sure⟩, this⟩ := corresponds.houses.super permits
      have same : token.lexeme = superName := suits
      refine ⟨hops, ?_, sure, this.2⟩
      simpa [Site.resolve, same] using found

end Lox
