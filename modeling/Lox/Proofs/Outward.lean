/-
**Searching outward.** Going by what resolution has found out comes to the same as searching for
every variable from the current frame outward, in programs whose references are settled.

* `Lookup.outward` searches for variables by name, whatever resolution says about them.
* `Located.settled`: the innermost scope that declares the name of a reference at all has its
  declaration complete before the reference.
* `runs_outward`: if all variables of a text that passes are settled, both ways to find them give
  the same run.

What is needed of a frame is both which names it surely binds and which it will never bind. The
former is what `Heap.Spans` says, the latter is that a frame binds only names of its scope
(`Heap.Admits.declares`).
-/

import Lox.Proofs.Safety

namespace Lox

open Layer

variable {ρ : Type}

/-! ### Settled references -/

/-- Whether the innermost scope around a reference that declares its name, wherever, has the
declaration complete before the reference. Nothing is asked if there is no such scope. -/
def Located.settled (site : Located ρ) : Bool :=
  let name := site.reference.token
  (site.scopes.find? (·.declares name.lexeme)).all (·.completesBefore name.lexeme name.offset)

/-- All the variables of a program, be they read or assigned to, are settled. -/
def Settled (tree : List (Stmt ρ)) : Prop :=
  ∀ site ∈ locatedIn [] tree, site.use = .read ∨ site.use = .assign → site.settled = true

instance (tree : List (Stmt ρ)) : Decidable (Settled tree) :=
  inferInstanceAs (Decidable (∀ site ∈ locatedIn [] tree, _ → _))

-- The function could see the variable by the time it is called.
example : ¬ Settled (parse "{ fun f() { print a; } var a = 1; f(); }").tree := by decide +kernel

-- The assignment stands in the initializer of its own variable.
example : ¬ Settled (parse "{ var a = a = 1; }").tree := by decide +kernel

/-- A variable leads to the innermost scope that declares its name, and is complete there. -/
structure Site.Clear (site : Site Hops) : Prop where
  leads : site.Leads
  target : site.use = .read ∨ site.use = .assign →
    site.reference.target = site.layers.findIdx? (·.scope.declares site.reference.token.lexeme)
  sure : site.use = .read ∨ site.use = .assign → ∀ hops, site.reference.target = some hops →
    Sure site.reference.token.lexeme site.layers hops

/-- If the innermost scope that declares a name has it complete, it is the innermost one that knows
it. -/
theorem Layer.findIdx?_knows {layers : List Layer} {name : String}
    (wide : ∀ layer ∈ layers, layer.knows name = true → layer.scope.declares name = true)
    (complete : ∀ layer, layers.find? (·.scope.declares name) = some layer → name ∈ layer.sure) :
    layers.findIdx? (·.knows name) = layers.findIdx? (·.scope.declares name) ∧
      ∀ hops, layers.findIdx? (·.knows name) = some hops → Sure name layers hops := by
  induction layers with
  | nil => exact ⟨rfl, nofun⟩
  | cons layer more ih =>
      obtain ⟨here, others⟩ := List.forall_mem_cons.mp wide
      by_cases declares : layer.scope.declares name = true
      · have sure := complete layer (by simp [declares])
        have known : layer.knows name = true := knows_iff.mpr (.inr sure)
        rw [List.findIdx?_cons, List.findIdx?_cons, if_pos known, if_pos declares]
        refine ⟨rfl, ?_⟩
        rintro _ ⟨⟩
        exact ⟨layer, rfl, sure⟩
      · have unknown : ¬ layer.knows name = true := fun known => declares (here known)
        rw [List.findIdx?_cons, List.findIdx?_cons, if_neg unknown, if_neg declares]
        obtain ⟨same, sure⟩ := ih others fun other found => complete other (by
          simpa [declares] using found)
        refine ⟨by rw [same], fun hops found => ?_⟩
        obtain ⟨inner, before, rfl⟩ := Option.map_eq_some_iff.mp found
        exact sure inner before

/-- A settled reference that resolution permits is clear. -/
theorem Site.Timely.clear {site : Site Unit} (timely : site.Timely) (permitted : site.Permitted)
    (suits : site.use.Suits site.reference.token.lexeme)
    (settled : site.use = .read ∨ site.use = .assign → site.locate.settled = true) :
    site.resolve.Clear := by
  have leads := permitted.leads suits
  obtain ⟨around, corresponds, _⟩ := permitted
  have agree : site.use = .read ∨ site.use = .assign → _ := fun variable_ =>
    findIdx?_knows (fun layer member => corresponds.wide layer member site.reference.token.lexeme)
      fun layer found => by
        have complete := settled variable_
        simp only [Located.settled, Site.locate, List.find?_map, Function.comp_def, found,
          Option.map_some, Option.all_some] at complete
        exact ((timely layer (List.mem_of_find?_eq_some found)).sure _).mpr complete
  exact ⟨leads, fun variable_ => (agree variable_).1, fun variable_ => (agree variable_).2⟩

/-- The references of a settled text that passes are clear. -/
theorem Passes.clear {text : String} {tree : List (Stmt Hops)} {room : Nat}
    (passes : Passes text tree room) (settled : Settled (parse text).tree) :
    ∀ site ∈ sitesIn [] tree, site.Clear := by
  have timely := sitesIn_nil_timely _ (parse_formed text) (parse_ordered text)
  have located := sitesIn_locate [] (parse text).tree
  intro site member
  obtain ⟨source, inside, rfl, permitted, suits⟩ := resolve_sites passes.yields site member
  refine (timely source inside).clear permitted suits (settled source.locate ?_)
  rw [List.map_nil] at located
  rw [← located]
  exact List.mem_map_of_mem inside

/-! ### Searching for variables -/

namespace Run

/-- What a variable stands for, from a frame outward. -/
def getOutward (frame : Nat) (name : Token) : Run Value := do
  match (← get).store.get? frame name.lexeme with
  | some value => pure value
  | none => fail name (.undefinedVariable name.lexeme)

/-- Changes what a variable stands for, in the first frame outward that binds it. -/
def assignOutward (frame : Nat) (name : Token) (value : Value) : Run Unit := do
  let machine ← get
  match machine.store.assign? frame name.lexeme value with
  | some store => set { machine with store }
  | none => fail name (.undefinedVariable name.lexeme)

end Run

/-- Variables are searched for by their names. -/
def Lookup.outward : Lookup where
  bound := Run.getAt
  read frame reference := Run.getOutward frame reference.token
  write frame reference value := Run.assignOutward frame reference.token value

/-- **The search for a name ends where the innermost scope that declares it is.** If there is none,
it ends among the globals. -/
theorem Heap.Sound.holder? {heap : Heap} {ok : Site Hops → Prop} (sound : heap.Sound ok)
    {name : String} {frame : Nat} {layers : List Layer}
    (spans : heap.Spans (· = name) frame layers)
    (sure : ∀ hops, layers.findIdx? (·.scope.declares name) = some hops → Sure name layers hops) :
    match layers.findIdx? (·.scope.declares name) with
    | some hops => ∃ holder, heap.machine.store.frameAt frame hops = .ok holder ∧
        heap.machine.store.holder? name frame = some holder
    | none => heap.machine.store.holder? name frame =
        heap.machine.store.holder? name Machine.globals := by
  induction layers generalizing frame with
  | nil =>
      obtain rfl : frame = Machine.globals := spans
      rfl
  | cons layer more ih =>
      have inner := sound.ne_globals spans
      obtain ⟨scope, bound, outer, link, outward⟩ := spans
      rw [List.findIdx?_cons] at sure ⊢
      by_cases declares : layer.scope.declares name = true
      · rw [if_pos declares] at sure ⊢
        obtain ⟨_, ⟨⟩, member⟩ := sure 0 rfl
        exact ⟨frame, Store.frameAt_zero frame, Store.holder?_of_binds (bound name member rfl)⟩
      · rw [if_neg declares] at sure ⊢
        -- A frame binds only names of its scope, so the search goes on.
        have missing : ¬ heap.machine.store.binds frame name = true := fun binds => by
          obtain ⟨value, found⟩ := Store.binds_iff.mp binds
          exact declares (scope ▸ (sound.bindings frame name value found).declares inner)
        rw [Store.holder?_of_enclosing? missing link]
        have further := ih outward fun hops found => sure (hops + 1) (by rw [found]; rfl)
        cases found : more.findIdx? (·.scope.declares name) with
        | none =>
            rw [found] at further
            exact further
        | some hops =>
            rw [found] at further
            simpa only [Option.map_some, Store.frameAt_succ link] using further

/-- What is found directly is what the search finds, if both end in the same frame. -/
theorem Store.get?_of_getAt {α : Type} {store : Store α} {frame hops holder : Nat} {name : String}
    {value : α} (walked : store.frameAt frame hops = .ok holder)
    (searched : store.holder? name frame = some holder)
    (found : store.getAt frame hops name = .ok value) : store.get? frame name = some value := by
  simp only [getAt, walked] at found
  simp only [get?, searched]
  split at found
  · rw [← Except.ok.inj found]
    assumption
  · cases found

namespace Run

variable {machine : Machine} {frame : Nat}

/-- Reads from two frames come to the same if the searches end in the same frame. -/
theorem getOutward_congr {other : Nat} {name : Token}
    (same : machine.store.holder? name.lexeme frame = machine.store.holder? name.lexeme other) :
    getOutward frame name machine = getOutward other name machine := by
  have values : machine.store.get? frame name.lexeme = machine.store.get? other name.lexeme := by
    simp only [Store.get?, same]
  rw [getOutward, getOutward, get_bind, get_bind, values]

theorem assignOutward_of_holder? {name : Token} {value : Value} {holder : Nat}
    (found : machine.store.holder? name.lexeme frame = some holder) :
    assignOutward frame name value machine = define holder name.lexeme value machine := by
  rw [assignOutward, get_bind, Store.assign?, found]
  rfl

theorem assignOutward_of_none {name : Token} {value : Value}
    (missing : machine.store.holder? name.lexeme frame = none) :
    assignOutward frame name value machine =
      (fail name (.undefinedVariable name.lexeme) : Run Unit) machine := by
  rw [assignOutward, get_bind, Store.assign?, missing]
  rfl

theorem assign_of_target {reference : Reference Hops} {value : Value} {hops holder : Nat}
    (led : reference.target = some hops) (walked : machine.store.frameAt frame hops = .ok holder) :
    assign frame reference value machine =
      define holder reference.token.lexeme value machine := by
  have found : holderOf frame reference machine = .ok holder machine := by
    simp only [holderOf, get_bind, led, walked]
    rfl
  simp only [assign, Bind.bind, EStateM.bind, found]

/-- Without a target, assignment searches among the globals. -/
theorem assign_of_no_target {reference : Reference Hops} {value : Value}
    (led : reference.target = none) :
    assign frame reference value machine =
      assignOutward Machine.globals reference.token value machine := by
  cases found : machine.store.holder? reference.token.lexeme Machine.globals with
  | none =>
      have failed : holderOf frame reference machine = .error
          (.error (.undefinedVariable reference.token.lexeme) reference.token) machine := by
        simp only [holderOf, get_bind, led, found]
        rfl
      rw [assignOutward_of_none found]
      simp only [assign, Bind.bind, EStateM.bind, failed]
      rfl
  | some holder =>
      have known : holderOf frame reference machine = .ok holder machine := by
        simp only [holderOf, get_bind, led, found]
        rfl
      rw [assignOutward_of_holder? found]
      simp only [assign, Bind.bind, EStateM.bind, known]

/-- Assignments from two frames come to the same if the searches end in the same frame. -/
theorem assignOutward_congr {other : Nat} {name : Token} {value : Value}
    (same : machine.store.holder? name.lexeme frame = machine.store.holder? name.lexeme other) :
    assignOutward frame name value machine = assignOutward other name value machine := by
  rw [assignOutward, assignOutward, get_bind, get_bind, Store.assign?, Store.assign?, same]

end Run

/-- **For clear references, searching comes to the same as direct access.** -/
theorem Lookup.outward_follows : Lookup.outward.Follows Site.Clear where
  leads := Site.Clear.leads
  bound _ _ := rfl
  read {world frame site} clear use spans := by
    have sure := clear.sure (.inl use)
    have target := clear.target (.inl use)
    have holder := world.sound.holder? spans (target ▸ sure)
    rw [← target] at holder
    simp only [outward, direct, follow]
    cases led : site.reference.target with
    | none =>
        rw [led] at holder
        exact Run.getOutward_congr holder
    | some hops =>
        rw [led] at holder
        obtain ⟨holder, walked, searched⟩ := holder
        obtain ⟨value, found, _⟩ := world.sound.getAt spans (sure hops led)
        simp only [Run.getOutward, Run.getAt, Run.get_bind, found,
          Store.get?_of_getAt walked searched found]
        rfl
  write {world frame site} value clear use fits := by
    have sure := clear.sure (.inr use)
    have target := clear.target (.inr use)
    have holder := world.sound.holder? fits.weaken (target ▸ sure)
    rw [← target] at holder
    cases led : site.reference.target with
    | none =>
        rw [led] at holder
        rw [Run.assign_of_no_target led]
        exact Run.assignOutward_congr holder
    | some hops =>
        rw [led] at holder
        obtain ⟨holder, walked, searched⟩ := holder
        rw [Run.assign_of_target led walked]
        exact Run.assignOutward_of_holder? searched

/-! ### Programs -/

/-- **Settled programs run the same with either way to find variables.** If a text passes without an
issue and all its variables are settled, then running it on a new machine with every variable
searched for outward, within whatever bounds, prints the same lines, ends the same way (with the
same error at the same token, if it fails) and leaves the same machine behind, globals included. -/
theorem runs_outward {text : String} {tree : List (Stmt Hops)} {nesting : Nat}
    (passes : Passes text tree nesting) (settled : Settled (parse text).tree) (time : Clock)
    (turns room : Nat) :
    runStatements .outward turns room tree (.standard time) =
      runStatements .direct turns room tree (.standard time) := by
  have ready : Ready Site.Clear [] tree := .topLevel (passes.clear settled) passes.accepted
  have meets : (World.standard Site.Clear time True).Meets (runStatements .direct turns room tree)
      (runStatements .outward turns room tree) fun _ _ => True :=
    runStatements_meets Lookup.outward_follows turns room ready
  exact meets.same

/-- A text in which a name is shadowed, captured and assigned to. -/
def counterText : String :=
  "var n = 1; { var n = 2; fun next() { n = n + 1; return n; } next(); print next(); } print n;"

theorem runs_outward_counter :
    ∃ tree, Passes counterText tree ∧ Settled (parse counterText).tree ∧ ∀ time turns room,
      runStatements .outward turns room tree (.standard time) =
        runStatements .direct turns room tree (.standard time) := by
  obtain ⟨tree, passes⟩ : ∃ tree, Passes counterText tree := exists_passes (by decide +kernel)
  have settled : Settled (parse counterText).tree := by decide +kernel
  exact ⟨tree, passes, settled, runs_outward passes settled⟩

end Lox
