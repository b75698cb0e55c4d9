/-
**Class chains.** From every class, following superclasses ends; and of several declarations of a
method the nearest one counts.

* `Hierarchy.Line` is a class with all that it inherits from, up to a class without a superclass.
  Superclasses are older, so that every class has a line (`Hierarchy.exists_line`).
* `Hierarchy.seek`, `Machine.seekArity` and `Run.seekProperty` are the searches along a line as
  loops, for a number of turns at most. Nothing in them says that they end; `Hierarchy.Line.seek`
  does.
* `Machine.Lineage` puts that together with the executions of class statements that the classes come
  from.
* `Session.Ran.classes_founded`: so it is with every machine that texts lead to, between any two
  steps of the way.
-/

import Lox.Proofs.ErrorPlaces
import Lox.Proofs.Pairs
import Lox.Proofs.Histories

namespace Lox

open Run

/-! ### Lines -/

namespace Hierarchy

/-- The line that begins with a class: the class, the one that it inherits from, and so on. It ends
with a class that has no superclass. -/
inductive Line (hierarchy : Hierarchy) : (place : Option Nat) → List Nat → Prop
  | past : Line hierarchy none []
  | class_ {id : Nat} {line : List Nat} (inside : id < hierarchy.classes.size)
    (above : Line hierarchy (hierarchy.superclass? id) line) : Line hierarchy (some id) (id :: line)

/-- The search for a method as a loop over places, for a number of turns at most: the method, or
past the last class nothing. Without turns left the loop has not ended. -/
def seek (hierarchy : Hierarchy) (name : String) : (turns : Nat) → (place : Option Nat) →
    Option (Option Closure)
  | _, none => some none
  | 0, some _ => none
  | turns + 1, some id =>
    match hierarchy.ownMethod? id name with
    | some method => some (some method)
    | none => seek hierarchy name turns (hierarchy.superclass? id)

variable {hierarchy : Hierarchy} {place : Option Nat} {line : List Nat}

/-- **Every class has a line.** The induction is along the order in which classes were made. -/
theorem exists_line {id : Nat} (inside : id < hierarchy.classes.size) :
    ∃ line, hierarchy.Line (some id) line := by
  induction id using Nat.strongRecOn with
  | ind id ih =>
      have above : ∃ line, hierarchy.Line (hierarchy.superclass? id) line := by
        cases link : hierarchy.superclass? id with
        | none => exact ⟨[], .past⟩
        | some parent =>
            have older := superclass?_lt link
            exact ih parent older (Nat.lt_trans older inside)
      obtain ⟨line, above⟩ := above
      exact ⟨id :: line, .class_ inside above⟩

/-- What a class finds is its own method, or else what its superclass finds. -/
theorem method?_eq_or (name : String) (id : Nat) :
    hierarchy.method? name id = (hierarchy.ownMethod? id name).or
      ((hierarchy.superclass? id).bind (hierarchy.method? name)) := by
  cases own : hierarchy.ownMethod? id name with
  | some method => exact method?_of_own own
  | none =>
      cases link : hierarchy.superclass? id with
      | none => exact method?_of_root own link
      | some parent => exact method?_of_parent own link

namespace Line

/-- **The search ends** within the line. -/
theorem seek (leads : hierarchy.Line place line) (name : String) {turns : Nat}
    (enough : line.length ≤ turns) :
    hierarchy.seek name turns place = some (place.bind (hierarchy.method? name)) := by
  induction leads generalizing turns with
  | past => cases turns <;> rfl
  | @class_ id line inside above ih =>
      cases turns with
      | zero => exact absurd enough (Nat.not_succ_le_zero _)
      | succ turns =>
          rw [Hierarchy.seek, Option.bind_some, method?_eq_or]
          cases hierarchy.ownMethod? id name with
          | some method => rfl
          | none => exact ih (Nat.le_of_succ_le_succ enough)

/-- A class finds the first method along its line. -/
theorem method?_eq (leads : hierarchy.Line place line) {name : String}
    {own : Nat → Option Closure}
    (same : ∀ id < hierarchy.classes.size, hierarchy.ownMethod? id name = own id) :
    place.bind (hierarchy.method? name) = line.findSome? own := by
  induction leads with
  | past => rfl
  | @class_ id line inside above ih =>
      rw [Option.bind_some, method?_eq_or, ih, same id inside, List.findSome?_cons]
      cases own id <;> rfl

end Line

end Hierarchy

/-! ### Arities and properties -/

/-- The number of arguments that a class takes, by a search of a number of turns at most. -/
def Machine.seekArity (machine : Machine) (turns id : Nat) : Option Nat :=
  match machine.hierarchy.seek initName turns (some id) with
  | none => none
  | some none => some 0
  | some (some method) => some method.decl.params.length

/-- A property of an instance, by a search of a number of turns at most. -/
def Run.seekProperty (turns id : Nat) (name : Token) : Run Value := do
  let machine ← get
  match machine.instances[id]? with
  | none => throw .misbound
  | some found =>
    match found.fields.get? name.lexeme with
    | some value => pure value
    | none =>
      match machine.hierarchy.seek name.lexeme turns (some found.class_) with
      | none => throw .exhausted
      | some none => fail name (.undefinedProperty name.lexeme)
      | some (some method) =>
        let bound ← Run.bind method id
        newFunction bound

namespace Hierarchy.Line

variable {machine : Machine} {id : Nat} {line : List Nat} {turns : Nat}
  (leads : machine.hierarchy.Line (some id) line) (enough : line.length ≤ turns)

include leads enough

theorem seekArity : machine.seekArity turns id = some (machine.classArity id) := by
  rw [Machine.seekArity, Machine.classArity, leads.seek initName enough, Option.bind_some]
  cases machine.hierarchy.method? initName id <;> rfl

theorem seekProperty {index : Nat} {found : Instance}
    (here : machine.instances[index]? = some found) (class_ : found.class_ = id) (name : Token) :
    Run.seekProperty turns index name machine = Run.getProperty index name machine := by
  subst class_
  rw [Run.seekProperty, Run.getProperty, get_bind, get_bind, here]
  cases own : found.fields.get? name.lexeme with
  | some value => simp only [own]
  | none =>
      simp only [own, leads.seek name.lexeme enough, Option.bind_some]
      cases machine.hierarchy.method? name.lexeme found.class_ <;> rfl

end Hierarchy.Line

/-! ### Where methods come from -/

/-- What can be found from a class, given its line and where the classes come from. The searches end
within the line, with what the program finds. That is the method of the nearest class on the line
whose statement declares one, and nothing just if none does. -/
structure Machine.Descent (machine : Machine) (origin : Nat → ClassRun) (id : Nat)
    (line : List Nat) : Prop where
  leads : machine.hierarchy.Line (some id) line
  method : ∀ name turns, line.length ≤ turns →
    machine.hierarchy.seek name turns (some id) = some (machine.hierarchy.method? name id)
  arity : ∀ turns, line.length ≤ turns →
    machine.seekArity turns id = some (machine.classArity id)
  property : ∀ index found, machine.instances[index]? = some found → found.class_ = id →
    ∀ name turns, line.length ≤ turns →
      Run.seekProperty turns index name machine = Run.getProperty index name machine
  nearest : ∀ name, machine.hierarchy.method? name id =
    line.findSome? fun ancestor => (origin ancestor).method? name
  missing : ∀ name, machine.hierarchy.method? name id = none ↔
    ∀ ancestor ∈ line, ∀ decl ∈ (origin ancestor).methods, decl.name.lexeme ≠ name

/-- **The classes of a machine.** Each one was founded by the execution of a class statement that is
on record, and has a line. Instances are of classes that exist. -/
structure Machine.Lineage (machine : Machine) (log : List Operation) (origin : Nat → ClassRun) :
    Prop where
  founded : ∀ (id : Nat) class_, machine.hierarchy.classes[id]? = some class_ →
    (origin id).operation ∈ log ∧ (origin id).Founds id class_
  lines : ∀ id < machine.hierarchy.classes.size, ∃ line, machine.Descent origin id line
  instances : ∀ found ∈ machine.instances, found.class_ < machine.hierarchy.classes.size

theorem Machine.Instantiated.lineage {machine : Machine} {log : List Operation}
    {origin : Nat → ClassRun} (instantiated : machine.Instantiated)
    (founded : ∀ (id : Nat) class_, machine.hierarchy.classes[id]? = some class_ →
      (origin id).operation ∈ log ∧ (origin id).Founds id class_) :
    machine.Lineage log origin := by
  refine ⟨founded, fun id inside => ?_, instantiated⟩
  obtain ⟨line, leads⟩ := Hierarchy.exists_line inside
  have nearest : ∀ name, machine.hierarchy.method? name id =
      line.findSome? fun ancestor => (origin ancestor).method? name := fun name => by
    refine leads.method?_eq fun ancestor inside => ?_
    have here := Array.getElem?_eq_getElem inside
    rw [Hierarchy.ownMethod?, here]
    exact (founded ancestor _ here).2.methods name
  refine ⟨line, leads, fun name _ enough => leads.seek name enough,
    fun _ enough => leads.seekArity enough,
    fun _ _ here class_ name _ enough => leads.seekProperty enough here class_ name, nearest,
    fun name => ?_⟩
  rw [nearest, List.findSome?_eq_none_iff]
  exact forall₂_congr fun _ _ => ClassRun.method?_eq_none

/-- Where the classes come from is the same for the machines after all operations. -/
theorem History.lineage {machine : Machine} {log : List Operation}
    (history : History (fun _ => False) machine log) :
    ∃ origin : Nat → ClassRun, ∀ earlier,
      (earlier = machine ∨ ∃ operation ∈ log, operation.after = earlier) →
        earlier.Lineage log origin := by
  have faithful : ∀ native : Native, False → native.Lawful ∧ (False ∨ native.Faithful) :=
    fun _ => False.elim
  obtain ⟨logged, same, known, first, valid⟩ := history.valid faithful
  cases same
  have founds : ∀ id : Nat, ∃ origin : ClassRun, ∀ class_,
      logged.machine.hierarchy.classes[id]? = some class_ →
        origin.operation ∈ logged.log ∧ origin.Founds id class_ := fun id => by
    cases here : logged.machine.hierarchy.classes[id]? with
    | none => exact ⟨⟨0, default, none, [], first, first⟩, by rintro _ ⟨⟩⟩
    | some class_ =>
        obtain ⟨origin, member, _, founds⟩ := logged.provenance.classes id class_ here
        refine ⟨origin, ?_⟩
        rintro _ ⟨rfl⟩
        exact ⟨member, founds.resolve_left known.mp⟩
  choose origin founded using founds
  refine ⟨origin, ?_⟩
  rintro earlier (rfl | ⟨operation, written, rfl⟩)
  · exact (logged.world.instantiated.resolve_left known.mp).lineage founded
  · have instantiated := (logged.instances operation written).resolve_left known.mp
    obtain ⟨past, later, split⟩ := List.append_of_mem written
    have stays := (split ▸ valid).split.2.retains.1.classes
    exact instantiated.lineage fun id class_ here => founded id class_ (stays id class_ here)

/-! ### Sessions -/

/-- The machine of a session that has run texts has a history without further native functions. -/
theorem Session.Ran.history {session : Session} {texts : List String} (ran : session.Ran texts) :
    ∃ log, History (fun _ => False) session.machine log := by
  induction ran with
  | start report time checkOnly limits => exact ⟨[], .start time⟩
  | run ran text ih =>
      obtain ⟨log, history⟩ := ih
      obtain ⟨more, further⟩ := history.run_text (fun _ => False.elim) text
      exact ⟨_, further⟩
  | reset ran ih => exact ih

/-- **Class chains are well founded.** Whatever texts a session has run, everything that was done is
written in a history, and writing it down changes nothing. In each such history, every class, at any
time, was founded by an execution of a class statement: it inherits from what the superclass
expression stood for then, and from nothing if there is none. From every class, the way up its
superclasses ends, and so do the searches for methods, arities and properties, which lead up that
way. They find the last declaration in the statement of the nearest class that declares a name, and
nothing just if no class on the way declares it. -/
theorem Session.Ran.classes_founded {session : Session} {texts : List String}
    (ran : session.Ran texts) :
    (∃ log, History (fun _ => False) session.machine log) ∧
      ∀ log, History (fun _ => False) session.machine log →
        (∃ origin : Nat → ClassRun, ∀ machine,
          (machine = session.machine ∨ ∃ operation ∈ log, operation.after = machine) →
            machine.Lineage log origin) ∧ RecordsFaithfully session.machine log :=
  ⟨ran.history, fun log history => ⟨history.lineage, recordsFaithfully _ log⟩⟩

/-- A text in which a class with a method that is declared twice is inherited from, then its name is
given to a class that inherits from its heir, and last a class statement in a function is executed
again and again, each time with the class that it has made before. -/
def dynastyText : String :=
  "class A { m() { return 1; } m() { return 2; } init(x) {} }
  class B < A {}
  class A < B { k() {} }
  fun f(S) { class T < S {} return T; }
  var C = A; for (var i = 0; i < 3; i = i + 1) C = f(C);
  print C(1).m();"

theorem Session.Ran.classes_founded_dynasty :
    let session := ((Session.start {} .zero false).run dynastyText).1
    (session.machine.printed = #["2"] ∧
      session.machine.hierarchy.classes.toList.map
          (fun class_ => (class_.name, class_.superclass)) =
        [("A", none), ("B", some 0), ("A", some 1), ("T", some 2), ("T", some 3), ("T", some 4)]) ∧
      ∃ texts, session.Ran texts ∧ ∃ log origin, History (fun _ => False) session.machine log ∧
        session.machine.Lineage log origin := by
  refine ⟨by decide +kernel, ?_⟩
  have ran := Session.Ran.run (.start {} .zero false {}) dynastyText
  obtain ⟨⟨log, history⟩, all⟩ := ran.classes_founded
  obtain ⟨origin, lineage⟩ := (all log history).1
  exact ⟨_, ran, log, origin, history, lineage _ (.inl rfl)⟩

end Lox
