/-
**Tables of distances.** References that go by a table rather than by what stands beside them.

* A `Table` says of the references to local declarations how many scopes out they lead. It is made
  of what resolution has found out (`distances`), and grows by `Table.merge`.
* `Stmt.relink` and `Machine.relink` let every reference lead where a table says, in statements and
  in the functions that a machine holds.
* The table of a program agrees with what stands beside the references, as long as these are told
  apart by their tokens (`links_of_nodup`). So relinking by it changes nothing: `relinkAll_eq` for
  statements, `World.relink_eq` for a machine on which they have run.
-/

import Lox.Proofs.Mentions
import Lox.Proofs.Safety

namespace Lox

/-- How far out references to local declarations lead. -/
abbrev Table := List Distance

namespace Table

/-- Where a reference leads by a table. One without an entry is global. -/
def hops? (table : Table) (use : Use) (token : Token) : Hops :=
  (table.find? fun entry => entry.use = use ∧ entry.token = token).map Distance.hops

/-- A table with entries merged into it, which take the place of those for the same references. -/
def merge (table entries : Table) : Table :=
  table.filter (fun old => (entries.find? fun entry =>
    entry.use = old.use ∧ entry.token = old.token).isNone) ++ entries

/-- A reference leads where a table says. -/
def Links (table : Table) (used : Use × Reference Hops) : Prop :=
  table.hops? used.1 used.2.token = used.2.target

/-- The entry of a reference, if it leads to a local declaration. -/
def entry? (used : Use × Reference Hops) : Option Distance :=
  used.2.target.map fun hops => ⟨used.1, used.2.token, hops⟩

end Table

theorem distances_eq (tree : List (Stmt Hops)) :
    distances tree = (treeReferences tree).filterMap Table.entry? :=
  rfl

theorem distances_append (first second : List (Stmt Hops)) :
    distances (first ++ second) = distances first ++ distances second := by
  rw [distances_eq, treeReferences_append, List.filterMap_append]
  rfl

/-! ### What a table knows -/

namespace Table

variable {references : List (Use × Reference Hops)}

/-- The entries of references are for their tokens. -/
theorem token_mem_of_entry {entry : Distance} (member : entry ∈ references.filterMap entry?) :
    entry.token ∈ mentioned references := by
  obtain ⟨used, inside, same⟩ := List.mem_filterMap.mp member
  obtain ⟨hops, _, rfl⟩ := Option.map_eq_some_iff.mp same
  exact List.mem_map_of_mem inside

theorem find?_of_not_mem {token : Token} (absent : token ∉ mentioned references) (use : Use) :
    (references.filterMap entry?).find? (fun entry => entry.use = use ∧ entry.token = token) =
      none := by
  refine List.find?_eq_none.mpr fun entry member same => absent ?_
  rw [← (of_decide_eq_true same).2]
  exact token_mem_of_entry member

/-- **References that are told apart by their tokens lead where their table says.** -/
theorem links_of_nodup (apart : (mentioned references).Nodup) :
    ∀ used ∈ references, Links (references.filterMap entry?) used := by
  induction references with
  | nil => exact List.forall_mem_nil _
  | cons first rest ih =>
      obtain ⟨absent, others⟩ := List.nodup_cons.mp apart
      obtain ⟨use, token, target⟩ := first
      refine List.forall_mem_cons.mpr ⟨?_, fun used member => ?_⟩
      · cases target with
        | none =>
            show Option.map _ ((rest.filterMap entry?).find? _) = none
            rw [find?_of_not_mem absent use]
            rfl
        | some hops =>
            show Option.map _ ((⟨use, token, hops⟩ :: rest.filterMap entry?).find? _) = some hops
            rw [List.find?_cons_of_pos (by simp)]
            rfl
      · have inside : used.2.token ∈ mentioned rest := List.mem_map_of_mem member
        have other : token ≠ used.2.token := fun same => absent (same ▸ inside)
        cases target with
        | none => exact ih others used member
        | some hops =>
            show Option.map _ ((⟨use, token, hops⟩ :: rest.filterMap entry?).find? _) = _
            rw [List.find?_cons_of_neg (by simp [other])]
            exact ih others used member

/-- Entries for other references are added to those that there are. -/
theorem merge_of_disjoint {more : List (Use × Reference Hops)}
    (apart : (mentioned (references ++ more)).Nodup) :
    merge (references.filterMap entry?) (more.filterMap entry?) =
      (references ++ more).filterMap entry? := by
  rw [mentioned_append] at apart
  rw [merge, List.filterMap_append]
  congr 1
  refine List.filter_eq_self.mpr fun old member => ?_
  have absent : old.token ∉ mentioned more := fun inside =>
    (List.nodup_append.mp apart).2.2 _ (token_mem_of_entry member) _ inside rfl
  rw [find?_of_not_mem absent]
  rfl

end Table

/-! ### Relinking -/

section Relink

variable (table : Table)

/-- A reference that leads where a table says. -/
def Reference.relink (use : Use) (reference : Reference Hops) : Reference Hops :=
  ⟨reference.token, table.hops? use reference.token⟩

mutual

/-- An expression whose references lead where a table says. -/
def Expr.relink : Expr Hops → Expr Hops
  | .assign target value => .assign (target.relink table .assign) value.relink
  | .binary left op token right => .binary left.relink op token right.relink
  | .call callee paren args => .call callee.relink paren (relinkArguments args)
  | .get object name => .get object.relink name
  | .grouping inner => .grouping inner.relink
  | .literal value => .literal value
  | .logical left op token right => .logical left.relink op token right.relink
  | .set object name value => .set object.relink name value.relink
  | .super keyword method => .super (keyword.relink table .super) method
  | .this keyword => .this (keyword.relink table .this)
  | .unary sign token right => .unary sign token right.relink
  | .var name => .var (name.relink table .read)

/-- Arguments whose references lead where a table says. -/
def relinkArguments : List (Expr Hops) → List (Expr Hops)
  | [] => []
  | arg :: more => arg.relink :: relinkArguments more

end

mutual

/-- A statement whose references lead where a table says. -/
def Stmt.relink : Stmt Hops → Stmt Hops
  | .block body => .block (relinkAll body)
  | .function decl => .function decl.relink
  | .class_ name superclass methods =>
    .class_ name (superclass.map (Reference.relink table .read)) (relinkMethods methods)
  | .expression value => .expression (value.relink table)
  | .ifThen cond yes => .ifThen (cond.relink table) yes.relink
  | .ifElse cond yes no => .ifElse (cond.relink table) yes.relink no.relink
  | .print keyword value => .print keyword (value.relink table)
  | .return_ keyword value => .return_ keyword (value.map (Expr.relink table))
  | .var name init => .var name (init.map (Expr.relink table))
  | .while_ cond body => .while_ (cond.relink table) body.relink

/-- Statements whose references lead where a table says. -/
def relinkAll : List (Stmt Hops) → List (Stmt Hops)
  | [] => []
  | stmt :: more => stmt.relink :: relinkAll more

/-- A function whose references lead where a table says. -/
def Function.relink : Function Hops → Function Hops
  | .mk name params body => .mk name params (relinkAll body)

/-- Methods whose references lead where a table says. -/
def relinkMethods : List (Function Hops) → List (Function Hops)
  | [] => []
  | method :: more => method.relink :: relinkMethods more

end

/-- A closure whose references lead where a table says. -/
def Closure.relink (closure : Closure) : Closure :=
  { closure with decl := closure.decl.relink table }

/-- A class whose references lead where a table says. -/
def Class.relink (class_ : Class) : Class :=
  { class_ with methods := class_.methods.map fun (name, method) => (name, method.relink table) }

/-- Classes whose references lead where a table says. -/
def Hierarchy.relink (hierarchy : Hierarchy) : Hierarchy where
  classes := hierarchy.classes.map (Class.relink table)
  older := by
    intro index inside parent link
    rw [Array.getElem_map] at link
    exact hierarchy.older index (by simpa using inside) parent link

/-- A machine on which the references of all functions, and of those of all classes, lead where a
table says. -/
def Machine.relink (machine : Machine) : Machine :=
  { machine with
    functions := machine.functions.map (Closure.relink table)
    hierarchy := machine.hierarchy.relink table }

end Relink

/-! ### Relinking what is linked -/

variable {table : Table}

mutual

theorem Expr.relink_eq : (expr : Expr Hops) → (∀ used ∈ expr.references, table.Links used) →
    expr.relink table = expr
  | .assign target value, linked => by
    obtain ⟨here, inside⟩ := List.forall_mem_cons.mp linked
    rw [Expr.relink, Expr.relink_eq value inside, Reference.relink, here]
  | .binary left _ _ right, linked | .logical left _ _ right, linked
  | .set left _ right, linked => by
    obtain ⟨first, second⟩ := List.forall_mem_append.mp linked
    rw [Expr.relink, Expr.relink_eq left first, Expr.relink_eq right second]
  | .call callee _ args, linked => by
    obtain ⟨first, second⟩ := List.forall_mem_append.mp linked
    rw [Expr.relink, Expr.relink_eq callee first, relinkArguments_eq args second]
  | .get inner _, linked | .grouping inner, linked | .unary _ _ inner, linked => by
    rw [Expr.relink, Expr.relink_eq inner linked]
  | .literal _, _ => by rw [Expr.relink]
  | .super keyword _, linked | .this keyword, linked | .var keyword, linked => by
    rw [Expr.relink, Reference.relink, List.forall_mem_singleton.mp linked]

theorem relinkArguments_eq : (args : List (Expr Hops)) →
    (∀ used ∈ argumentReferences args, table.Links used) → relinkArguments table args = args
  | [], _ => by rw [relinkArguments]
  | arg :: more, linked => by
    obtain ⟨first, second⟩ := List.forall_mem_append.mp linked
    rw [relinkArguments, Expr.relink_eq arg first, relinkArguments_eq more second]

end

theorem relinkOptional_eq (value : Option (Expr Hops))
    (linked : ∀ used ∈ optionalReferences value, table.Links used) :
    value.map (Expr.relink table) = value := by
  cases value with
  | none => rfl
  | some value => exact congrArg some (value.relink_eq linked)

mutual

theorem Stmt.relink_eq : (stmt : Stmt Hops) → (∀ used ∈ stmt.references, table.Links used) →
    stmt.relink table = stmt
  | .block body, linked => by rw [Stmt.relink, relinkAll_eq body linked]
  | .function decl, linked => by rw [Stmt.relink, Function.relink_eq decl linked]
  | .class_ name superclass methods, linked => by
    obtain ⟨first, second⟩ := List.forall_mem_append.mp linked
    have parent : superclass.map (Reference.relink table .read) = superclass := by
      cases superclass with
      | none => rfl
      | some reference =>
          have here := List.forall_mem_singleton.mp first
          exact congrArg some (congrArg (Reference.mk reference.token) here)
    rw [Stmt.relink, parent, relinkMethods_eq methods second]
  | .expression value, linked | .print _ value, linked => by
    rw [Stmt.relink, value.relink_eq linked]
  | .ifThen cond body, linked | .while_ cond body, linked => by
    obtain ⟨first, second⟩ := List.forall_mem_append.mp linked
    rw [Stmt.relink, cond.relink_eq first, Stmt.relink_eq body second]
  | .ifElse cond yes no, linked => by
    obtain ⟨both, third⟩ := List.forall_mem_append.mp linked
    obtain ⟨first, second⟩ := List.forall_mem_append.mp both
    rw [Stmt.relink, cond.relink_eq first, Stmt.relink_eq yes second, Stmt.relink_eq no third]
  | .return_ _ value, linked | .var _ value, linked => by
    rw [Stmt.relink, relinkOptional_eq value linked]

/-- **Statements whose references lead where a table says** do so after relinking, too. -/
theorem relinkAll_eq : (body : List (Stmt Hops)) →
    (∀ used ∈ treeReferences body, table.Links used) → relinkAll table body = body
  | [], _ => by rw [relinkAll]
  | stmt :: more, linked => by
    obtain ⟨first, second⟩ := List.forall_mem_append.mp linked
    rw [relinkAll, Stmt.relink_eq stmt first, relinkAll_eq more second]

theorem Function.relink_eq : (decl : Function Hops) →
    (∀ used ∈ decl.references, table.Links used) → decl.relink table = decl
  | .mk name params body, linked => by rw [Function.relink, relinkAll_eq body linked]

theorem relinkMethods_eq : (methods : List (Function Hops)) →
    (∀ used ∈ methodReferences methods, table.Links used) → relinkMethods table methods = methods
  | [], _ => by rw [relinkMethods]
  | method :: more, linked => by
    obtain ⟨first, second⟩ := List.forall_mem_append.mp linked
    rw [relinkMethods, Function.relink_eq method first, relinkMethods_eq more second]

end

/-! ### Machines -/

/-- A function whose references are in order, if those that are lead where a table says. -/
theorem Function.Runs.relink_eq {ok : Site Hops → Prop} {layers : List Layer}
    {decl : Function Hops} (runs : decl.Runs ok layers)
    (links : ∀ site, ok site → table.Links site.used) : decl.relink table = decl := by
  refine decl.relink_eq fun used member => ?_
  rw [← decl.sites_used layers] at member
  obtain ⟨site, inside, rfl⟩ := List.mem_map.mp member
  exact links site (runs.sites site inside)

theorem Class.relink_eq {class_ : Class}
    (methods : ∀ binding ∈ class_.methods, binding.2.decl.relink table = binding.2.decl) :
    class_.relink table = class_ := by
  have same : class_.methods.map (fun (name, method) => (name, method.relink table)) =
      class_.methods := by
    refine (List.map_congr_left fun ⟨name, method⟩ member => ?_).trans (List.map_id _)
    show (name, method.relink table) = (name, method)
    rw [Closure.relink, methods (name, method) member]
  rw [Class.relink, same]

theorem Hierarchy.relink_eq {hierarchy : Hierarchy} (classes : ∀ class_ ∈ hierarchy.classes,
      ∀ binding ∈ class_.methods, binding.2.decl.relink table = binding.2.decl) :
    hierarchy.relink table = hierarchy := by
  have same : hierarchy.classes.map (Class.relink table) = hierarchy.classes :=
    (Array.map_congr_left fun class_ member => Class.relink_eq (classes class_ member)).trans
      (Array.map_id _)
  obtain ⟨_, _⟩ := hierarchy
  simp only [Hierarchy.relink, mk.injEq]
  exact same

/-- **On the machine of a world** every function leads where a table says, if all references that
are in order there do. -/
theorem World.relink_eq {ok : Site Hops → Prop} (world : World ok)
    (links : ∀ site, ok site → table.Links site.used) :
    world.machine.relink table = world.machine := by
  have functions : world.machine.functions.map (Closure.relink table) =
      world.machine.functions := by
    refine (Array.map_congr_left fun closure member => ?_).trans (Array.map_id _)
    obtain ⟨_, _, runs, _⟩ := world.sound.functions closure member
    rw [Closure.relink, runs.relink_eq links]
    rfl
  have hierarchy : world.machine.hierarchy.relink table = world.machine.hierarchy := by
    refine Hierarchy.relink_eq fun class_ member binding inside => ?_
    obtain ⟨_, _, runs⟩ := world.sound.classes class_ member binding inside
    exact runs.relink_eq links
  rw [Machine.relink, functions, hierarchy]

end Lox
