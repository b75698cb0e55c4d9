/-
**Nesting.** Resolution has a result exactly for the trees that are not nested too deeply.

* `treeDepth` measures how deeply a tree is nested: how many calls are made one inside the other to
  resolve it.
* `resolveAll_ends`: the room that resolution needs is the depth of the tree, whatever stands around
  it and whatever is complained about.
-/

import Lox.Proofs.Verdict

namespace Lox

variable {ρ : Type}

/-! ### Depth -/

mutual

/-- How deeply an expression is nested. -/
def Expr.depth : Expr ρ → Nat
  | .assign _ inner | .get inner _ | .grouping inner | .unary _ _ inner => inner.depth + 2
  | .binary left _ _ right | .logical left _ _ right | .set left _ right =>
    max left.depth right.depth + 2
  | .call callee _ args => max callee.depth (argumentsDepth args + 1) + 2
  | .literal _ | .super _ _ | .this _ | .var _ => 2

/-- How deeply the arguments of a call are nested. -/
def argumentsDepth : List (Expr ρ) → Nat
  | [] => 0
  | arg :: more => max arg.depth (argumentsDepth more)

end

/-- How deeply an expression is nested if there is one. -/
def optionalDepth : Option (Expr ρ) → Nat
  | none => 0
  | some value => value.depth

mutual

/-- How deeply a statement is nested. -/
def Stmt.depth : Stmt ρ → Nat
  | .block body => treeDepth body + 3
  | .function decl => decl.depth + 2
  | .class_ _ _ methods => methodsDepth methods + 2
  | .expression value | .print _ value => value.depth + 2
  | .ifThen cond branch | .while_ cond branch => max cond.depth branch.depth + 2
  | .ifElse cond yes no => max cond.depth (max yes.depth no.depth) + 2
  | .return_ _ value | .var _ value => optionalDepth value + 2

/-- How deeply statements are nested. -/
def treeDepth : List (Stmt ρ) → Nat
  | [] => 0
  | stmt :: more => max stmt.depth (treeDepth more)

/-- How deeply a function is nested. -/
def Function.depth : Function ρ → Nat
  | .mk _ _ body => treeDepth body + 2

/-- How deeply the methods of a class are nested. -/
def methodsDepth : List (Function ρ) → Nat
  | [] => 0
  | method :: more => max method.depth (methodsDepth more)

end

/-! ### Verdicts with a result -/

/-- A verdict has a result. -/
def Verdict.Ends {α : Type} (verdict : Verdict α) : Prop :=
  verdict.value.isSome = true

namespace Verdict

open Resolver

variable {α β : Type}

theorem ends_bind {verdict : Verdict α} {next : α → Verdict β} {rest : Prop}
    (same : ∀ value, (next value).Ends ↔ rest) : (verdict >>= next).Ends ↔ verdict.Ends ∧ rest := by
  obtain ⟨complaints, value⟩ := verdict
  cases value with
  | none => simp [Ends, Bind.bind, Verdict.bind]
  | some value => simpa [Ends, Bind.bind, Verdict.bind] using same value

theorem ends_pure {value : α} : (Pure.pure value : Verdict α).Ends ↔ True := by
  simp [Ends, Pure.pure, Verdict.pure]

/-- A last step that has a result. -/
theorem ends_map {verdict : Verdict α} {f : α → β} :
    (verdict >>= fun value => Pure.pure (f value)).Ends ↔ verdict.Ends :=
  (ends_bind fun _ => ends_pure).trans (and_iff_left trivial)

theorem ends_objectIf (condition : Bool) (token : Token) (violation : Violation) :
    (objectIf condition token violation : Verdict Unit).Ends := by
  cases condition <;> rfl

/-- Going down takes its calls on top of what is needed further down. -/
theorem ends_descend {calls room inner : Nat} {next : Nat → Verdict α}
    (same : ∀ left, (next left).Ends ↔ inner ≤ left) :
    (descend calls room next).Ends ↔ inner + calls ≤ room := by
  unfold descend
  split
  · rw [same]
    omega
  · rename_i full
    exact iff_of_false Bool.noConfusion (fun fits => full (Nat.le_trans (Nat.le_add_left _ _) fits))

theorem ends_descend_leaf {calls room : Nat} {next : Nat → Verdict α}
    (ends : ∀ left, (next left).Ends) : (descend calls room next).Ends ↔ calls ≤ room := by
  rw [ends_descend fun left => iff_of_true (ends left) (Nat.zero_le left), Nat.zero_add]

/-- A first step that always has a result. -/
theorem ends_after {verdict : Verdict α} (first : verdict.Ends) {next : α → Verdict β} {rest : Prop}
    (same : ∀ value, (next value).Ends ↔ rest) : (verdict >>= next).Ends ↔ rest :=
  (ends_bind same).trans (and_iff_right first)

end Verdict

open Verdict

theorem Reference.read_ends (around : Enclosing) (reference : Reference Unit) :
    (reference.read around : Verdict _).Ends :=
  ends_map.mpr (ends_objectIf _ _ _)

/-! ### Resolving within a depth -/

mutual

theorem Expr.resolve_ends (around : Enclosing) (room : Nat) : (expr : Expr Unit) →
    ((expr.resolve around room : Verdict _).Ends ↔ expr.depth ≤ room)
  | .assign _ inner | .get inner _ | .grouping inner | .unary _ _ inner => by
    rw [Expr.resolve, Expr.depth]
    exact ends_descend fun room => ends_map.trans (inner.resolve_ends around room)
  | .binary left _ _ right | .logical left _ _ right => by
    rw [Expr.resolve, Expr.depth]
    refine ends_descend fun room => ?_
    rw [Nat.max_le, ← left.resolve_ends around room, ← right.resolve_ends around room]
    exact ends_bind fun _ => ends_map
  | .set object _ value => by
    rw [Expr.resolve, Expr.depth]
    refine ends_descend fun room => ?_
    rw [Nat.max_le, and_comm, ← value.resolve_ends around room, ← object.resolve_ends around room]
    exact ends_bind fun _ => ends_map
  | .call callee _ args => by
    rw [Expr.resolve, Expr.depth]
    refine ends_descend fun room => ?_
    rw [Nat.max_le, ← callee.resolve_ends around room]
    exact ends_bind fun _ => ends_map.trans
      (ends_descend fun room => resolveArguments_ends around room args)
  | .literal _ => by
    rw [Expr.resolve, Expr.depth]
    exact ends_descend_leaf fun _ => ends_pure.mpr trivial
  | .super _ _ => by
    rw [Expr.resolve, Expr.depth]
    exact ends_descend_leaf fun _ =>
      (ends_after (ends_objectIf _ _ _) fun _ => ends_map).mpr (ends_objectIf _ _ _)
  | .this _ => by
    rw [Expr.resolve, Expr.depth]
    exact ends_descend_leaf fun _ => ends_map.mpr (ends_objectIf _ _ _)
  | .var name => by
    rw [Expr.resolve, Expr.depth]
    exact ends_descend_leaf fun _ => ends_map.mpr (name.read_ends around)

theorem resolveArguments_ends (around : Enclosing) (room : Nat) : (args : List (Expr Unit)) →
    ((resolveArguments around room args : Verdict _).Ends ↔ argumentsDepth args ≤ room)
  | [] => by
    rw [resolveArguments, ends_pure, argumentsDepth]
    simp
  | arg :: more => by
    rw [resolveArguments, argumentsDepth, Nat.max_le, ← arg.resolve_ends around room,
      ← resolveArguments_ends around room more]
    exact ends_bind fun _ => ends_map

end

theorem resolveOptional_ends (around : Enclosing) (room : Nat) (value : Option (Expr Unit)) :
    (resolveOptional around room value : Verdict _).Ends ↔ optionalDepth value ≤ room := by
  cases value with
  | none =>
      rw [resolveOptional, ends_pure, optionalDepth]
      simp
  | some value => exact ends_map.trans (value.resolve_ends around room)

theorem resolveSuperclass_ends (around : Enclosing) (name : Token)
    (superclass : Option (Reference Unit)) :
    (resolveSuperclass around name superclass : Verdict _).Ends := by
  cases superclass with
  | none => exact ends_pure.mpr trivial
  | some parent =>
      refine (ends_after (ends_objectIf _ _ _) fun _ => ends_map).mpr ?_
      exact parent.read_ends around

theorem declare_ends (around : Enclosing) (name : Token) :
    (declare around name : Verdict _).Ends :=
  ends_map.mpr (ends_objectIf _ _ _)

theorem introduce_ends (around : Enclosing) (name : Token) :
    (introduce around name : Verdict _).Ends :=
  ends_map.mpr (declare_ends around name)

theorem introduceAll_ends (around : Enclosing) (params : List Token) :
    (introduceAll around params : Verdict _).Ends := by
  induction params generalizing around with
  | nil => exact ends_pure.mpr trivial
  | cons param more ih =>
      refine (ends_bind fun next => iff_true_intro (ih next)).mpr ⟨?_, trivial⟩
      exact introduce_ends around param

mutual

theorem Stmt.resolve_ends (around : Enclosing) (room : Nat) : (stmt : Stmt Unit) →
    ((stmt.resolve around room : Verdict _).Ends ↔ stmt.depth ≤ room)
  | .block body => by
    rw [Stmt.resolve, Stmt.depth]
    exact ends_descend fun room => ends_map.trans (resolveAll_ends _ room body)
  | .function decl => by
    rw [Stmt.resolve, Stmt.depth]
    exact ends_descend fun room => ends_after (introduce_ends around decl.name) fun _ =>
      ends_map.trans (decl.resolve_ends _ room)
  | .expression value | .print _ value => by
    rw [Stmt.resolve, Stmt.depth]
    exact ends_descend fun room => ends_map.trans (value.resolve_ends around room)
  | .class_ name superclass methods => by
    rw [Stmt.resolve, Stmt.depth]
    exact ends_descend fun room => ends_after (introduce_ends around name) fun _ =>
      ends_after (resolveSuperclass_ends _ _ _) fun _ =>
        ends_map.trans (resolveMethods_ends _ room methods)
  | .ifThen cond branch | .while_ cond branch => by
    rw [Stmt.resolve, Stmt.depth]
    refine ends_descend fun room => ?_
    rw [Nat.max_le, ← cond.resolve_ends around room, ← branch.resolve_ends around room]
    exact ends_bind fun _ => ends_map
  | .ifElse cond yes no => by
    rw [Stmt.resolve, Stmt.depth]
    refine ends_descend fun room => ?_
    rw [Nat.max_le, Nat.max_le, ← cond.resolve_ends around room, ← yes.resolve_ends around room]
    exact ends_bind fun _ => ends_bind fun result =>
      ends_map.trans (no.resolve_ends result.2 room)
  | .return_ _ value => by
    rw [Stmt.resolve, Stmt.depth]
    exact ends_descend fun room => ends_after (ends_objectIf _ _ _) fun _ =>
      ends_after (ends_objectIf _ _ _) fun _ =>
        ends_map.trans (resolveOptional_ends around room value)
  | .var name init => by
    rw [Stmt.resolve, Stmt.depth]
    exact ends_descend fun room => ends_after (declare_ends around name) fun declared =>
      ends_map.trans (resolveOptional_ends declared room init)

theorem resolveAll_ends (around : Enclosing) (room : Nat) : (body : List (Stmt Unit)) →
    ((resolveAll around room body : Verdict _).Ends ↔ treeDepth body ≤ room)
  | [] => by
    rw [resolveAll, ends_pure, treeDepth]
    simp
  | stmt :: more => by
    rw [resolveAll, treeDepth, Nat.max_le, ← stmt.resolve_ends around room]
    exact ends_bind fun result => ends_map.trans (resolveAll_ends result.2 room more)

theorem Function.resolve_ends (around : Enclosing) (room : Nat) : (decl : Function Unit) →
    ((decl.resolve around room : Verdict _).Ends ↔ decl.depth ≤ room)
  | .mk _ params body => by
    rw [Function.resolve, Function.depth]
    exact ends_descend fun room => ends_after (introduceAll_ends _ params) fun inside =>
      ends_map.trans (resolveAll_ends inside room body)

theorem resolveMethods_ends (around : Enclosing) (room : Nat) :
    (methods : List (Function Unit)) →
    ((resolveMethods around room methods : Verdict _).Ends ↔ methodsDepth methods ≤ room)
  | [] => by
    rw [resolveMethods, ends_pure, methodsDepth]
    simp
  | method :: more => by
    rw [resolveMethods, methodsDepth, Nat.max_le, ← resolveMethods_ends around room more]
    exact (ends_bind fun _ => ends_map).trans (and_congr_left' (method.resolve_ends _ room))

end

/-- A program has a result exactly if it is not nested too deeply for the room. -/
theorem resolve_ends (tree : List (Stmt Unit)) (room : Nat) :
    (resolve tree room).Ends ↔ treeDepth tree ≤ room :=
  resolveAll_ends .topLevel room tree

end Lox
