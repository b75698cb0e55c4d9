/-
**Shifts.** What resolution makes of a tree that stands inside one more scope.

* `Inserted` are scopes with more among them that declare nothing, and `under` carries what that
  does to the number of scopes to leave into the scopes further in.
* `Stmt.Shifts` relates two resolved trees that differ in these numbers only. A tree that is shifted
  by nothing is itself (`Stmt.Shifts.refl`).
* `Stmt.resolve_shifts`: where resolution has a result inside additional scopes, it has one without
  them, also with more room, and the trees are shifted.
-/

import Lox.Proofs.Resolution
import Mathlib.Data.Option.Defs

namespace Lox

open Verdict (yields_bind yields_descend yields_objectIf yields_pure)

/-! ### Shifted trees -/

/-- A shift of the number of scopes to leave, seen from inside one more scope. -/
def under (shift : Nat → Nat) : Nat → Nat
  | 0 => 0
  | hops + 1 => shift hops + 1

theorem under_id {shift : Nat → Nat} (still : ∀ hops, shift hops = hops) (hops : Nat) :
    under shift hops = hops := by
  cases hops with
  | zero => rfl
  | succ hops => rw [under, still]

theorem under_id_eq : under id = id :=
  funext (under_id fun _ => rfl)

/-- A scope and the one directly inside it stay next to each other. If there is none inside it, it
stays the innermost one. -/
def Adjacent (shift : Nat → Nat) : Nat → Prop
  | 0 => shift 0 = 0
  | hops + 1 => shift (hops + 1) = shift hops + 1

theorem Adjacent.under {shift : Nat → Nat} {hops : Nat} (adjacent : Adjacent shift hops) :
    Adjacent (under shift) (hops + 1) := by
  cases hops with
  | zero => exact congrArg (· + 1) adjacent
  | succ hops => exact congrArg (· + 1) adjacent

theorem Adjacent.of_id {shift : Nat → Nat} (still : ∀ hops, shift hops = hops) (hops : Nat) :
    Adjacent shift hops := by
  cases hops with
  | zero => exact still 0
  | succ hops => rw [Adjacent, still, still]

/-- A reference that leads as far out, up to a shift. -/
def Reference.shift (shift : Nat → Nat) (reference : Reference Hops) : Reference Hops :=
  ⟨reference.token, reference.target.map shift⟩

/-- Expressions that are the same up to a shift. -/
inductive Expr.Shifts (shift : Nat → Nat) : Expr Hops → Expr Hops → Prop
  | assign {target target' : Reference Hops} {value value' : Expr Hops} :
      target' = target.shift shift → Shifts shift value value' →
      Shifts shift (.assign target value) (.assign target' value')
  | binary {left left' right right' : Expr Hops} {op : BinaryOp} {token : Token} :
      Shifts shift left left' → Shifts shift right right' →
      Shifts shift (.binary left op token right) (.binary left' op token right')
  | call {callee callee' : Expr Hops} {paren : Token} {args args' : List (Expr Hops)} :
      Shifts shift callee callee' → List.Forall₂ (Shifts shift) args args' →
      Shifts shift (.call callee paren args) (.call callee' paren args')
  | get {object object' : Expr Hops} {name : Token} :
      Shifts shift object object' → Shifts shift (.get object name) (.get object' name)
  | grouping {inner inner' : Expr Hops} :
      Shifts shift inner inner' → Shifts shift (.grouping inner) (.grouping inner')
  | literal {value : Literal} : Shifts shift (.literal value) (.literal value)
  | logical {left left' right right' : Expr Hops} {op : Connective} {token : Token} :
      Shifts shift left left' → Shifts shift right right' →
      Shifts shift (.logical left op token right) (.logical left' op token right')
  | set {object object' value value' : Expr Hops} {name : Token} :
      Shifts shift object object' → Shifts shift value value' →
      Shifts shift (.set object name value) (.set object' name value')
  | super {keyword keyword' : Reference Hops} {method : Token} :
      keyword' = keyword.shift shift → (∀ hops ∈ keyword.target, Adjacent shift hops) →
      Shifts shift (.super keyword method) (.super keyword' method)
  | this {keyword keyword' : Reference Hops} :
      keyword' = keyword.shift shift → Shifts shift (.this keyword) (.this keyword')
  | unary {sign : Sign} {token : Token} {right right' : Expr Hops} :
      Shifts shift right right' → Shifts shift (.unary sign token right) (.unary sign token right')
  | var {name name' : Reference Hops} :
      name' = name.shift shift → Shifts shift (.var name) (.var name')

mutual

/-- Statements that are the same up to a shift. Only where the innermost scope stays so may they
declare something. -/
inductive Stmt.Shifts : (Nat → Nat) → Stmt Hops → Stmt Hops → Prop
  | block {shift : Nat → Nat} {body body' : List (Stmt Hops)} :
      ShiftsIn (under shift) body body' → Stmt.Shifts shift (.block body) (.block body')
  | function {shift : Nat → Nat} {decl decl' : Function Hops} :
      shift 0 = 0 → Function.Shifts (under shift) decl decl' →
      Stmt.Shifts shift (.function decl) (.function decl')
  | plain {shift : Nat → Nat} {name : Token} {methods methods' : List (Function Hops)} :
      shift 0 = 0 → ShiftsMethods (under (under shift)) methods methods' →
      Stmt.Shifts shift (.class_ name none methods) (.class_ name none methods')
  | derived {shift : Nat → Nat} {name : Token} {parent parent' : Reference Hops}
      {methods methods' : List (Function Hops)} :
      shift 0 = 0 → parent' = parent.shift shift →
      ShiftsMethods (under (under (under shift))) methods methods' →
      Stmt.Shifts shift (.class_ name (some parent) methods)
        (.class_ name (some parent') methods')
  | expression {shift : Nat → Nat} {value value' : Expr Hops} :
      value.Shifts shift value' → Stmt.Shifts shift (.expression value) (.expression value')
  | ifThen {shift : Nat → Nat} {cond cond' : Expr Hops} {yes yes' : Stmt Hops} :
      cond.Shifts shift cond' → Stmt.Shifts shift yes yes' →
      Stmt.Shifts shift (.ifThen cond yes) (.ifThen cond' yes')
  | ifElse {shift : Nat → Nat} {cond cond' : Expr Hops} {yes yes' no no' : Stmt Hops} :
      cond.Shifts shift cond' → Stmt.Shifts shift yes yes' → Stmt.Shifts shift no no' →
      Stmt.Shifts shift (.ifElse cond yes no) (.ifElse cond' yes' no')
  | print {shift : Nat → Nat} {keyword : Token} {value value' : Expr Hops} :
      value.Shifts shift value' → Stmt.Shifts shift (.print keyword value) (.print keyword value')
  | return_ {shift : Nat → Nat} {keyword : Token} {value value' : Option (Expr Hops)} :
      Option.Rel (Expr.Shifts shift) value value' →
      Stmt.Shifts shift (.return_ keyword value) (.return_ keyword value')
  | var {shift : Nat → Nat} {name : Token} {init init' : Option (Expr Hops)} :
      shift 0 = 0 → Option.Rel (Expr.Shifts shift) init init' →
      Stmt.Shifts shift (.var name init) (.var name init')
  | while_ {shift : Nat → Nat} {cond cond' : Expr Hops} {body body' : Stmt Hops} :
      cond.Shifts shift cond' → Stmt.Shifts shift body body' →
      Stmt.Shifts shift (.while_ cond body) (.while_ cond' body')

/-- Statements in a row that are the same up to a shift. -/
inductive ShiftsIn : (Nat → Nat) → List (Stmt Hops) → List (Stmt Hops) → Prop
  | nil {shift : Nat → Nat} : ShiftsIn shift [] []
  | cons {shift : Nat → Nat} {stmt stmt' : Stmt Hops} {more more' : List (Stmt Hops)} :
      Stmt.Shifts shift stmt stmt' → ShiftsIn shift more more' →
      ShiftsIn shift (stmt :: more) (stmt' :: more')

/-- Functions that are the same up to a shift, which is that of the scope with the parameters. -/
inductive Function.Shifts : (Nat → Nat) → Function Hops → Function Hops → Prop
  | mk {shift : Nat → Nat} {name : Token} {params : List Token} {body body' : List (Stmt Hops)} :
      ShiftsIn shift body body' →
      Function.Shifts shift (.mk name params body) (.mk name params body')

/-- Methods that are the same up to a shift. -/
inductive ShiftsMethods : (Nat → Nat) → List (Function Hops) → List (Function Hops) → Prop
  | nil {shift : Nat → Nat} : ShiftsMethods shift [] []
  | cons {shift : Nat → Nat} {method method' : Function Hops}
      {more more' : List (Function Hops)} :
      Function.Shifts shift method method' → ShiftsMethods shift more more' →
      ShiftsMethods shift (method :: more) (method' :: more')

end

/-! ### Trees that are not shifted -/

theorem Reference.shift_id {shift : Nat → Nat} (still : ∀ hops, shift hops = hops)
    (reference : Reference Hops) : reference = reference.shift shift := by
  obtain rfl : shift = id := funext still
  rw [Reference.shift, Option.map_id_fun]
  rfl

mutual

theorem Expr.Shifts.refl {shift : Nat → Nat} (still : ∀ hops, shift hops = hops) :
    (expr : Expr Hops) → expr.Shifts shift expr
  | .assign target value => .assign (target.shift_id still) (.refl still value)
  | .binary left _ _ right => .binary (.refl still left) (.refl still right)
  | .call callee _ args => .call (.refl still callee) (arguments_refl still args)
  | .get object _ => .get (.refl still object)
  | .grouping inner => .grouping (.refl still inner)
  | .literal _ => .literal
  | .logical left _ _ right => .logical (.refl still left) (.refl still right)
  | .set object _ value => .set (.refl still object) (.refl still value)
  | .super keyword _ => .super (keyword.shift_id still) fun hops _ => .of_id still hops
  | .this keyword => .this (keyword.shift_id still)
  | .unary _ _ right => .unary (.refl still right)
  | .var name => .var (name.shift_id still)

theorem arguments_refl {shift : Nat → Nat} (still : ∀ hops, shift hops = hops) :
    (args : List (Expr Hops)) → List.Forall₂ (Expr.Shifts shift) args args
  | [] => .nil
  | arg :: more => .cons (.refl still arg) (arguments_refl still more)

end

theorem optional_refl {shift : Nat → Nat} (still : ∀ hops, shift hops = hops)
    (value : Option (Expr Hops)) : Option.Rel (Expr.Shifts shift) value value := by
  cases value with
  | none => exact .none
  | some value => exact .some (.refl still value)

mutual

/-- A tree is itself up to no shift. -/
theorem Stmt.Shifts.refl {shift : Nat → Nat} (still : ∀ hops, shift hops = hops) :
    (stmt : Stmt Hops) → stmt.Shifts shift stmt
  | .block body => .block (shiftsIn_refl (under_id still) body)
  | .function decl => .function (still 0) (Function.Shifts.refl (under_id still) decl)
  | .class_ _ none methods =>
    .plain (still 0) (shiftsMethods_refl (under_id (under_id still)) methods)
  | .class_ _ (some parent) methods =>
    .derived (still 0) (parent.shift_id still)
      (shiftsMethods_refl (under_id (under_id (under_id still))) methods)
  | .expression value => .expression (.refl still value)
  | .ifThen cond yes => .ifThen (.refl still cond) (Stmt.Shifts.refl still yes)
  | .ifElse cond yes no =>
    .ifElse (.refl still cond) (Stmt.Shifts.refl still yes) (Stmt.Shifts.refl still no)
  | .print _ value => .print (.refl still value)
  | .return_ _ value => .return_ (optional_refl still value)
  | .var _ init => .var (still 0) (optional_refl still init)
  | .while_ cond body => .while_ (.refl still cond) (Stmt.Shifts.refl still body)

theorem shiftsIn_refl {shift : Nat → Nat} (still : ∀ hops, shift hops = hops) :
    (body : List (Stmt Hops)) → ShiftsIn shift body body
  | [] => .nil
  | stmt :: more => .cons (Stmt.Shifts.refl still stmt) (shiftsIn_refl still more)

theorem Function.Shifts.refl {shift : Nat → Nat} (still : ∀ hops, shift hops = hops) :
    (decl : Function Hops) → decl.Shifts shift decl
  | .mk _ _ body => .mk (shiftsIn_refl still body)

theorem shiftsMethods_refl {shift : Nat → Nat} (still : ∀ hops, shift hops = hops) :
    (methods : List (Function Hops)) → ShiftsMethods shift methods methods
  | [] => .nil
  | method :: more => .cons (Function.Shifts.refl still method) (shiftsMethods_refl still more)

end

/-! ### Scopes -/

/-- A scope at the place of a statement: no declaration in it is incomplete, and it is not the one
with `super`. -/
def Scope.Settled (scope : Scope) : Prop :=
  scope.has superName = false ∧ ∀ name, scope.get? name ≠ some false

/-- Scopes, and with more among them that declare nothing. -/
inductive Inserted : (Nat → Nat) → List Scope → List Scope → Prop
  | same (scopes : List Scope) : Inserted id scopes scopes
  | here {shift : Nat → Nat} {scopes scopes' : List Scope}
      (settled : ∀ scope ∈ scopes.head?, scope.Settled) : Inserted shift scopes scopes' →
      Inserted (fun hops => shift hops + 1) scopes ([] :: scopes')
  | inside {shift : Nat → Nat} {scopes scopes' : List Scope} (scope : Scope) :
      Inserted shift scopes scopes' → Inserted (under shift) (scope :: scopes) (scope :: scopes')

namespace Inserted

variable {shift : Nat → Nat} {scopes scopes' : List Scope}

theorem hops? (inserted : Inserted shift scopes scopes') (name : String) :
    Enclosing.hops? name scopes' = (Enclosing.hops? name scopes).map shift := by
  induction inserted with
  | same scopes => rw [Option.map_id_fun, id]
  | here settled inserted ih =>
      rw [Enclosing.hops?, ih]
      simp [Bindings.has, Function.comp_def]
  | inside scope inserted ih =>
      rw [Enclosing.hops?, Enclosing.hops?, ih]
      cases scope.has name with
      | true => rfl
      | false => simp [under, Function.comp_def]

theorem adjacent (inserted : Inserted shift scopes scopes') :
    ∀ hops ∈ Enclosing.hops? superName scopes, Adjacent shift hops := by
  induction inserted with
  | same scopes => exact fun hops _ => .of_id (fun _ => rfl) hops
  | @here shift scopes scopes' settled inserted ih =>
      intro hops found
      cases hops with
      | succ hops => exact congrArg (· + 1) (ih (hops + 1) found)
      | zero =>
          cases scopes with
          | nil => cases found
          | cons scope more =>
              rw [Enclosing.hops?, (settled scope rfl).1] at found
              obtain ⟨_, _, never⟩ := Option.map_eq_some_iff.mp found
              cases never
  | inside scope inserted ih =>
      intro hops found
      rw [Enclosing.hops?] at found
      cases known : scope.has superName with
      | true =>
          rw [known] at found
          obtain rfl := Option.some.inj found
          rfl
      | false =>
          rw [known] at found
          obtain ⟨further, here, rfl⟩ := Option.map_eq_some_iff.mp found
          exact (ih further here).under

end Inserted

/-- Two places, the second one with more scopes around it. -/
structure Enclosing.Shifts (shift : Nat → Nat) (around other : Enclosing) : Prop where
  routine : other.routine = around.routine
  class_ : other.class_ = around.class_
  scopes : Inserted shift around.scopes other.scopes

namespace Enclosing.Shifts

variable {shift : Nat → Nat} {around other : Enclosing}

theorem refl (around : Enclosing) : around.Shifts id around :=
  ⟨rfl, rfl, .same _⟩

theorem enter (shifts : around.Shifts shift other) (scope : Scope) :
    (around.enter scope).Shifts (under shift) (other.enter scope) :=
  ⟨shifts.routine, shifts.class_, .inside scope shifts.scopes⟩

theorem as (shifts : around.Shifts shift other) (routine : Enclosing.Routine) :
    Shifts shift { around with routine } { other with routine } :=
  ⟨rfl, shifts.class_, shifts.scopes⟩

theorem forPlain (shifts : around.Shifts shift other) :
    (around.forMethods false).Shifts (under shift) (other.forMethods false) :=
  ⟨shifts.routine, rfl, .inside _ shifts.scopes⟩

theorem forDerived (shifts : around.Shifts shift other) :
    (around.forMethods true).Shifts (under (under shift)) (other.forMethods true) :=
  ⟨shifts.routine, rfl, .inside _ (.inside _ shifts.scopes)⟩

theorem initializing (shifts : around.Shifts shift other) (name : String) :
    other.initializing name = around.initializing name := by
  obtain ⟨routine, class_, scopes⟩ := around
  obtain ⟨routine', class', scopes'⟩ := other
  cases shifts.scopes with
  | same => rfl
  | here settled =>
      cases scopes with
      | nil => rfl
      | cons scope more =>
          refine (beq_eq_false_iff_ne.mpr ?_).symm
          exact (settled scope rfl).2 name
  | inside scope => rfl

/-- Where the innermost scope stays so, it has the same names. -/
theorem declares (shifts : around.Shifts shift other) (steady : shift 0 = 0) (name : String) :
    other.declares name = around.declares name := by
  obtain ⟨routine, class_, scopes⟩ := around
  obtain ⟨routine', class', scopes'⟩ := other
  cases shifts.scopes with
  | same => rfl
  | here settled => cases steady
  | inside scope => rfl

theorem mark (shifts : around.Shifts shift other) (steady : shift 0 = 0) (name : String)
    (complete : Bool) : (around.mark name complete).Shifts shift (other.mark name complete) := by
  obtain ⟨routine, class_, scopes⟩ := around
  obtain ⟨routine', class', scopes'⟩ := other
  obtain ⟨routines, classes, inserted⟩ := shifts
  cases inserted with
  | same =>
      cases scopes with
      | nil => exact ⟨routines, classes, .same _⟩
      | cons scope more => exact ⟨routines, classes, .same _⟩
  | here settled => cases steady
  | inside scope inserted => exact ⟨routines, classes, .inside _ inserted⟩

end Enclosing.Shifts

/-! ### Resolving without additional scopes -/

section Resolving

variable {shift : Nat → Nat} {around other : Enclosing} {quiet : Prop}

theorem Reference.resolve_shifts (shifts : around.Shifts shift other) (reference : Reference Unit) :
    reference.resolve other = (reference.resolve around).shift shift := by
  rw [Reference.resolve, shifts.scopes.hops?]
  rfl

theorem Reference.read_shifts (shifts : around.Shifts shift other) {reference : Reference Unit}
    {resolved : Reference Hops}
    (yields : (reference.read other : Verdict _).Yields quiet resolved) :
    (reference.read around : Verdict _).Yields quiet (reference.resolve around) ∧
      resolved = (reference.resolve around).shift shift := by
  simp only [Reference.read, yields_bind, yields_objectIf, yields_pure, exists_const,
    shifts.initializing] at yields ⊢
  exact ⟨⟨yields.1, trivial⟩, yields.2 ▸ reference.resolve_shifts shifts⟩

theorem declare_shifts (shifts : around.Shifts shift other) (steady : shift 0 = 0) {name : Token}
    {after : Enclosing} (yields : (declare other name : Verdict _).Yields quiet after) :
    (declare around name : Verdict _).Yields quiet (around.mark name.lexeme false) ∧
      (around.mark name.lexeme false).Shifts shift after := by
  simp only [declare, yields_bind, yields_objectIf, yields_pure, exists_const,
    shifts.declares steady] at yields ⊢
  obtain ⟨fine, rfl⟩ := yields
  exact ⟨⟨fine, trivial⟩, shifts.mark steady _ _⟩

theorem introduce_shifts (shifts : around.Shifts shift other) (steady : shift 0 = 0) {name : Token}
    {after : Enclosing} (yields : (introduce other name : Verdict _).Yields quiet after) :
    ∃ next, (introduce around name : Verdict _).Yields quiet next ∧ next.Shifts shift after := by
  simp only [introduce, yields_bind, yields_pure] at yields ⊢
  obtain ⟨declared, first, rfl⟩ := yields
  obtain ⟨fine, marked⟩ := declare_shifts shifts steady first
  exact ⟨_, ⟨_, fine, rfl⟩, marked.mark steady _ _⟩

theorem introduceAll_shifts (shifts : around.Shifts shift other) (steady : shift 0 = 0)
    {params : List Token} {after : Enclosing}
    (yields : (introduceAll other params : Verdict _).Yields quiet after) :
    ∃ next, (introduceAll around params : Verdict _).Yields quiet next ∧
      next.Shifts shift after := by
  induction params generalizing around other with
  | nil =>
      obtain rfl := yields_pure.mp yields
      exact ⟨around, yields_pure.mpr rfl, shifts⟩
  | cons param more ih =>
      simp only [introduceAll, yields_bind] at yields ⊢
      obtain ⟨middle, first, rest⟩ := yields
      obtain ⟨next, fine, marked⟩ := introduce_shifts shifts steady first
      obtain ⟨last, fine', further⟩ := ih marked rest
      exact ⟨last, ⟨next, fine, fine'⟩, further⟩

/-- The keywords of references are spelled as they should be. -/
def Spelled (references : List (Use × Reference Unit)) : Prop :=
  ∀ used ∈ references, used.1.Suits used.2.token.lexeme

mutual

/-- **Resolving an expression** in additional scopes, and without them and with more room. -/
theorem Expr.resolve_shifts (shifts : around.Shifts shift other)
    {room wider : Nat} (le : room ≤ wider) : (expr : Expr Unit) → Spelled expr.references →
    {resolved : Expr Hops} →
    (expr.resolve other room : Verdict _).Yields quiet resolved →
    ∃ direct, (expr.resolve around wider : Verdict _).Yields quiet direct ∧
      direct.Shifts shift resolved
  | .assign target value, spelled, _, yields => by
    simp only [Expr.resolve, yields_descend, yields_bind, yields_pure] at yields ⊢
    obtain ⟨fits, _, inner, rfl⟩ := yields
    obtain ⟨_, spelled⟩ := List.forall_mem_cons.mp spelled
    obtain ⟨direct, fine, same⟩ :=
      value.resolve_shifts shifts (Nat.sub_le_sub_right le 2) spelled inner
    exact ⟨_, ⟨Nat.le_trans fits le, direct, fine, rfl⟩,
      .assign (target.resolve_shifts shifts) same⟩
  | .binary left _ _ right, spelled, _, yields => by
    simp only [Expr.resolve, yields_descend, yields_bind, yields_pure] at yields ⊢
    obtain ⟨fits, _, first, _, second, rfl⟩ := yields
    obtain ⟨spelled, spelled'⟩ := List.forall_mem_append.mp spelled
    obtain ⟨direct, fine, same⟩ :=
      left.resolve_shifts shifts (Nat.sub_le_sub_right le 2) spelled first
    obtain ⟨direct', fine', same'⟩ :=
      right.resolve_shifts shifts (Nat.sub_le_sub_right le 2) spelled' second
    exact ⟨_, ⟨Nat.le_trans fits le, direct, fine, direct', fine', rfl⟩, .binary same same'⟩
  | .call callee _ args, spelled, _, yields => by
    simp only [Expr.resolve, yields_descend, yields_bind, yields_pure] at yields ⊢
    obtain ⟨fits, _, first, _, ⟨fits', second⟩, rfl⟩ := yields
    have le' := Nat.sub_le_sub_right le 2
    obtain ⟨spelled, spelled'⟩ := List.forall_mem_append.mp spelled
    obtain ⟨direct, fine, same⟩ := callee.resolve_shifts shifts le' spelled first
    obtain ⟨direct', fine', same'⟩ :=
      resolveArguments_shifts shifts (Nat.sub_le_sub_right le' 1) args spelled' second
    exact ⟨_, ⟨Nat.le_trans fits le, direct, fine, direct', ⟨Nat.le_trans fits' le', fine'⟩, rfl⟩,
      .call same same'⟩
  | .get object _, spelled, _, yields => by
    simp only [Expr.resolve, yields_descend, yields_bind, yields_pure] at yields ⊢
    obtain ⟨fits, _, inner, rfl⟩ := yields
    obtain ⟨direct, fine, same⟩ :=
      object.resolve_shifts shifts (Nat.sub_le_sub_right le 2) spelled inner
    exact ⟨_, ⟨Nat.le_trans fits le, direct, fine, rfl⟩, .get same⟩
  | .grouping expr, spelled, _, yields => by
    simp only [Expr.resolve, yields_descend, yields_bind, yields_pure] at yields ⊢
    obtain ⟨fits, _, inner, rfl⟩ := yields
    obtain ⟨direct, fine, same⟩ :=
      expr.resolve_shifts shifts (Nat.sub_le_sub_right le 2) spelled inner
    exact ⟨_, ⟨Nat.le_trans fits le, direct, fine, rfl⟩, .grouping same⟩
  | .literal value, _, _, yields => by
    simp only [Expr.resolve, yields_descend, yields_pure] at yields ⊢
    obtain ⟨fits, rfl⟩ := yields
    exact ⟨_, ⟨Nat.le_trans fits le, rfl⟩, .literal⟩
  | .logical left _ _ right, spelled, _, yields => by
    simp only [Expr.resolve, yields_descend, yields_bind, yields_pure] at yields ⊢
    obtain ⟨fits, _, first, _, second, rfl⟩ := yields
    obtain ⟨spelled, spelled'⟩ := List.forall_mem_append.mp spelled
    obtain ⟨direct, fine, same⟩ :=
      left.resolve_shifts shifts (Nat.sub_le_sub_right le 2) spelled first
    obtain ⟨direct', fine', same'⟩ :=
      right.resolve_shifts shifts (Nat.sub_le_sub_right le 2) spelled' second
    exact ⟨_, ⟨Nat.le_trans fits le, direct, fine, direct', fine', rfl⟩, .logical same same'⟩
  | .set object _ value, spelled, _, yields => by
    simp only [Expr.resolve, yields_descend, yields_bind, yields_pure] at yields ⊢
    obtain ⟨fits, _, first, _, second, rfl⟩ := yields
    obtain ⟨spelled', spelled⟩ := List.forall_mem_append.mp spelled
    obtain ⟨direct, fine, same⟩ :=
      value.resolve_shifts shifts (Nat.sub_le_sub_right le 2) spelled first
    obtain ⟨direct', fine', same'⟩ :=
      object.resolve_shifts shifts (Nat.sub_le_sub_right le 2) spelled' second
    exact ⟨_, ⟨Nat.le_trans fits le, direct, fine, direct', fine', rfl⟩, .set same' same⟩
  | .super keyword _, spelled, _, yields => by
    simp only [Expr.resolve, yields_descend, yields_bind, yields_objectIf, yields_pure,
      exists_const, shifts.class_] at yields ⊢
    obtain ⟨fits, inside, derived, rfl⟩ := yields
    have named : keyword.token.lexeme = superName := spelled _ (List.mem_singleton_self _)
    refine ⟨_, ⟨Nat.le_trans fits le, inside, derived, rfl⟩,
      .super (keyword.resolve_shifts shifts) fun hops found => ?_⟩
    exact shifts.scopes.adjacent hops (named ▸ found)
  | .this keyword, _, _, yields => by
    simp only [Expr.resolve, yields_descend, yields_bind, yields_objectIf, yields_pure,
      exists_const, shifts.class_] at yields ⊢
    obtain ⟨fits, inside, rfl⟩ := yields
    exact ⟨_, ⟨Nat.le_trans fits le, inside, rfl⟩, .this (keyword.resolve_shifts shifts)⟩
  | .unary _ _ right, spelled, _, yields => by
    simp only [Expr.resolve, yields_descend, yields_bind, yields_pure] at yields ⊢
    obtain ⟨fits, _, inner, rfl⟩ := yields
    obtain ⟨direct, fine, same⟩ :=
      right.resolve_shifts shifts (Nat.sub_le_sub_right le 2) spelled inner
    exact ⟨_, ⟨Nat.le_trans fits le, direct, fine, rfl⟩, .unary same⟩
  | .var name, _, _, yields => by
    simp only [Expr.resolve, yields_descend, yields_bind, yields_pure] at yields ⊢
    obtain ⟨fits, _, inner, rfl⟩ := yields
    obtain ⟨fine, same⟩ := Reference.read_shifts shifts inner
    exact ⟨_, ⟨Nat.le_trans fits le, _, fine, rfl⟩, .var same⟩

theorem resolveArguments_shifts (shifts : around.Shifts shift other)
    {room wider : Nat} (le : room ≤ wider) : (args : List (Expr Unit)) →
    Spelled (argumentReferences args) → {resolved : List (Expr Hops)} →
    (resolveArguments other room args : Verdict _).Yields quiet resolved →
    ∃ direct, (resolveArguments around wider args : Verdict _).Yields quiet direct ∧
      List.Forall₂ (Expr.Shifts shift) direct resolved
  | [], _, _, yields => by
    obtain rfl := yields_pure.mp yields
    exact ⟨[], yields_pure.mpr rfl, .nil⟩
  | arg :: more, spelled, _, yields => by
    simp only [resolveArguments, yields_bind, yields_pure] at yields ⊢
    obtain ⟨_, first, _, second, rfl⟩ := yields
    obtain ⟨spelled, spelled'⟩ := List.forall_mem_append.mp spelled
    obtain ⟨direct, fine, same⟩ := arg.resolve_shifts shifts le spelled first
    obtain ⟨direct', fine', same'⟩ := resolveArguments_shifts shifts le more spelled' second
    exact ⟨_, ⟨direct, fine, direct', fine', rfl⟩, .cons same same'⟩

end

theorem resolveOptional_shifts (shifts : around.Shifts shift other)
    {room wider : Nat} (le : room ≤ wider) {value : Option (Expr Unit)}
    (spelled : Spelled (optionalReferences value))
    {resolved : Option (Expr Hops)}
    (yields : (resolveOptional other room value : Verdict _).Yields quiet resolved) :
    ∃ direct, (resolveOptional around wider value : Verdict _).Yields quiet direct ∧
      Option.Rel (Expr.Shifts shift) direct resolved := by
  cases value with
  | none =>
      obtain rfl := yields_pure.mp yields
      exact ⟨none, yields_pure.mpr rfl, .none⟩
  | some value =>
      simp only [resolveOptional, yields_bind, yields_pure] at yields ⊢
      obtain ⟨_, inner, rfl⟩ := yields
      obtain ⟨direct, fine, same⟩ := value.resolve_shifts shifts le spelled inner
      exact ⟨_, ⟨direct, fine, rfl⟩, .some same⟩

end Resolving

/-- A statement may stand in an additional scope: it declares nothing there. -/
def Stmt.Placed (shift : Nat → Nat) (stmt : Stmt Unit) : Prop :=
  shift 0 = 0 ∨ stmt.Each Lox.Formed ∧ stmt.declared? = none

mutual

/-- **Resolving a statement** in additional scopes, and without them and with more room. -/
theorem Stmt.resolve_shifts {shift : Nat → Nat} {quiet : Prop} {room wider : Nat}
    (le : room ≤ wider) : {around other : Enclosing} → around.Shifts shift other →
    (stmt : Stmt Unit) →
    stmt.Placed shift → Spelled stmt.references → {resolved : Stmt Hops} → {after : Enclosing} →
    (stmt.resolve other room : Verdict _).Yields quiet (resolved, after) →
    ∃ direct next, (stmt.resolve around wider : Verdict _).Yields quiet (direct, next) ∧
      direct.Shifts shift resolved ∧ next.Shifts shift after
  | _, _, shifts, .block body, _, spelled, _, _, yields => by
    simp only [Stmt.resolve, yields_descend, yields_bind, yields_pure, Prod.mk.injEq] at yields ⊢
    obtain ⟨fits, _, inner, rfl, rfl⟩ := yields
    obtain ⟨direct, fine, same⟩ :=
      resolveAll_shifts (Nat.sub_le_sub_right le 3) (shifts.enter []) rfl body spelled inner
    exact ⟨_, _, ⟨Nat.le_trans fits le, direct, fine, rfl, rfl⟩, .block same, shifts⟩
  | _, _, shifts, .function decl, placed, spelled, _, _, yields => by
    have steady := placed.resolve_right fun here => Option.some_ne_none _ here.2
    simp only [Stmt.resolve, yields_descend, yields_bind, yields_pure, Prod.mk.injEq] at yields ⊢
    obtain ⟨fits, _, first, _, second, rfl, rfl⟩ := yields
    obtain ⟨next, fine, marked⟩ := introduce_shifts shifts steady first
    obtain ⟨direct, fine', same⟩ :=
      decl.resolve_shifts (Nat.sub_le_sub_right le 2) (marked.as .function) spelled second
    exact ⟨_, _, ⟨Nat.le_trans fits le, next, fine, direct, fine', rfl, rfl⟩, .function steady same,
      marked⟩
  | _, _, shifts, .class_ name none methods, placed, spelled, _, _, yields => by
    have steady := placed.resolve_right fun here => Option.some_ne_none _ here.2
    simp only [Stmt.resolve, yields_descend, resolveSuperclass, yields_bind, yields_pure,
      Prod.mk.injEq] at yields ⊢
    obtain ⟨fits, _, first, _, rfl, _, second, rfl, rfl⟩ := yields
    obtain ⟨next, fine, marked⟩ := introduce_shifts shifts steady first
    obtain ⟨direct, fine', same⟩ :=
      resolveMethods_shifts (Nat.sub_le_sub_right le 2) marked.forPlain methods spelled second
    exact ⟨_, _, ⟨Nat.le_trans fits le, next, fine, none, rfl, direct, fine', rfl, rfl⟩,
      .plain steady same, marked⟩
  | _, _, shifts, .class_ name (some parent) methods, placed, spelled, _, _, yields => by
    have steady := placed.resolve_right fun here => Option.some_ne_none _ here.2
    simp only [Stmt.resolve, yields_descend, resolveSuperclass, yields_bind, yields_objectIf,
      yields_pure, exists_const, Prod.mk.injEq] at yields ⊢
    obtain ⟨fits, _, first, _, ⟨apart, _, read, rfl⟩, _, second, rfl, rfl⟩ := yields
    obtain ⟨next, fine, marked⟩ := introduce_shifts shifts steady first
    obtain ⟨fine₂, same₂⟩ := Reference.read_shifts marked read
    obtain ⟨_, spelled⟩ := List.forall_mem_cons.mp spelled
    obtain ⟨direct, fine₃, same₃⟩ :=
      resolveMethods_shifts (Nat.sub_le_sub_right le 2) marked.forDerived methods spelled second
    exact ⟨_, _,
      ⟨Nat.le_trans fits le, next, fine, _, ⟨apart, _, fine₂, rfl⟩, direct, fine₃, rfl, rfl⟩,
      .derived steady same₂ same₃, marked⟩
  | _, _, shifts, .expression value, _, spelled, _, _, yields => by
    simp only [Stmt.resolve, yields_descend, yields_bind, yields_pure, Prod.mk.injEq] at yields ⊢
    obtain ⟨fits, _, inner, rfl, rfl⟩ := yields
    obtain ⟨direct, fine, same⟩ :=
      value.resolve_shifts shifts (Nat.sub_le_sub_right le 2) spelled inner
    exact ⟨_, _, ⟨Nat.le_trans fits le, direct, fine, rfl, rfl⟩, .expression same, shifts⟩
  | _, _, shifts, .ifThen cond yes, placed, spelled, _, _, yields => by
    simp only [Stmt.resolve, yields_descend, yields_bind, yields_pure, Prod.mk.injEq, Prod.exists]
      at yields ⊢
    obtain ⟨fits, _, first, _, _, second, rfl, rfl⟩ := yields
    obtain ⟨spelled, spelled'⟩ := List.forall_mem_append.mp spelled
    have placed : yes.Placed shift :=
      placed.imp_right fun here => ⟨here.1.2.2, here.1.1.branches yes List.mem_cons_self⟩
    obtain ⟨direct, fine, same⟩ :=
      cond.resolve_shifts shifts (Nat.sub_le_sub_right le 2) spelled first
    obtain ⟨direct', next, fine', same', further⟩ :=
      yes.resolve_shifts (Nat.sub_le_sub_right le 2) shifts placed spelled' second
    exact ⟨_, _, ⟨Nat.le_trans fits le, direct, fine, direct', next, fine', rfl, rfl⟩,
      .ifThen same same', further⟩
  | _, _, shifts, .ifElse cond yes no, placed, spelled, _, _, yields => by
    simp only [Stmt.resolve, yields_descend, yields_bind, yields_pure, Prod.mk.injEq, Prod.exists]
      at yields ⊢
    obtain ⟨fits, _, first, _, _, second, _, _, third, rfl, rfl⟩ := yields
    obtain ⟨spelled, spelled₃⟩ := List.forall_mem_append.mp spelled
    obtain ⟨spelled, spelled₂⟩ := List.forall_mem_append.mp spelled
    have placed₂ : yes.Placed shift :=
      placed.imp_right fun here => ⟨here.1.2.2.1, here.1.1.branches yes List.mem_cons_self⟩
    have placed₃ : no.Placed shift := placed.imp_right fun here =>
      ⟨here.1.2.2.2, here.1.1.branches no (List.mem_cons_of_mem _ List.mem_cons_self)⟩
    obtain ⟨direct, fine, same⟩ :=
      cond.resolve_shifts shifts (Nat.sub_le_sub_right le 2) spelled first
    obtain ⟨direct₂, next, fine₂, same₂, further⟩ :=
      yes.resolve_shifts (Nat.sub_le_sub_right le 2) shifts placed₂ spelled₂ second
    obtain ⟨direct₃, last, fine₃, same₃, further⟩ :=
      no.resolve_shifts (Nat.sub_le_sub_right le 2) further placed₃ spelled₃ third
    exact ⟨_, _,
      ⟨Nat.le_trans fits le, direct, fine, direct₂, next, fine₂, direct₃, last, fine₃, rfl, rfl⟩,
      .ifElse same same₂ same₃, further⟩
  | _, _, shifts, .print _ value, _, spelled, _, _, yields => by
    simp only [Stmt.resolve, yields_descend, yields_bind, yields_pure, Prod.mk.injEq] at yields ⊢
    obtain ⟨fits, _, inner, rfl, rfl⟩ := yields
    obtain ⟨direct, fine, same⟩ :=
      value.resolve_shifts shifts (Nat.sub_le_sub_right le 2) spelled inner
    exact ⟨_, _, ⟨Nat.le_trans fits le, direct, fine, rfl, rfl⟩, .print same, shifts⟩
  | _, _, shifts, .return_ _ value, _, spelled, _, _, yields => by
    simp only [Stmt.resolve, yields_descend, yields_bind, yields_objectIf, yields_pure,
      exists_const, Prod.mk.injEq, shifts.routine] at yields ⊢
    obtain ⟨fits, inside, plain, _, inner, rfl, rfl⟩ := yields
    obtain ⟨direct, fine, same⟩ :=
      resolveOptional_shifts shifts (Nat.sub_le_sub_right le 2) spelled inner
    exact ⟨_, _, ⟨Nat.le_trans fits le, inside, plain, direct, fine, rfl, rfl⟩, .return_ same,
      shifts⟩
  | _, _, shifts, .var name init, placed, spelled, _, _, yields => by
    have steady := placed.resolve_right fun here => Option.some_ne_none _ here.2
    simp only [Stmt.resolve, yields_descend, yields_bind, yields_pure, Prod.mk.injEq] at yields ⊢
    obtain ⟨fits, _, first, _, second, rfl, rfl⟩ := yields
    obtain ⟨fine, marked⟩ := declare_shifts shifts steady first
    obtain ⟨direct, fine', same⟩ :=
      resolveOptional_shifts marked (Nat.sub_le_sub_right le 2) spelled second
    exact ⟨_, _, ⟨Nat.le_trans fits le, _, fine, direct, fine', rfl, rfl⟩, .var steady same,
      marked.mark steady _ _⟩
  | _, _, shifts, .while_ cond body, placed, spelled, _, _, yields => by
    simp only [Stmt.resolve, yields_descend, yields_bind, yields_pure, Prod.mk.injEq, Prod.exists]
      at yields ⊢
    obtain ⟨fits, _, first, _, _, second, rfl, rfl⟩ := yields
    obtain ⟨spelled, spelled'⟩ := List.forall_mem_append.mp spelled
    have placed : body.Placed shift :=
      placed.imp_right fun here => ⟨here.1.2.2, here.1.1.branches body List.mem_cons_self⟩
    obtain ⟨direct, fine, same⟩ :=
      cond.resolve_shifts shifts (Nat.sub_le_sub_right le 2) spelled first
    obtain ⟨direct', next, fine', same', further⟩ :=
      body.resolve_shifts (Nat.sub_le_sub_right le 2) shifts placed spelled' second
    exact ⟨_, _, ⟨Nat.le_trans fits le, direct, fine, direct', next, fine', rfl, rfl⟩,
      .while_ same same', further⟩

theorem resolveAll_shifts {shift : Nat → Nat} {quiet : Prop} {room wider : Nat}
    (le : room ≤ wider) : {around other : Enclosing} → around.Shifts shift other → shift 0 = 0 →
    (body : List (Stmt Unit)) → Spelled (treeReferences body) → {resolved : List (Stmt Hops)} →
    (resolveAll other room body : Verdict _).Yields quiet resolved →
    ∃ direct, (resolveAll around wider body : Verdict _).Yields quiet direct ∧
      ShiftsIn shift direct resolved
  | _, _, _, _, [], _, _, yields => by
    obtain rfl := yields_pure.mp yields
    exact ⟨[], yields_pure.mpr rfl, .nil⟩
  | _, _, shifts, steady, stmt :: more, spelled, _, yields => by
    simp only [resolveAll, yields_bind, yields_pure, Prod.exists] at yields ⊢
    obtain ⟨_, _, first, _, second, rfl⟩ := yields
    obtain ⟨spelled, spelled'⟩ := List.forall_mem_append.mp spelled
    obtain ⟨direct, next, fine, same, further⟩ :=
      stmt.resolve_shifts le shifts (.inl steady) spelled first
    obtain ⟨direct', fine', same'⟩ := resolveAll_shifts le further steady more spelled' second
    exact ⟨_, ⟨direct, next, fine, direct', fine', rfl⟩, .cons same same'⟩

theorem Function.resolve_shifts {shift : Nat → Nat} {quiet : Prop} {room wider : Nat}
    (le : room ≤ wider) : {around other : Enclosing} → around.Shifts shift other →
    (decl : Function Unit) →
    Spelled decl.references → {resolved : Function Hops} →
    (decl.resolve other room : Verdict _).Yields quiet resolved →
    ∃ direct, (decl.resolve around wider : Verdict _).Yields quiet direct ∧
      direct.Shifts (under shift) resolved
  | _, _, shifts, .mk _ params body, spelled, _, yields => by
    simp only [Function.resolve, yields_descend, yields_bind, yields_pure] at yields ⊢
    obtain ⟨fits, _, first, _, second, rfl⟩ := yields
    obtain ⟨inside, fine, entered⟩ := introduceAll_shifts (shifts.enter []) rfl first
    obtain ⟨direct, fine', same⟩ :=
      resolveAll_shifts (Nat.sub_le_sub_right le 2) entered rfl body spelled second
    exact ⟨_, ⟨Nat.le_trans fits le, inside, fine, direct, fine', rfl⟩, .mk same⟩

theorem resolveMethods_shifts {shift : Nat → Nat} {quiet : Prop} {room wider : Nat}
    (le : room ≤ wider) : {around other : Enclosing} → around.Shifts shift other →
    (methods : List (Function Unit)) →
    Spelled (methodReferences methods) → {resolved : List (Function Hops)} →
    (resolveMethods other room methods : Verdict _).Yields quiet resolved →
    ∃ direct, (resolveMethods around wider methods : Verdict _).Yields quiet direct ∧
      ShiftsMethods (under shift) direct resolved
  | _, _, _, [], _, _, yields => by
    obtain rfl := yields_pure.mp yields
    exact ⟨[], yields_pure.mpr rfl, .nil⟩
  | _, _, shifts, method :: more, spelled, _, yields => by
    simp only [resolveMethods, yields_bind, yields_pure] at yields ⊢
    obtain ⟨_, first, _, second, rfl⟩ := yields
    obtain ⟨spelled, spelled'⟩ := List.forall_mem_append.mp spelled
    obtain ⟨direct, fine, same⟩ :=
      method.resolve_shifts le (shifts.as (methodRoutine method.name)) spelled first
    obtain ⟨direct', fine', same'⟩ := resolveMethods_shifts le shifts more spelled' second
    exact ⟨_, ⟨direct, fine, direct', fine', rfl⟩, .cons same same'⟩

end

end Lox
