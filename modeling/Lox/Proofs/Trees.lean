/-
**The shape of trees.** What can be asked of a tree as a whole, and what is asked of it.

* `Stmt.declared?` is the name that a statement declares where it stands, `Stmt.declarations` are
  all the names declared inside it, and `Stmt.mentions` adds the names that are used.
* `Stmt.Each` asks something of every expression, statement and function of a tree.
* `Formed` asks that no declared name is one the language uses itself, and that no branch declares
  anything; `Ordered` that names stand in the text in the order in which scopes meet them; `Limited`
  that calls and functions do not have too many arguments and parameters.
-/

import Lox.Parse
import Lox.Proofs.Tokens

namespace Lox

variable {ρ : Type}

/-! ### Names -/

/-- The lexemes that a kind of reference can have. -/
def Use.Suits : Use → String → Prop
  | read, name | assign, name => ProperName name
  | this, name => name = thisName
  | super, name => name = superName

/-- The name that a statement declares in the scope around it. -/
def Stmt.declared? : Stmt ρ → Option Token
  | .function decl => some decl.name
  | .class_ name _ _ => some name
  | .var name _ => some name
  | _ => none

/-- The statements that a statement runs in the scope around it, or does not run. -/
def Stmt.branches : Stmt ρ → List (Stmt ρ)
  | .ifThen _ yes => [yes]
  | .ifElse _ yes no => [yes, no]
  | .while_ _ body => [body]
  | _ => []

mutual

/-- All the names declared in a statement, those of parameters among them. -/
def Stmt.declarations : Stmt ρ → List Token
  | .block body => treeDeclarations body
  | .function decl => decl.name :: decl.declarations
  | .class_ name _ methods => name :: methodDeclarations methods
  | .expression _ | .print _ _ | .return_ _ _ => []
  | .ifThen _ yes => yes.declarations
  | .ifElse _ yes no => yes.declarations ++ no.declarations
  | .var name _ => [name]
  | .while_ _ body => body.declarations

/-- All the names declared in statements. -/
def treeDeclarations : List (Stmt ρ) → List Token
  | [] => []
  | stmt :: more => stmt.declarations ++ treeDeclarations more

/-- All the names declared in a function, its parameters first. -/
def Function.declarations : Function ρ → List Token
  | .mk _ params body => params ++ treeDeclarations body

/-- All the names declared in the methods of a class. -/
def methodDeclarations : List (Function ρ) → List Token
  | [] => []
  | method :: more => method.declarations ++ methodDeclarations more

end

@[simp] theorem argumentReferences_eq (args : List (Expr ρ)) :
    argumentReferences args = args.flatMap Expr.references := by
  induction args with
  | nil => simp [argumentReferences]
  | cons arg more ih => simp [argumentReferences, ih]

theorem references_subset_arguments {args : List (Expr ρ)} {arg : Expr ρ} (member : arg ∈ args) :
    arg.references ⊆ argumentReferences args := by
  rw [argumentReferences_eq]
  exact fun used inside => List.mem_flatMap.mpr ⟨arg, member, inside⟩

@[simp] theorem optionalReferences_eq (value : Option (Expr ρ)) :
    optionalReferences value = value.toList.flatMap Expr.references := by
  cases value <;> simp [optionalReferences]

@[simp] theorem treeReferences_eq (body : List (Stmt ρ)) :
    treeReferences body = body.flatMap Stmt.references := by
  induction body with
  | nil => simp [treeReferences]
  | cons stmt more ih => simp [treeReferences, ih]

@[simp] theorem methodReferences_eq (methods : List (Function ρ)) :
    methodReferences methods = methods.flatMap Function.references := by
  induction methods with
  | nil => simp [methodReferences]
  | cons method more ih => simp [methodReferences, ih]

@[simp] theorem treeDeclarations_eq (body : List (Stmt ρ)) :
    treeDeclarations body = body.flatMap Stmt.declarations := by
  induction body with
  | nil => simp [treeDeclarations]
  | cons stmt more ih => simp [treeDeclarations, ih]

@[simp] theorem methodDeclarations_eq (methods : List (Function ρ)) :
    methodDeclarations methods = methods.flatMap Function.declarations := by
  induction methods with
  | nil => simp [methodDeclarations]
  | cons method more ih => simp [methodDeclarations, ih]

/-- The tokens of references. -/
def tokensUsed (references : List (Use × Reference ρ)) : List Token :=
  references.map fun (_, reference) => reference.token

/-- All the names in a statement, whether they are declared or used there. -/
def Stmt.mentions (stmt : Stmt ρ) : List Token :=
  stmt.declarations ++ tokensUsed stmt.references

/-- All the names in a function but its own. -/
def Function.mentions (decl : Function ρ) : List Token :=
  decl.declarations ++ tokensUsed decl.references

/-- All the names in a statement but the one that it declares. -/
def Stmt.inner : Stmt ρ → List Token
  | .function decl => decl.mentions
  | .class_ _ superclass methods =>
    superclass.toList.map Reference.token ++ methods.flatMap Function.mentions
  | .var _ init => tokensUsed (optionalReferences init)
  | stmt => stmt.mentions

theorem Stmt.mem_mentions_of_declared {stmt : Stmt ρ} {name : Token}
    (declared : stmt.declared? = some name) : name ∈ stmt.mentions := by
  refine List.mem_append_left _ ?_
  cases stmt <;> simp_all [declared?, declarations]

/-- What is mentioned in a part is mentioned in the whole. -/
theorem mentions_mono {part whole : List Token} {used usedWhole : List (Use × Reference ρ)}
    (declared : part ⊆ whole) (references : used ⊆ usedWhole) :
    part ++ tokensUsed used ⊆ whole ++ tokensUsed usedWhole :=
  List.append_subset.mpr ⟨fun _ here => List.mem_append_left _ (declared here),
    fun _ here => List.mem_append_right _ (List.map_subset _ references here)⟩

theorem Stmt.mentions_block {body : List (Stmt ρ)} {stmt : Stmt ρ} (here : stmt ∈ body) :
    stmt.mentions ⊆ (Stmt.block body).mentions := by
  refine mentions_mono ?_ ?_
  · rw [declarations, treeDeclarations_eq]
    exact fun _ inside => List.mem_flatMap.mpr ⟨stmt, here, inside⟩
  · rw [references, treeReferences_eq]
    exact fun _ inside => List.mem_flatMap.mpr ⟨stmt, here, inside⟩

theorem Stmt.mentions_branch {stmt branch : Stmt ρ} (here : branch ∈ stmt.branches) :
    branch.mentions ⊆ stmt.mentions := by
  cases stmt with
  | ifThen cond yes =>
      obtain rfl := List.mem_singleton.mp here
      exact mentions_mono (List.Subset.refl _) (List.subset_append_right _ _)
  | ifElse cond yes no =>
      rcases List.mem_cons.mp here with rfl | here
      · refine mentions_mono (List.subset_append_left _ _) (List.Subset.trans ?_
          (List.subset_append_left _ _))
        exact List.subset_append_right _ _
      · obtain rfl := List.mem_singleton.mp here
        exact mentions_mono (List.subset_append_right _ _) (List.subset_append_right _ _)
  | while_ cond body =>
      obtain rfl := List.mem_singleton.mp here
      exact mentions_mono (List.Subset.refl _) (List.subset_append_right _ _)
  | _ => exact absurd here List.not_mem_nil

theorem Function.mentions_body {decl : Function ρ} {stmt : Stmt ρ} (here : stmt ∈ decl.body) :
    stmt.mentions ⊆ decl.mentions := by
  obtain ⟨name, params, body⟩ := decl
  refine mentions_mono ?_ ?_
  · rw [declarations, treeDeclarations_eq]
    exact fun _ inside => List.mem_append_right _ (List.mem_flatMap.mpr ⟨stmt, here, inside⟩)
  · rw [references, treeReferences_eq]
    exact fun _ inside => List.mem_flatMap.mpr ⟨stmt, here, inside⟩

theorem Stmt.mentions_method {name : Token} {superclass : Option (Reference ρ)}
    {methods : List (Function ρ)} {decl : Function ρ} (here : decl ∈ methods) :
    decl.mentions ⊆ (Stmt.class_ name superclass methods).mentions := by
  refine mentions_mono ?_ ?_
  · rw [declarations, methodDeclarations_eq]
    exact fun _ inside => List.mem_cons_of_mem _ (List.mem_flatMap.mpr ⟨decl, here, inside⟩)
  · rw [references, methodReferences_eq]
    exact fun _ inside => List.mem_append_right _ (List.mem_flatMap.mpr ⟨decl, here, inside⟩)

theorem Stmt.inner_subset (stmt : Stmt ρ) : stmt.inner ⊆ stmt.mentions := by
  cases stmt with
  | function decl => exact List.subset_cons_self _ _
  | class_ name superclass methods =>
      refine List.append_subset.mpr ⟨fun token parent => ?_, fun token inside => ?_⟩
      · obtain ⟨reference, here, rfl⟩ := List.mem_map.mp parent
        refine List.mem_append_right _ (List.mem_map.mpr ⟨(.read, reference), ?_, rfl⟩)
        exact List.mem_append_left _ (List.mem_map_of_mem here)
      · obtain ⟨decl, here, found⟩ := List.mem_flatMap.mp inside
        exact mentions_method here found
  | var name init => exact List.subset_cons_self _ _
  | _ => exact List.Subset.refl _

/-! ### Asking something of a whole tree -/

/-- Something to ask of every expression, every statement and every function of a tree. -/
structure Demands (ρ : Type) where
  expr : Expr ρ → Prop
  stmt : Stmt ρ → Prop
  function : Function ρ → Prop

mutual

/-- What is asked holds of every expression in an expression. -/
def Expr.Each (asked : Expr ρ → Prop) : Expr ρ → Prop
  | .assign target value => asked (.assign target value) ∧ value.Each asked
  | .binary left op token right =>
    asked (.binary left op token right) ∧ left.Each asked ∧ right.Each asked
  | .call callee paren args =>
    asked (.call callee paren args) ∧ callee.Each asked ∧ eachArgument asked args
  | .get object name => asked (.get object name) ∧ object.Each asked
  | .grouping inner => asked (.grouping inner) ∧ inner.Each asked
  | .literal value => asked (.literal value)
  | .logical left op token right =>
    asked (.logical left op token right) ∧ left.Each asked ∧ right.Each asked
  | .set object name value =>
    asked (.set object name value) ∧ object.Each asked ∧ value.Each asked
  | .super keyword method => asked (.super keyword method)
  | .this keyword => asked (.this keyword)
  | .unary sign token right => asked (.unary sign token right) ∧ right.Each asked
  | .var name => asked (.var name)

/-- What is asked holds of every expression in the arguments of a call. -/
def eachArgument (asked : Expr ρ → Prop) : List (Expr ρ) → Prop
  | [] => True
  | arg :: more => arg.Each asked ∧ eachArgument asked more

end

mutual

/-- What is asked holds everywhere in a statement. -/
def Stmt.Each (asked : Demands ρ) : Stmt ρ → Prop
  | .block body => asked.stmt (.block body) ∧ eachIn asked body
  | .function decl => asked.stmt (.function decl) ∧ decl.Each asked
  | .class_ name superclass methods =>
    asked.stmt (.class_ name superclass methods) ∧ eachMethod asked methods
  | .expression value => asked.stmt (.expression value) ∧ value.Each asked.expr
  | .ifThen cond yes =>
    asked.stmt (.ifThen cond yes) ∧ cond.Each asked.expr ∧ yes.Each asked
  | .ifElse cond yes no =>
    asked.stmt (.ifElse cond yes no) ∧ cond.Each asked.expr ∧ yes.Each asked ∧ no.Each asked
  | .print keyword value => asked.stmt (.print keyword value) ∧ value.Each asked.expr
  | .return_ keyword value =>
    asked.stmt (.return_ keyword value) ∧ ∀ expr ∈ value, expr.Each asked.expr
  | .var name init => asked.stmt (.var name init) ∧ ∀ expr ∈ init, expr.Each asked.expr
  | .while_ cond body =>
    asked.stmt (.while_ cond body) ∧ cond.Each asked.expr ∧ body.Each asked

/-- What is asked holds everywhere in statements. -/
def eachIn (asked : Demands ρ) : List (Stmt ρ) → Prop
  | [] => True
  | stmt :: more => stmt.Each asked ∧ eachIn asked more

/-- What is asked holds everywhere in a function. -/
def Function.Each (asked : Demands ρ) : Function ρ → Prop
  | .mk name params body => asked.function (.mk name params body) ∧ eachIn asked body

/-- What is asked holds everywhere in the methods of a class. -/
def eachMethod (asked : Demands ρ) : List (Function ρ) → Prop
  | [] => True
  | method :: more => method.Each asked ∧ eachMethod asked more

end

@[simp] theorem eachArgument_iff {asked : Expr ρ → Prop} {args : List (Expr ρ)} :
    eachArgument asked args ↔ ∀ arg ∈ args, arg.Each asked := by
  induction args with
  | nil => simp [eachArgument]
  | cons arg more ih => simp [eachArgument, ih]

@[simp] theorem eachIn_iff {asked : Demands ρ} {body : List (Stmt ρ)} :
    eachIn asked body ↔ ∀ stmt ∈ body, stmt.Each asked := by
  induction body with
  | nil => simp [eachIn]
  | cons stmt more ih => simp [eachIn, ih]

@[simp] theorem eachMethod_iff {asked : Demands ρ} {methods : List (Function ρ)} :
    eachMethod asked methods ↔ ∀ method ∈ methods, method.Each asked := by
  induction methods with
  | nil => simp [eachMethod]
  | cons method more ih => simp [eachMethod, ih]

/-- Whatever holds of a whole statement holds of the statement itself. -/
theorem Stmt.Each.here {asked : Demands ρ} {stmt : Stmt ρ} (each : stmt.Each asked) :
    asked.stmt stmt := by
  cases stmt <;> exact each.1

/-- What holds of all expressions holds everywhere in one. -/
theorem Expr.Each.of_forall {asked : Expr ρ → Prop} (all : ∀ expr, asked expr) :
    (expr : Expr ρ) → expr.Each asked
  | .assign _ inner | .get inner _ | .grouping inner | .unary _ _ inner =>
    ⟨all _, .of_forall all inner⟩
  | .binary left _ _ right | .logical left _ _ right | .set left _ right =>
    ⟨all _, .of_forall all left, .of_forall all right⟩
  | .call callee _ args =>
    ⟨all _, .of_forall all callee, eachArgument_iff.mpr fun arg _ => .of_forall all arg⟩
  | .literal _ | .super _ _ | .this _ | .var _ => all _

/-- Some demands imply other ones, wherever they are made. -/
structure Demands.Imply (strong weak : Demands ρ) : Prop where
  expr : ∀ expr, strong.expr expr → weak.expr expr
  stmt : ∀ stmt, strong.stmt stmt → weak.stmt stmt
  function : ∀ decl, strong.function decl → weak.function decl

mutual

theorem Expr.Each.mono {strong weak : Expr ρ → Prop} (imply : ∀ expr, strong expr → weak expr) :
    (expr : Expr ρ) → expr.Each strong → expr.Each weak
  | .assign _ inner | .get inner _ | .grouping inner | .unary _ _ inner => fun each =>
    ⟨imply _ each.1, Expr.Each.mono imply inner each.2⟩
  | .binary left _ _ right | .logical left _ _ right | .set left _ right => fun each =>
    ⟨imply _ each.1, Expr.Each.mono imply left each.2.1, Expr.Each.mono imply right each.2.2⟩
  | .call callee _ args => fun each =>
    ⟨imply _ each.1, Expr.Each.mono imply callee each.2.1, eachArgument.mono imply args each.2.2⟩
  | .literal _ | .super _ _ | .this _ | .var _ => imply _

theorem eachArgument.mono {strong weak : Expr ρ → Prop} (imply : ∀ expr, strong expr → weak expr) :
    (args : List (Expr ρ)) → eachArgument strong args → eachArgument weak args
  | [] => id
  | arg :: more => fun each =>
    ⟨Expr.Each.mono imply arg each.1, eachArgument.mono imply more each.2⟩

end

mutual

theorem Stmt.Each.mono {strong weak : Demands ρ} (imply : strong.Imply weak) :
    (stmt : Stmt ρ) → stmt.Each strong → stmt.Each weak
  | .block body => fun each => ⟨imply.stmt _ each.1, eachIn.mono imply body each.2⟩
  | .function decl => fun each => ⟨imply.stmt _ each.1, Function.Each.mono imply decl each.2⟩
  | .class_ _ _ methods => fun each => ⟨imply.stmt _ each.1, eachMethod.mono imply methods each.2⟩
  | .expression value | .print _ value => fun each =>
    ⟨imply.stmt _ each.1, Expr.Each.mono imply.expr value each.2⟩
  | .ifThen cond branch | .while_ cond branch => fun each =>
    ⟨imply.stmt _ each.1, Expr.Each.mono imply.expr cond each.2.1,
      Stmt.Each.mono imply branch each.2.2⟩
  | .ifElse cond yes no => fun each =>
    ⟨imply.stmt _ each.1, Expr.Each.mono imply.expr cond each.2.1,
      Stmt.Each.mono imply yes each.2.2.1, Stmt.Each.mono imply no each.2.2.2⟩
  | .return_ _ _ | .var _ _ => fun each =>
    ⟨imply.stmt _ each.1, fun value member =>
      Expr.Each.mono imply.expr value (each.2 value member)⟩

/-- **Weaker demands hold wherever stronger ones do.** -/
theorem eachIn.mono {strong weak : Demands ρ} (imply : strong.Imply weak) :
    (body : List (Stmt ρ)) → eachIn strong body → eachIn weak body
  | [] => id
  | stmt :: more => fun each => ⟨Stmt.Each.mono imply stmt each.1, eachIn.mono imply more each.2⟩

theorem Function.Each.mono {strong weak : Demands ρ} (imply : strong.Imply weak) :
    (decl : Function ρ) → decl.Each strong → decl.Each weak
  | .mk _ _ body => fun each => ⟨imply.function _ each.1, eachIn.mono imply body each.2⟩

theorem eachMethod.mono {strong weak : Demands ρ} (imply : strong.Imply weak) :
    (methods : List (Function ρ)) → eachMethod strong methods → eachMethod weak methods
  | [] => id
  | method :: more => fun each =>
    ⟨Function.Each.mono imply method each.1, eachMethod.mono imply more each.2⟩

end

/-! ### Well-formed trees -/

/-- A statement declares nothing under a name of the language, and its branches declare nothing. -/
structure Stmt.Formed (stmt : Stmt ρ) : Prop where
  names : ∀ name ∈ stmt.declared?, ProperName name.lexeme
  branches : ∀ branch ∈ stmt.branches, branch.declared? = none

/-- No parameter has a name of the language. -/
def Function.Formed (decl : Function ρ) : Prop :=
  ∀ name ∈ decl.params, ProperName name.lexeme

/-- **Well-formed trees**: names are proper and branches declare nothing. -/
def Formed : Demands ρ where
  expr _ := True
  stmt := Stmt.Formed
  function := Function.Formed

/-! ### Order -/

/-- Tokens stand before other ones in the text. -/
def Before (earlier later : List Token) : Prop :=
  ∀ first ∈ earlier, ∀ second ∈ later, first.offset < second.offset

/-- Of two statements, one of which declares something, the first one stands first in the text. -/
def InOrder (body : List (Stmt ρ)) : Prop :=
  body.Pairwise fun first second =>
    first.declared?.isSome ∨ second.declared?.isSome → Before first.mentions second.mentions

/-- A statement is ordered: what it declares stands before what is inside it, and a block is in
order. -/
structure Stmt.Ordered (stmt : Stmt ρ) : Prop where
  name : ∀ name ∈ stmt.declared?, Before [name] stmt.inner
  body : ∀ body, stmt = .block body → InOrder body

/-- A function is ordered: its parameters stand before its body. -/
structure Function.Ordered (decl : Function ρ) : Prop where
  params : Before decl.params (decl.body.flatMap Stmt.mentions)
  body : InOrder decl.body

/-- **Ordered trees**: a scope meets the names declared in it in the order of the text. -/
def Ordered : Demands ρ where
  expr _ := True
  stmt := Stmt.Ordered
  function := Function.Ordered

/-! ### Limits -/

/-- The number of arguments of an expression that is a call. -/
def Expr.argumentCount : Expr ρ → Nat
  | .call _ _ args => args.length
  | _ => 0

/-- **Trees within the limits**: no call has too many arguments, no function has too many
parameters, and no branch declares anything. -/
def Limited : Demands ρ where
  expr expr := expr.argumentCount ≤ maxArguments
  stmt stmt := ∀ branch ∈ stmt.branches, branch.declared? = none
  function decl := decl.params.length ≤ maxArguments

end Lox
