/-
**Scopes.** Which declarations a reference can see, said in two ways.

* `Stmt.located` lists the references of a statement with the local scopes around them, each scope
  as a whole: all that is declared in it, wherever that stands. What counts for a reference is what
  stands before it in the text (`LocalScope.declaresBefore`), so `Located.target` is the lexical
  scope to which a reference leads.
* `Stmt.sites` lists the same references with what is known about the scopes by the time a walk
  through the statement reaches them (`Layer`).
* `sites_timely`: in an ordered tree both come to the same: what is known at a reference is what
  stands before it.
-/

import Lox.Proofs.Trees

namespace Lox

variable {ρ : Type}

/-! ### Local scopes -/

/-- A declaration in a local scope: its name, and what is used to initialize it. -/
structure Declaration where
  name : Token
  uses : List Token

/-- What a statement declares in the scope around it. Only variables are initialized; functions and
classes can be used from their name on. -/
def Stmt.declaration? : Stmt ρ → Option Declaration
  | .function decl => some ⟨decl.name, []⟩
  | .class_ name _ _ => some ⟨name, []⟩
  | .var name init => some ⟨name, tokensUsed (optionalReferences init)⟩
  | _ => none

/-- A local scope as a whole: the names that the language puts there, and all declarations. -/
structure LocalScope where
  implicit : List String
  declarations : List Declaration

namespace LocalScope

/-- The scope of a block, or of a function with its parameters. -/
def ofBody (params : List Token) (body : List (Stmt ρ)) : LocalScope where
  implicit := []
  declarations := params.map (⟨·, []⟩) ++ body.filterMap Stmt.declaration?

/-- A scope with one name that the language puts there. -/
def only (name : String) : LocalScope := ⟨[name], []⟩

/-- The scopes around the methods of a class: the one with `this`, and around it, if the class has a
superclass, the one with `super`. -/
def forMethods (derived : Bool) (scopes : List LocalScope) : List LocalScope :=
  if derived then only thisName :: only superName :: scopes else only thisName :: scopes

/-- Whether a name is declared in a scope, wherever. -/
def declares (scope : LocalScope) (name : String) : Bool :=
  scope.implicit.contains name || scope.declarations.any (·.name.lexeme == name)

/-- Whether a name is declared in a scope before a place in the text. -/
def declaresBefore (scope : LocalScope) (name : String) (offset : Nat) : Bool :=
  scope.implicit.contains name ||
    scope.declarations.any fun found => found.name.lexeme == name && found.name.offset < offset

/-- Whether a name is declared in a scope, and its declaration complete, before a place in the
text. -/
def completesBefore (scope : LocalScope) (name : String) (offset : Nat) : Bool :=
  scope.implicit.contains name ||
    scope.declarations.any fun found =>
      found.name.lexeme == name && (found.name :: found.uses).all (·.offset < offset)

end LocalScope

/-- A reference with the local scopes around it, the innermost one first. -/
structure Located (ρ : Type) where
  use : Use
  reference : Reference ρ
  scopes : List LocalScope

/-- The number of scopes between a reference and the innermost one that declares its name before
it. -/
def Located.target (site : Located ρ) : Option Nat :=
  site.scopes.findIdx? (·.declaresBefore site.reference.token.lexeme site.reference.token.offset)

/-- References with the scopes around all of them. -/
def locate (scopes : List LocalScope) (references : List (Use × Reference ρ)) : List (Located ρ) :=
  references.map fun (use, reference) => ⟨use, reference, scopes⟩

mutual

/-- The references of a statement with the local scopes around them. -/
def Stmt.located (scopes : List LocalScope) : Stmt ρ → List (Located ρ)
  | .block body => locatedIn (.ofBody [] body :: scopes) body
  | .function decl => decl.located scopes
  | .class_ _ superclass methods =>
    locate scopes (superclass.toList.map fun name => (Use.read, name)) ++
      locatedInMethods (LocalScope.forMethods superclass.isSome scopes) methods
  | .expression value | .print _ value => locate scopes value.references
  | .ifThen cond yes => locate scopes cond.references ++ yes.located scopes
  | .ifElse cond yes no =>
    locate scopes cond.references ++ yes.located scopes ++ no.located scopes
  | .return_ _ value => locate scopes (optionalReferences value)
  | .var _ init => locate scopes (optionalReferences init)
  | .while_ cond body => locate scopes cond.references ++ body.located scopes

/-- The references of statements with the local scopes around them. -/
def locatedIn (scopes : List LocalScope) : List (Stmt ρ) → List (Located ρ)
  | [] => []
  | stmt :: more => stmt.located scopes ++ locatedIn scopes more

/-- The references of a function with the local scopes around them. -/
def Function.located (scopes : List LocalScope) : Function ρ → List (Located ρ)
  | .mk _ params body => locatedIn (.ofBody params body :: scopes) body

/-- The references of methods with the local scopes around them. -/
def locatedInMethods (scopes : List LocalScope) : List (Function ρ) → List (Located ρ)
  | [] => []
  | method :: more => method.located scopes ++ locatedInMethods scopes more

end

/-! ### Layers -/

/-- What is known about a local scope at a place in it: the names whose declarations are complete,
and the one that is being initialized. -/
structure Layer where
  scope : LocalScope
  sure : List String
  pending : Option String

namespace Layer

/-- Whether a name was met, be its declaration complete or not. -/
def knows (layer : Layer) (name : String) : Bool :=
  layer.pending == some name || layer.sure.contains name

@[simp] theorem knows_iff {layer : Layer} {name : String} :
    layer.knows name = true ↔ layer.pending = some name ∨ name ∈ layer.sure := by
  simp [knows]

/-- A scope with nothing but its parameters known, the last one first. -/
def entering (params : List Token) (body : List (Stmt ρ)) : Layer :=
  ⟨.ofBody params body, (params.map Token.lexeme).reverse, none⟩

/-- A scope with one name that the language puts there. -/
def only (name : String) : Layer := ⟨.only name, [name], none⟩

/-- The layers around the methods of a class. -/
def forMethods (derived : Bool) (layers : List Layer) : List Layer :=
  if derived then only thisName :: only superName :: layers else only thisName :: layers

/-- The innermost scope is about to initialize a name. -/
def begin (name : String) : List Layer → List Layer
  | [] => []
  | layer :: more => { layer with pending := some name } :: more

/-- The innermost scope has a name. -/
def learn (name : String) : List Layer → List Layer
  | [] => []
  | layer :: more => { layer with sure := name :: layer.sure, pending := none } :: more

end Layer

open Layer

/-- What is known behind a statement. -/
def Stmt.after (layers : List Layer) (stmt : Stmt ρ) : List Layer :=
  match stmt.declared? with
  | none => layers
  | some name => learn name.lexeme layers

/-- At top level nothing is known about local scopes. -/
theorem Stmt.after_nil (stmt : Stmt ρ) : stmt.after [] = [] := by
  unfold Stmt.after
  split <;> rfl

/-- A reference with what is known about the scopes around it, the innermost one first. -/
structure Site (ρ : Type) where
  use : Use
  reference : Reference ρ
  layers : List Layer

/-- References with what is known about the scopes around all of them. -/
def place (layers : List Layer) (references : List (Use × Reference ρ)) : List (Site ρ) :=
  references.map fun (use, reference) => ⟨use, reference, layers⟩

mutual

/-- The references of a statement with what is known at each. -/
def Stmt.sites (layers : List Layer) : Stmt ρ → List (Site ρ)
  | .block body => sitesIn (entering [] body :: layers) body
  | .function decl => decl.sites (learn decl.name.lexeme layers)
  | .class_ name superclass methods =>
    place (learn name.lexeme layers) (superclass.toList.map fun name => (Use.read, name)) ++
      sitesInMethods (Layer.forMethods superclass.isSome (learn name.lexeme layers)) methods
  | .expression value | .print _ value => place layers value.references
  | .ifThen cond yes => place layers cond.references ++ yes.sites layers
  | .ifElse cond yes no => place layers cond.references ++ yes.sites layers ++ no.sites layers
  | .return_ _ value => place layers (optionalReferences value)
  | .var name init => place (begin name.lexeme layers) (optionalReferences init)
  | .while_ cond body => place layers cond.references ++ body.sites layers

/-- The references of statements, one after the other, with what is known at each. -/
def sitesIn (layers : List Layer) : List (Stmt ρ) → List (Site ρ)
  | [] => []
  | stmt :: more => stmt.sites layers ++ sitesIn (stmt.after layers) more

/-- The references of a function with what is known at each. -/
def Function.sites (layers : List Layer) : Function ρ → List (Site ρ)
  | .mk _ params body => sitesIn (entering params body :: layers) body

/-- The references of methods with what is known at each. -/
def sitesInMethods (layers : List Layer) : List (Function ρ) → List (Site ρ)
  | [] => []
  | method :: more => method.sites layers ++ sitesInMethods layers more

end

theorem sitesInMethods_eq (layers : List Layer) (methods : List (Function ρ)) :
    sitesInMethods layers methods = methods.flatMap (Function.sites layers) := by
  induction methods with
  | nil => simp [sitesInMethods]
  | cons method more ih => simp [sitesInMethods, ih]

/-! ### The references behind sites -/

/-- The reference of a site. -/
def Site.used (site : Site ρ) : Use × Reference ρ :=
  (site.use, site.reference)

/-- The site with its scopes as wholes. -/
def Site.locate (site : Site ρ) : Located ρ :=
  ⟨site.use, site.reference, site.layers.map Layer.scope⟩

@[simp] theorem place_used (layers : List Layer) (references : List (Use × Reference ρ)) :
    (place layers references).map Site.used = references := by
  simp [place, Site.used, Function.comp_def]

@[simp] theorem place_locate (layers : List Layer) (references : List (Use × Reference ρ)) :
    (place layers references).map Site.locate =
      Lox.locate (layers.map Layer.scope) references := by
  simp [place, Site.locate, Lox.locate, Function.comp_def]

@[simp] theorem begin_scopes (name : String) (layers : List Layer) :
    (begin name layers).map Layer.scope = layers.map Layer.scope := by
  cases layers <;> rfl

@[simp] theorem learn_scopes (name : String) (layers : List Layer) :
    (learn name layers).map Layer.scope = layers.map Layer.scope := by
  cases layers <;> rfl

@[simp] theorem after_scopes (layers : List Layer) (stmt : Stmt ρ) :
    (stmt.after layers).map Layer.scope = layers.map Layer.scope := by
  unfold Stmt.after
  split
  · rfl
  · exact learn_scopes _ _

@[simp] theorem forMethods_scopes (derived : Bool) (layers : List Layer) :
    (Layer.forMethods derived layers).map Layer.scope =
      LocalScope.forMethods derived (layers.map Layer.scope) := by
  cases derived <;> rfl

mutual

theorem Stmt.sites_used (layers : List Layer) : (stmt : Stmt ρ) →
    (stmt.sites layers).map Site.used = stmt.references
  | .block body => by simp [Stmt.sites, Stmt.references, sitesIn_used _ body]
  | .function decl => by simp [Stmt.sites, Stmt.references, decl.sites_used]
  | .class_ _ _ methods => by simp [Stmt.sites, Stmt.references, sitesInMethods_used _ methods]
  | .expression _ | .print _ _ | .return_ _ _ | .var _ _ => by simp [Stmt.sites, Stmt.references]
  | .ifThen _ branch | .while_ _ branch => by simp [Stmt.sites, Stmt.references, branch.sites_used]
  | .ifElse _ yes no => by simp [Stmt.sites, Stmt.references, yes.sites_used, no.sites_used]

theorem sitesIn_used (layers : List Layer) : (body : List (Stmt ρ)) →
    (sitesIn layers body).map Site.used = body.flatMap Stmt.references
  | [] => by simp [sitesIn]
  | stmt :: more => by simp [sitesIn, stmt.sites_used, sitesIn_used _ more]

theorem Function.sites_used (layers : List Layer) : (decl : Function ρ) →
    (decl.sites layers).map Site.used = decl.references
  | .mk _ _ body => by simp [Function.sites, Function.references, sitesIn_used _ body]

theorem sitesInMethods_used (layers : List Layer) : (methods : List (Function ρ)) →
    (sitesInMethods layers methods).map Site.used = methods.flatMap Function.references
  | [] => by simp [sitesInMethods]
  | method :: more => by simp [sitesInMethods, method.sites_used, sitesInMethods_used _ more]

end

mutual

theorem Stmt.sites_locate (layers : List Layer) : (stmt : Stmt ρ) →
    (stmt.sites layers).map Site.locate = stmt.located (layers.map Layer.scope)
  | .block body => by simp [Stmt.sites, Stmt.located, sitesIn_locate _ body, entering]
  | .function decl => by simp [Stmt.sites, Stmt.located, decl.sites_locate]
  | .class_ _ _ methods => by simp [Stmt.sites, Stmt.located, sitesInMethods_locate _ methods]
  | .expression _ | .print _ _ | .return_ _ _ | .var _ _ => by simp [Stmt.sites, Stmt.located]
  | .ifThen _ branch | .while_ _ branch => by simp [Stmt.sites, Stmt.located, branch.sites_locate]
  | .ifElse _ yes no => by simp [Stmt.sites, Stmt.located, yes.sites_locate, no.sites_locate]

theorem sitesIn_locate (layers : List Layer) : (body : List (Stmt ρ)) →
    (sitesIn layers body).map Site.locate = locatedIn (layers.map Layer.scope) body
  | [] => by simp [sitesIn, locatedIn]
  | stmt :: more => by simp [sitesIn, locatedIn, stmt.sites_locate, sitesIn_locate _ more]

theorem Function.sites_locate (layers : List Layer) : (decl : Function ρ) →
    (decl.sites layers).map Site.locate = decl.located (layers.map Layer.scope)
  | .mk _ _ body => by simp [Function.sites, Function.located, sitesIn_locate _ body, entering]

theorem sitesInMethods_locate (layers : List Layer) : (methods : List (Function ρ)) →
    (sitesInMethods layers methods).map Site.locate =
      locatedInMethods (layers.map Layer.scope) methods
  | [] => by simp [sitesInMethods, locatedInMethods]
  | method :: more => by
    simp [sitesInMethods, locatedInMethods, method.sites_locate, sitesInMethods_locate _ more]

end

/-! ### What stands before a reference -/

/-- What is known about a scope is what stands before a place in the text. -/
structure Layer.Timely (layer : Layer) (offset : Nat) : Prop where
  knows : ∀ name, layer.knows name = true ↔ layer.scope.declaresBefore name offset = true
  sure : ∀ name, name ∈ layer.sure ↔ layer.scope.completesBefore name offset = true

/-- What is known at a site is what stands before its reference. -/
def Site.Timely (site : Site ρ) : Prop :=
  ∀ layer ∈ site.layers, layer.Timely site.reference.token.offset

theorem Layer.only_timely (name : String) (offset : Nat) : (Layer.only name).Timely offset :=
  ⟨by simp [Layer.only, LocalScope.only, LocalScope.declaresBefore],
    by simp [Layer.only, LocalScope.only, LocalScope.completesBefore]⟩

/-- The layers at which the inside of a statement is visited. -/
def Stmt.inside (layers : List Layer) : Stmt ρ → List Layer
  | .function decl => learn decl.name.lexeme layers
  | .class_ name _ _ => learn name.lexeme layers
  | .var name _ => begin name.lexeme layers
  | _ => layers

theorem Stmt.declaration?_eq (stmt : Stmt ρ) :
    stmt.declared? = stmt.declaration?.map Declaration.name := by
  cases stmt <;> rfl

theorem Stmt.declared?_of_declaration {stmt : Stmt ρ} {found : Declaration}
    (declared : stmt.declaration? = some found) : stmt.declared? = some found.name := by
  rw [declaration?_eq, declared]
  rfl

/-- The name of a declaration and all that it uses are mentioned in its statement. -/
theorem Stmt.declaration?_mentions {stmt : Stmt ρ} {found : Declaration}
    (declared : stmt.declaration? = some found) : found.name :: found.uses ⊆ stmt.mentions := by
  refine List.cons_subset.mpr ⟨mem_mentions_of_declared (declared?_of_declaration declared), ?_⟩
  refine List.Subset.trans ?_ stmt.inner_subset
  cases stmt <;> cases declared
  · exact List.nil_subset _
  · exact List.nil_subset _
  · exact List.Subset.refl _

/-- What is declared in a body: a parameter, or what one of the statements declares. -/
theorem mem_ofBody {params : List Token} {body : List (Stmt ρ)} {found : Declaration} :
    found ∈ (LocalScope.ofBody params body).declarations ↔
      (∃ param ∈ params, found = ⟨param, []⟩) ∨ ∃ stmt ∈ body, stmt.declaration? = some found := by
  simp [LocalScope.ofBody, eq_comm]

/-- A layer keeps track of a walk through a body, behind some statements and before other ones. -/
structure Layer.Tracks (layer : Layer) (params : List Token) (done rest : List (Stmt ρ)) :
    Prop where
  scope : layer.scope = .ofBody params (done ++ rest)
  sure : ∀ name, name ∈ layer.sure ↔
    (∃ param ∈ params, param.lexeme = name) ∨
      ∃ stmt ∈ done, ∃ found, stmt.declaration? = some found ∧ found.name.lexeme = name
  pending : layer.pending = none
  order : InOrder (done ++ rest)
  params : Before params ((done ++ rest).flatMap Stmt.mentions)

namespace Layer.Tracks

variable {layer : Layer} {params : List Token} {done rest : List (Stmt ρ)} {stmt : Stmt ρ}

/-- A walk that starts. -/
theorem start {body : List (Stmt ρ)} (order : InOrder body)
    (before : Before params (body.flatMap Stmt.mentions)) :
    (entering params body).Tracks params [] body :=
  ⟨rfl, by simp [entering], rfl, order, before⟩

variable (tracks : layer.Tracks params done (stmt :: rest))

include tracks

/-- What holds of the declarations met so far and of none that comes later holds of a declaration
of a name exactly if the name is known, or if it holds of the declaration that stands here. -/
theorem visible_iff (holds : Declaration → Prop) (first : ∀ param ∈ params, holds ⟨param, []⟩)
    (early : ∀ other ∈ done, ∀ found, other.declaration? = some found → holds found)
    (late : ∀ other ∈ rest, ∀ found, other.declaration? = some found → ¬ holds found)
    (name : String) :
    (∃ found ∈ layer.scope.declarations, found.name.lexeme = name ∧ holds found) ↔
      name ∈ layer.sure ∨
        ∃ found, stmt.declaration? = some found ∧ found.name.lexeme = name ∧ holds found := by
  rw [tracks.scope, tracks.sure]
  constructor
  · rintro ⟨found, member, same, here⟩
    rcases mem_ofBody.mp member with ⟨param, inside, rfl⟩ | ⟨other, inside, declared⟩
    · exact .inl (.inl ⟨param, inside, same⟩)
    · rcases List.mem_append.mp inside with before | behind
      · exact .inl (.inr ⟨other, before, found, declared, same⟩)
      · rcases List.mem_cons.mp behind with rfl | later
        · exact .inr ⟨found, declared, same, here⟩
        · exact absurd here (late other later found declared)
  · rintro ((⟨param, inside, same⟩ | ⟨other, inside, found, declared, same⟩) |
      ⟨found, declared, same, here⟩)
    · exact ⟨_, mem_ofBody.mpr (.inl ⟨param, inside, rfl⟩), same, first param inside⟩
    · exact ⟨found, mem_ofBody.mpr (.inr ⟨other, List.mem_append_left _ inside, declared⟩), same,
        early other inside found declared⟩
    · exact ⟨found, mem_ofBody.mpr (.inr ⟨stmt, by simp, declared⟩), same, here⟩

/-- The next statement is behind the declarations met so far. -/
theorem early_before {other : Stmt ρ} (member : other ∈ done) {found : Declaration}
    (declared : other.declaration? = some found) :
    Before (found.name :: found.uses) stmt.mentions := by
  have order := (List.pairwise_append.mp tracks.order).2.2 other member stmt List.mem_cons_self
  rw [Stmt.declared?_of_declaration declared] at order
  exact fun one here => order (.inl rfl) one (Stmt.declaration?_mentions declared here)

/-- The next statement is before the declarations to come. -/
theorem late_before {other : Stmt ρ} (member : other ∈ rest) {found : Declaration}
    (declared : other.declaration? = some found) : Before stmt.mentions [found.name] := by
  have order := List.rel_of_pairwise_cons (List.pairwise_append.mp tracks.order).2.1 member
  rw [Stmt.declared?_of_declaration declared] at order
  refine fun one here => List.forall_mem_singleton.mpr (order (.inr rfl) one here _ ?_)
  exact Stmt.declaration?_mentions declared List.mem_cons_self

theorem scope_implicit : layer.scope.implicit = [] := by
  rw [tracks.scope]
  rfl

section Inner

variable {token : Token} (inner : token ∈ stmt.inner)

include inner

theorem param_before {param : Token} (member : param ∈ params) : param.offset < token.offset :=
  tracks.params param member token
    (List.mem_flatMap.mpr ⟨stmt, by simp, stmt.inner_subset inner⟩)

theorem name_late {other : Stmt ρ} (member : other ∈ rest) {found : Declaration}
    (declared : other.declaration? = some found) : ¬ found.name.offset < token.offset :=
  Nat.lt_asymm (tracks.late_before member declared token (stmt.inner_subset inner) _
    (List.mem_singleton_self _))

variable (ordered : stmt.Ordered)

include ordered

/-- What is declared before the inside of a statement. -/
theorem declaresBefore_iff (name : String) :
    layer.scope.declaresBefore name token.offset = true ↔
      name ∈ layer.sure ∨ ∃ found, stmt.declaration? = some found ∧ found.name.lexeme = name := by
  have visible := tracks.visible_iff (fun found => found.name.offset < token.offset)
    (fun param member => tracks.param_before inner member)
    (fun other member found declared => tracks.early_before member declared found.name
      List.mem_cons_self token (stmt.inner_subset inner))
    (fun other member found declared => tracks.name_late inner member declared) name
  simp only [LocalScope.declaresBefore, tracks.scope_implicit, List.contains_nil, Bool.false_or,
    List.any_eq_true, Bool.and_eq_true, beq_iff_eq, decide_eq_true_eq, visible]
  refine or_congr_right (exists_congr fun found => and_congr_right fun declared => ?_)
  exact and_iff_left (ordered.name _ (Stmt.declared?_of_declaration declared) _
    (List.mem_singleton_self _) token inner)

/-- What is completely declared before the inside of a statement. -/
theorem completesBefore_iff (name : String) :
    layer.scope.completesBefore name token.offset = true ↔
      name ∈ layer.sure ∨ ∃ found, stmt.declaration? = some found ∧ found.name.lexeme = name ∧
        ∀ use ∈ found.uses, use.offset < token.offset := by
  have visible := tracks.visible_iff
    (fun found => ∀ use ∈ found.name :: found.uses, use.offset < token.offset)
    (fun param member => List.forall_mem_singleton.mpr (tracks.param_before inner member))
    (fun other member found declared use here =>
      tracks.early_before member declared use here token (stmt.inner_subset inner))
    (fun other member found declared all =>
      tracks.name_late inner member declared (all found.name List.mem_cons_self)) name
  simp only [LocalScope.completesBefore, tracks.scope_implicit, List.contains_nil, Bool.false_or,
    List.any_eq_true, Bool.and_eq_true, beq_iff_eq, decide_eq_true_eq, List.all_eq_true, visible]
  refine or_congr_right (exists_congr fun found => and_congr_right fun declared =>
    and_congr_right fun _ => ?_)
  rw [List.forall_mem_cons]
  exact and_iff_right (ordered.name _ (Stmt.declared?_of_declaration declared) _
    (List.mem_singleton_self _) token inner)

/-- **Inside the next statement, what is known is what stands before.** -/
theorem timely {layers : List Layer} (outer : ∀ other ∈ layers, other.Timely token.offset) :
    ∀ other ∈ stmt.inside (layer :: layers), other.Timely token.offset := by
  have declares := tracks.declaresBefore_iff inner ordered
  have completes := tracks.completesBefore_iff inner ordered
  have pending := tracks.pending
  cases stmt with
  | function decl =>
      refine List.forall_mem_cons.mpr ⟨⟨fun name => ?_, fun name => ?_⟩, outer⟩
      · rw [declares]
        simp [Stmt.declaration?, Or.comm, @eq_comm _ name]
      · rw [completes]
        simp [Stmt.declaration?, Or.comm, @eq_comm _ name]
  | class_ own superclass methods =>
      refine List.forall_mem_cons.mpr ⟨⟨fun name => ?_, fun name => ?_⟩, outer⟩
      · rw [declares]
        simp [Stmt.declaration?, Or.comm, @eq_comm _ name]
      · rw [completes]
        simp [Stmt.declaration?, Or.comm, @eq_comm _ name]
  | var own init =>
      refine List.forall_mem_cons.mpr ⟨⟨fun name => ?_, fun name => ?_⟩, outer⟩
      · rw [declares]
        simp [Stmt.declaration?, Or.comm]
      · -- A variable is not complete inside its own initializer.
        have unfinished :
            ¬ ∀ use ∈ tokensUsed (optionalReferences init), use.offset < token.offset :=
          fun all => Nat.lt_irrefl _ (all token inner)
        rw [completes]
        refine ⟨.inl, fun known => known.resolve_right ?_⟩
        rintro ⟨found, ⟨⟩, _, all⟩
        exact unfinished all
  | _ =>
      refine List.forall_mem_cons.mpr ⟨⟨fun name => ?_, fun name => ?_⟩, outer⟩
      · simp [declares, Stmt.declaration?, pending]
      · simp [completes, Stmt.declaration?]

end Inner

/-- The walk goes on behind the next statement. -/
theorem step (layers : List Layer) :
    ∃ next : Layer, stmt.after (layer :: layers) = next :: layers ∧
      next.Tracks params (done ++ [stmt]) rest := by
  have split : done ++ stmt :: rest = (done ++ [stmt]) ++ rest := by simp
  have scope := tracks.scope
  have order := tracks.order
  have before := tracks.params
  rw [split] at scope order before
  unfold Stmt.after
  rw [Stmt.declaration?_eq]
  cases declared : stmt.declaration? with
  | none =>
      refine ⟨layer, rfl, scope, fun name => ?_, tracks.pending, order, before⟩
      simp [tracks.sure, or_and_right, exists_or, declared]
  | some found =>
      refine ⟨_, rfl, scope, fun name => ?_, rfl, order, before⟩
      simp only [List.mem_cons, tracks.sure, List.mem_append, List.not_mem_nil, or_false,
        or_and_right, exists_or, exists_eq_left, declared, Option.some.injEq, exists_eq_left']
      rw [or_comm, or_assoc, @eq_comm _ name]

end Layer.Tracks

theorem place_timely {layers : List Layer} {references : List (Use × Reference ρ)}
    (timely : ∀ token ∈ tokensUsed references, ∀ layer ∈ layers, layer.Timely token.offset) :
    ∀ site ∈ place layers references, site.Timely := by
  intro site member
  obtain ⟨used, here, rfl⟩ := List.mem_map.mp member
  exact timely used.2.token (List.mem_map_of_mem here)

theorem Stmt.timely_branch {branch : Stmt ρ} {layers : List Layer}
    (plain : branch.declared? = none)
    (timely : ∀ token ∈ branch.mentions, ∀ layer ∈ layers, layer.Timely token.offset) :
    ∀ token ∈ branch.inner, ∀ layer ∈ branch.inside layers, layer.Timely token.offset := by
  cases branch <;> first | exact timely | cases plain

theorem forMethods_timely {layers : List Layer} {offset : Nat} (derived : Bool)
    (timely : ∀ layer ∈ layers, layer.Timely offset) :
    ∀ layer ∈ Layer.forMethods derived layers, layer.Timely offset := by
  cases derived with
  | false => exact List.forall_mem_cons.mpr ⟨only_timely _ offset, timely⟩
  | true =>
      exact List.forall_mem_cons.mpr ⟨only_timely _ offset,
        List.forall_mem_cons.mpr ⟨only_timely _ offset, timely⟩⟩

mutual

/-- **In an ordered tree, what is known at a reference is what stands before it.** -/
theorem Stmt.sites_timely {layers : List Layer} : (stmt : Stmt ρ) → stmt.Each Formed →
    stmt.Each Ordered →
    (∀ token ∈ stmt.inner, ∀ layer ∈ stmt.inside layers, layer.Timely token.offset) →
    ∀ site ∈ stmt.sites layers, site.Timely
  | .block body, formed, ordered, timely =>
    sitesIn_timely body formed.2 ordered.2 (.start (ordered.1.body _ rfl) (List.forall_mem_nil _))
      fun token member => by
        obtain ⟨stmt, here, inside⟩ := List.mem_flatMap.mp member
        exact timely token (Stmt.mentions_block here inside)
  | .function decl, formed, ordered, timely =>
    Function.sites_timely decl formed.2 ordered.2 timely
  | .class_ _ superclass methods, formed, ordered, timely => by
    refine List.forall_mem_append.mpr ⟨place_timely fun token member => ?_, ?_⟩
    · refine timely token (List.mem_append_left _ ?_)
      simpa [tokensUsed] using member
    · refine sitesInMethods_timely methods formed.2 ordered.2 fun token member => ?_
      exact forMethods_timely _ (timely token (List.mem_append_right _ member))
  | .expression _, _, _, timely | .print _ _, _, _, timely | .return_ _ _, _, _, timely
  | .var _ _, _, _, timely => place_timely timely
  | .ifThen cond branch, formed, ordered, timely
  | .while_ cond branch, formed, ordered, timely => by
    have plain := formed.1.branches branch List.mem_cons_self
    refine List.forall_mem_append.mpr ⟨place_timely fun token member => ?_, ?_⟩
    · exact timely token (List.mem_append_right _ (List.map_subset _ (List.subset_append_left _ _)
        member))
    · refine Stmt.sites_timely branch formed.2.2 ordered.2.2 (Stmt.timely_branch plain ?_)
      exact fun token member => timely token (Stmt.mentions_branch List.mem_cons_self member)
  | .ifElse cond yes no, formed, ordered, timely => by
    have plain := formed.1.branches
    refine List.forall_mem_append.mpr ⟨List.forall_mem_append.mpr ⟨?_, ?_⟩, ?_⟩
    · refine place_timely fun token member => timely token (List.mem_append_right _ ?_)
      refine List.map_subset _ (List.Subset.trans ?_ (List.subset_append_left _ _)) member
      exact List.subset_append_left _ _
    · refine Stmt.sites_timely yes formed.2.2.1 ordered.2.2.1
        (Stmt.timely_branch (plain yes List.mem_cons_self) fun token member => ?_)
      exact timely token (Stmt.mentions_branch List.mem_cons_self member)
    · refine Stmt.sites_timely no formed.2.2.2 ordered.2.2.2
        (Stmt.timely_branch (plain no (by simp [Stmt.branches])) fun token member => ?_)
      exact timely token (Stmt.mentions_branch (by simp [Stmt.branches]) member)

theorem sitesIn_timely {layers : List Layer} {layer : Layer} {params : List Token}
    {done : List (Stmt ρ)} : (rest : List (Stmt ρ)) → eachIn Formed rest → eachIn Ordered rest →
    layer.Tracks params done rest →
    (∀ token ∈ rest.flatMap Stmt.mentions, ∀ layer ∈ layers, layer.Timely token.offset) →
    ∀ site ∈ sitesIn (layer :: layers) rest, site.Timely
  | [], _, _, _, _ => List.forall_mem_nil _
  | stmt :: more, formed, ordered, tracks, timely => by
    obtain ⟨next, same, further⟩ := tracks.step layers
    rw [List.flatMap_cons] at timely
    obtain ⟨here, later⟩ := List.forall_mem_append.mp timely
    rw [sitesIn, same]
    refine List.forall_mem_append.mpr ⟨?_, sitesIn_timely more formed.2 ordered.2 further later⟩
    refine Stmt.sites_timely stmt formed.1 ordered.1 fun token inner => ?_
    exact tracks.timely inner ordered.1.here (here token (stmt.inner_subset inner))

theorem Function.sites_timely {layers : List Layer} : (decl : Function ρ) → decl.Each Formed →
    decl.Each Ordered → (∀ token ∈ decl.mentions, ∀ layer ∈ layers, layer.Timely token.offset) →
    ∀ site ∈ decl.sites layers, site.Timely
  | .mk _ _ body, formed, ordered, timely =>
    sitesIn_timely body formed.2 ordered.2 (.start ordered.1.body ordered.1.params)
      fun token member => by
        obtain ⟨stmt, here, inside⟩ := List.mem_flatMap.mp member
        exact timely token (Function.mentions_body here inside)

theorem sitesInMethods_timely {layers : List Layer} : (methods : List (Function ρ)) →
    eachMethod Formed methods → eachMethod Ordered methods →
    (∀ token ∈ methods.flatMap Function.mentions, ∀ layer ∈ layers, layer.Timely token.offset) →
    ∀ site ∈ sitesInMethods layers methods, site.Timely
  | [], _, _, _ => List.forall_mem_nil _
  | method :: more, formed, ordered, timely => by
    rw [List.flatMap_cons] at timely
    obtain ⟨here, later⟩ := List.forall_mem_append.mp timely
    exact List.forall_mem_append.mpr ⟨Function.sites_timely method formed.1 ordered.1 here,
      sitesInMethods_timely more formed.2 ordered.2 later⟩

end

end Lox
