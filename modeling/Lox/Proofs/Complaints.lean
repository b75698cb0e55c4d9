/-
**Complaints.** Resolution complains about the violations of a tree, about each once, and about
nothing else.

* `Verdict.Reports` compares the complaints on the way to a result with those of a walk that nothing
  stops. `resolveAll_reports`: resolution reports what the walk of `objectionsIn` finds.
* `Stmt.marks` are the tokens that can be complained about. The walk says nothing twice about a
  token that it meets once (`sparse_objectionsIn`), and a text has each token once
  (`parse_marks_nodup`).
* `resolve_complaints`: what is reported about a text are its violations, each once. Only a tree
  that is nested too deeply can have others, as that of `buried` has.
-/

import Lox.Proofs.Buried
import Lox.Proofs.Mentions
import Lox.Proofs.Violations

namespace Lox

/-! ### Verdicts -/

namespace Verdict

open Resolver

variable {α β : Type}

/-- The complaints of a verdict are among the given ones, and they are all of these if there is a
result. Something is known about the result. -/
def Reports (verdict : Verdict α) (full : List (Token × Violation)) (after : α → Prop) : Prop :=
  verdict.complaints.Subperm full ∧
    ∀ value, verdict.value = some value → verdict.complaints.Perm full ∧ after value

variable {after : α → Prop} {finally_ : β → Prop} {full more : List (Token × Violation)}

theorem reports_pure {value : α} (known : after value) :
    (Pure.pure value : Verdict α).Reports [] after := by
  refine ⟨List.nil_subperm, ?_⟩
  rintro _ ⟨rfl⟩
  exact ⟨.nil, known⟩

theorem reports_objectIf {condition : Bool} {token : Token} {violation : Violation} :
    (objectIf condition token violation : Verdict Unit).Reports
      (if condition = true then [(token, violation)] else []) fun _ => True := by
  have all : (objectIf condition token violation : Verdict Unit).complaints =
      if condition = true then [(token, violation)] else [] := by
    cases condition <;> rfl
  rw [Reports, all]
  refine ⟨List.Subperm.refl _, ?_⟩
  intro _ _
  exact ⟨List.Perm.refl _, trivial⟩

/-- Giving up reports nothing. -/
theorem reports_descend {calls room : Nat} {next : Nat → Verdict α}
    (reports : ∀ room, (next room).Reports full after) :
    (descend calls room next).Reports full after := by
  unfold descend
  split
  · exact reports _
  · refine ⟨List.nil_subperm, ?_⟩
    rintro _ ⟨⟩

theorem Reports.bind {verdict : Verdict α} {next : α → Verdict β}
    (first : verdict.Reports full after)
    (then_ : ∀ value, after value → (next value).Reports more finally_) :
    (verdict >>= next).Reports (full ++ more) finally_ := by
  obtain ⟨complaints, value⟩ := verdict
  cases value with
  | none =>
      refine ⟨first.1.trans (List.sublist_append_left _ _).subperm, ?_⟩
      rintro _ ⟨⟩
  | some value =>
      obtain ⟨all, known⟩ := first.2 value rfl
      obtain ⟨some, rest⟩ := then_ value known
      refine ⟨(List.Perm.subperm all).append some, ?_⟩
      intro result found
      obtain ⟨every, last⟩ := rest result found
      exact ⟨all.append every, last⟩

/-- The order of complaints does not matter. -/
theorem Reports.perm {verdict : Verdict α} (reports : verdict.Reports full after)
    (same : full.Perm more) : verdict.Reports more after := by
  refine ⟨reports.1.trans same.subperm, ?_⟩
  intro value found
  obtain ⟨all, known⟩ := reports.2 value found
  exact ⟨all.trans same, known⟩

/-- The last step of a computation. -/
theorem Reports.map {verdict : Verdict α} {f : α → β} (reports : verdict.Reports full after)
    (known : ∀ value, after value → finally_ (f value)) :
    (verdict >>= fun value => Pure.pure (f value)).Reports full finally_ := by
  have last := reports.bind fun value holds => reports_pure (known value holds)
  rwa [List.append_nil] at last

end Verdict

open Verdict

/-! ### Expressions -/

/-- What resolution knows at an expression: the nearest class, and the local variable that is being
initialized. -/
structure Holds (around : Enclosing) (frames : List (Surrounding Unit))
    (initialized : Option String) : Prop where
  class_ : around.class_ = classOf frames
  initializing : ∀ name, around.initializing name = true ↔ initialized = some name

section Expressions

variable {around : Enclosing} {frames : List (Surrounding Unit)} {initialized : Option String}

theorem usesObjections_append (first second : List (Use × Reference Unit)) :
    usesObjections frames initialized (first ++ second) =
      usesObjections frames initialized first ++ usesObjections frames initialized second :=
  List.flatMap_append

theorem usesObjections_singleton (used : Use × Reference Unit) :
    usesObjections frames initialized [used] =
      useObjections (classOf frames) initialized used :=
  List.flatMap_singleton _ _

theorem Reference.read_reports (holds : Holds around frames initialized)
    (reference : Reference Unit) : (reference.read around : Verdict _).Reports
      (usesObjections frames initialized [(.read, reference)]) fun _ => True := by
  have reported : (reference.read around : Verdict _).Reports
      (if around.initializing reference.token.lexeme = true
        then [(reference.token, .ownInitializer)] else []) fun _ => True :=
    reports_objectIf.map fun _ _ => trivial
  simp only [holds.initializing] at reported
  rw [usesObjections_singleton]
  exact reported

mutual

/-- **Resolving an expression** reports what is wrong with its references. -/
theorem Expr.resolve_reports (holds : Holds around frames initialized) (room : Nat) :
    (expr : Expr Unit) → (expr.resolve around room : Verdict _).Reports
      (usesObjections frames initialized expr.references) fun _ => True
  | .assign target inner => by
    rw [Expr.resolve]
    exact reports_descend fun room => (inner.resolve_reports holds room).map fun _ _ => trivial
  | .get inner _ | .grouping inner | .unary _ _ inner => by
    rw [Expr.resolve]
    exact reports_descend fun room => (inner.resolve_reports holds room).map fun _ _ => trivial
  | .binary left _ _ right | .logical left _ _ right => by
    rw [Expr.resolve, Expr.references, usesObjections_append]
    exact reports_descend fun room => (left.resolve_reports holds room).bind fun _ _ =>
      (right.resolve_reports holds room).map fun _ _ => trivial
  | .set object _ value => by
    rw [Expr.resolve, Expr.references, usesObjections_append]
    exact reports_descend fun room => ((value.resolve_reports holds room).bind fun _ _ =>
      (object.resolve_reports holds room).map fun _ _ => trivial).perm List.perm_append_comm
  | .call callee _ args => by
    rw [Expr.resolve, Expr.references, usesObjections_append]
    exact reports_descend fun room => (callee.resolve_reports holds room).bind fun _ _ =>
      (reports_descend fun room => resolveArguments_reports holds room args).map fun _ _ => trivial
  | .literal _ => by
    rw [Expr.resolve]
    exact reports_descend fun _ => reports_pure trivial
  | .super keyword _ => by
    rw [Expr.resolve, Expr.references, usesObjections_singleton, useObjections, ← holds.class_]
    simp only [← @beq_iff_eq Enclosing.Class]
    exact reports_descend fun _ => reports_objectIf.bind fun _ _ =>
      reports_objectIf.map fun _ _ => trivial
  | .this keyword => by
    rw [Expr.resolve, Expr.references, usesObjections_singleton, useObjections, ← holds.class_]
    simp only [← @beq_iff_eq Enclosing.Class]
    exact reports_descend fun _ => reports_objectIf.map fun _ _ => trivial
  | .var name => by
    rw [Expr.resolve]
    exact reports_descend fun _ => (Reference.read_reports holds name).map fun _ _ => trivial

theorem resolveArguments_reports (holds : Holds around frames initialized) (room : Nat) :
    (args : List (Expr Unit)) → (resolveArguments around room args : Verdict _).Reports
      (usesObjections frames initialized (argumentReferences args)) fun _ => True
  | [] => by
    rw [resolveArguments]
    exact reports_pure trivial
  | arg :: more => by
    rw [resolveArguments, argumentReferences, usesObjections_append]
    exact (arg.resolve_reports holds room).bind fun _ _ =>
      (resolveArguments_reports holds room more).map fun _ _ => trivial

end

end Expressions

theorem resolveOptional_reports {around : Enclosing} {frames : List (Surrounding Unit)}
    {initialized : Option String} (holds : Holds around frames initialized) (room : Nat)
    (value : Option (Expr Unit)) : (resolveOptional around room value : Verdict _).Reports
      (usesObjections frames initialized (optionalReferences value)) fun _ => True := by
  cases value with
  | none => exact reports_pure trivial
  | some value => exact (value.resolve_reports holds room).map fun _ _ => trivial

/-! ### Scopes -/

/-- What stands around a place, in the terms of resolution. -/
structure Faces (around : Enclosing) (frames : List (Surrounding Unit)) : Prop where
  routine : around.routine = routineOf frames
  class_ : around.class_ = classOf frames

/-- The innermost scope has the given names, all of them complete; there is none at top level. -/
def Enclosing.Lists : List Scope → Option (List Token) → Prop
  | [], names => names = none
  | scope :: _, names => ∃ known : List Token, names = some known ∧ ∀ name,
      scope.get? name = if ∃ token ∈ known, token.lexeme = name then some true else none

/-- What resolution knows at a statement. -/
structure Describes (around : Enclosing) (frames : List (Surrounding Unit))
    (names : Option (List Token)) : Prop extends Faces around frames where
  scope : Enclosing.Lists around.scopes names

namespace Describes

variable {around : Enclosing} {frames : List (Surrounding Unit)} {names : Option (List Token)}

theorem topLevel : Describes .topLevel [] none :=
  ⟨⟨rfl, rfl⟩, rfl⟩

theorem enter (faces : Faces around frames) : Describes (around.enter []) frames (some []) := by
  refine ⟨⟨faces.routine, faces.class_⟩, [], rfl, ?_⟩
  intro name
  simp

variable (describes : Describes around frames names)

include describes

/-- Between statements nothing is being initialized. -/
theorem holds : Holds around frames none := by
  refine ⟨describes.class_, ?_⟩
  intro name
  have kept := describes.scope
  unfold Enclosing.initializing
  cases found : around.scopes with
  | nil => simp
  | cons scope more =>
      rw [found] at kept
      obtain ⟨known, _, has⟩ := kept
      simp only [has, beq_iff_eq, reduceCtorEq, iff_false]
      split <;> simp

theorem declares_iff (name : String) : around.declares name = true ↔
    ∃ known, names = some known ∧ ∃ token ∈ known, token.lexeme = name := by
  have kept := describes.scope
  unfold Enclosing.declares
  cases found : around.scopes with
  | nil =>
      rw [found] at kept
      rw [show names = none from kept]
      simp
  | cons scope more =>
      rw [found] at kept
      obtain ⟨known, rfl, has⟩ := kept
      simp only [Bindings.has, has, Option.some.injEq, exists_eq_left']
      by_cases listed : ∃ token ∈ known, token.lexeme = name
      · rw [if_pos listed]
        exact iff_of_true rfl listed
      · rw [if_neg listed]
        exact iff_of_false Bool.noConfusion listed

theorem declare_reports (name : Token) : (declare around name : Verdict _).Reports
    (names.elim [] fun known => again known name) (· = around.mark name.lexeme false) := by
  have reported : (declare around name : Verdict _).Reports
      (if around.declares name.lexeme = true then [(name, .redeclared)] else [])
      (· = around.mark name.lexeme false) :=
    reports_objectIf.map fun _ _ => rfl
  simp only [describes.declares_iff] at reported
  cases names with
  | none => simpa using reported
  | some known => simpa [again] using reported

/-- In the initializer of a local variable, that variable is being initialized. -/
theorem initializes (name : Token) :
    Holds (around.mark name.lexeme false) frames (names.map fun _ => name.lexeme) := by
  obtain ⟨routine, class_, scopes⟩ := around
  have kept := describes.scope
  cases scopes with
  | nil =>
      rw [show names = none from kept]
      exact ⟨describes.class_, fun other => by simp [Enclosing.mark, Enclosing.initializing]⟩
  | cons scope more =>
      obtain ⟨known, rfl, has⟩ := kept
      refine ⟨describes.class_, fun other => ?_⟩
      simp only [Enclosing.mark, Enclosing.initializing, Option.map_some, Option.some.injEq]
      by_cases same : other = name.lexeme
      · rw [same, Bindings.get?_set_self]
        exact iff_of_true rfl rfl
      · rw [Bindings.get?_set_of_ne same, has]
        refine iff_of_false ?_ (Ne.symm same)
        split <;> decide

/-- Behind a declaration its name is complete. -/
theorem complete (name : Token) :
    Describes ((around.mark name.lexeme false).mark name.lexeme true) frames
      (names.map (· ++ [name])) := by
  obtain ⟨routine, class_, scopes⟩ := around
  have kept := describes.scope
  cases scopes with
  | nil =>
      rw [show names = none from kept]
      exact ⟨describes.toFaces, rfl⟩
  | cons scope more =>
      obtain ⟨known, rfl, has⟩ := kept
      refine ⟨⟨describes.routine, describes.class_⟩, known ++ [name], rfl, fun other => ?_⟩
      by_cases same : other = name.lexeme
      · rw [same, Bindings.get?_set_self, if_pos ⟨name, by simp, rfl⟩]
      · rw [Bindings.get?_set_of_ne same, Bindings.get?_set_of_ne same, has]
        simp [Ne.symm same]

theorem introduce_reports (name : Token) : (introduce around name : Verdict _).Reports
    (names.elim [] fun known => again known name)
    (Describes · frames (names.map (· ++ [name]))) := by
  refine (describes.declare_reports name).map ?_
  rintro _ rfl
  exact describes.complete name

omit describes in
theorem introduceAll_reports {known : List Token} (params : List Token)
    (describes : Describes around frames (some known)) :
    (introduceAll around params : Verdict _).Reports (repeats known params)
      (Describes · frames (some (known ++ params))) := by
  induction params generalizing around known with
  | nil =>
      rw [introduceAll, repeats, List.append_nil]
      exact reports_pure describes
  | cons param more ih =>
      rw [introduceAll, repeats]
      refine (describes.introduce_reports param).bind fun next describes => ?_
      simpa using ih describes

end Describes

/-! ### Statements -/

/-- A statement that declares nothing does not depend on the names of the scope around it. -/
theorem Stmt.objections_undeclared {frames : List (Surrounding Unit)} {names : Option (List Token)}
    {stmt : Stmt Unit} (undeclared : stmt.declared? = none) :
    stmt.objections frames names = stmt.objections frames none := by
  cases stmt with
  | function | class_ | var => cases undeclared
  | _ => rfl

/-- Behind a statement that declares nothing the scope has the same names. -/
theorem names_undeclared {names : Option (List Token)} {stmt : Stmt Unit}
    (undeclared : stmt.declared? = none) : names.map (· ++ stmt.declared?.toList) = names := by
  cases names <;> simp [undeclared]

theorem resolveSuperclass_reports {around : Enclosing} {frames : List (Surrounding Unit)}
    (holds : Holds around frames none) (name : Token) (superclass : Option (Reference Unit)) :
    (resolveSuperclass around name superclass : Verdict _).Reports
      (inheritsObjections name superclass) fun resolved => resolved.isSome = superclass.isSome := by
  cases superclass with
  | none => exact reports_pure rfl
  | some parent =>
      have reported : (resolveSuperclass around name (some parent) : Verdict _).Reports
          ((if (parent.token.lexeme == name.lexeme) = true
            then [(parent.token, .selfInheritance)] else []) ++
          usesObjections frames none [(.read, parent)]) fun resolved => resolved.isSome = true :=
        reports_objectIf.bind fun _ _ => (parent.read_reports holds).map fun _ _ => rfl
      rw [usesObjections_singleton] at reported
      simpa [inheritsObjections, useObjections] using reported

mutual

/-- **Resolving a statement** reports what the walk through it finds. -/
theorem Stmt.resolve_reports {around : Enclosing} {frames : List (Surrounding Unit)}
    {names : Option (List Token)} (describes : Describes around frames names) (room : Nat) :
    (stmt : Stmt Unit) → stmt.Each Formed →
    (stmt.resolve around room : Verdict _).Reports (stmt.objections frames names) fun resolved =>
      Describes resolved.2 frames (names.map (· ++ stmt.declared?.toList))
  | .block body, formed => by
    rw [Stmt.resolve, Stmt.objections, names_undeclared rfl]
    refine reports_descend fun room => ?_
    refine (resolveAll_reports (.enter describes.toFaces) room body formed.2).map fun _ _ => ?_
    exact describes
  | .function decl, formed => by
    rw [Stmt.resolve, Stmt.objections]
    refine reports_descend fun room => ?_
    refine (describes.introduce_reports decl.name).bind fun next described => ?_
    have faces : Faces { next with routine := .function } (.function decl :: frames) :=
      ⟨rfl, described.class_⟩
    exact (decl.resolve_reports faces room formed.2).map fun _ _ => described
  | .class_ name superclass methods, formed => by
    rw [Stmt.resolve, Stmt.objections, List.append_assoc]
    refine reports_descend fun room => ?_
    refine (describes.introduce_reports name).bind fun next described => ?_
    refine (resolveSuperclass_reports described.holds name superclass).bind fun parent same => ?_
    have class_ : (next.forMethods parent.isSome).class_ =
        classOf (.class_ superclass :: frames) := by
      rw [same]
      cases superclass <;> rfl
    exact (resolveMethods_reports class_ room methods formed.2).map fun _ _ => described
  | .expression value, formed | .print _ value, formed => by
    rw [Stmt.resolve, Stmt.objections, names_undeclared rfl]
    refine reports_descend fun room => ?_
    exact (value.resolve_reports describes.holds room).map fun _ _ => describes
  | .ifThen cond yes, formed | .while_ cond yes, formed => by
    have undeclared := formed.1.branches yes (by simp [Stmt.branches])
    rw [Stmt.resolve, Stmt.objections, names_undeclared rfl,
      ← Stmt.objections_undeclared undeclared]
    refine reports_descend fun room => ?_
    refine (cond.resolve_reports describes.holds room).bind fun _ _ => ?_
    refine (yes.resolve_reports describes room formed.2.2).map fun resolved described => ?_
    rwa [names_undeclared undeclared] at described
  | .ifElse cond yes no, formed => by
    have undeclaredYes := formed.1.branches yes (by simp [Stmt.branches])
    have undeclaredNo := formed.1.branches no (by simp [Stmt.branches])
    rw [Stmt.resolve, Stmt.objections, names_undeclared rfl,
      ← Stmt.objections_undeclared undeclaredYes, ← Stmt.objections_undeclared undeclaredNo,
      List.append_assoc]
    refine reports_descend fun room => ?_
    refine (cond.resolve_reports describes.holds room).bind fun _ _ => ?_
    refine (yes.resolve_reports describes room formed.2.2.1).bind fun resolved described => ?_
    rw [names_undeclared undeclaredYes] at described
    refine (no.resolve_reports described room formed.2.2.2).map fun final last => ?_
    rwa [names_undeclared undeclaredNo] at last
  | .return_ keyword value, formed => by
    rw [Stmt.resolve, Stmt.objections, names_undeclared rfl, ← describes.routine, returnObjections,
      List.append_assoc]
    simp only [← @beq_iff_eq Enclosing.Routine, ← Bool.and_eq_true]
    refine reports_descend fun room => ?_
    refine reports_objectIf.bind fun _ _ => reports_objectIf.bind fun _ _ => ?_
    exact (resolveOptional_reports describes.holds room value).map fun _ _ => describes
  | .var name init, formed => by
    rw [Stmt.resolve, Stmt.objections]
    refine reports_descend fun room => ?_
    refine (describes.declare_reports name).bind fun declared same => ?_
    subst same
    refine (resolveOptional_reports (describes.initializes name) room init).map fun _ _ => ?_
    exact describes.complete name

/-- **Resolving statements** reports what the walk through them finds. -/
theorem resolveAll_reports {around : Enclosing} {frames : List (Surrounding Unit)}
    {names : Option (List Token)} (describes : Describes around frames names) (room : Nat) :
    (body : List (Stmt Unit)) → eachIn Formed body →
    (resolveAll around room body : Verdict _).Reports (objectionsIn frames names body) fun _ => True
  | [], _ => by
    rw [resolveAll, objectionsIn]
    exact reports_pure trivial
  | stmt :: more, formed => by
    rw [resolveAll, objectionsIn]
    refine (stmt.resolve_reports describes room formed.1).bind fun resolved described => ?_
    exact (resolveAll_reports described room more formed.2).map fun _ _ => trivial

theorem Function.resolve_reports {around : Enclosing} {frames : List (Surrounding Unit)}
    (faces : Faces around frames) (room : Nat) : (decl : Function Unit) → decl.Each Formed →
    (decl.resolve around room : Verdict _).Reports (decl.objections frames) fun _ => True
  | .mk name params body, formed => by
    rw [Function.resolve, Function.objections]
    refine reports_descend fun room => ?_
    refine (Describes.introduceAll_reports params (.enter faces)).bind fun inside described => ?_
    exact (resolveAll_reports described room body formed.2).map fun _ _ => trivial

theorem resolveMethods_reports {around : Enclosing} {frames : List (Surrounding Unit)}
    (class_ : around.class_ = classOf frames) (room : Nat) :
    (methods : List (Function Unit)) → eachMethod Formed methods →
    (resolveMethods around room methods : Verdict _).Reports (methodObjections frames methods)
      fun _ => True
  | [], _ => by
    rw [resolveMethods, methodObjections]
    exact reports_pure trivial
  | method :: more, formed => by
    rw [resolveMethods, methodObjections]
    have faces : Faces { around with routine := methodRoutine method.name }
      (.method method :: frames) := ⟨rfl, class_⟩
    refine (method.resolve_reports faces room formed.1).bind fun _ _ => ?_
    exact (resolveMethods_reports class_ room more formed.2).map fun _ _ => trivial

end

/-! ### Each once -/

/-- No complaint is made more often than its token is among the given ones. -/
def Sparse (objections : List (Token × Violation)) (tokens : List Token) : Prop :=
  ∀ token violation, objections.count (token, violation) ≤ tokens.count token

namespace Sparse

variable {first second : List (Token × Violation)} {tokens more : List Token}

theorem nil : Sparse [] tokens := by
  intro token violation
  exact Nat.zero_le _

theorem append (front : Sparse first tokens) (back : Sparse second more) :
    Sparse (first ++ second) (tokens ++ more) := by
  intro token violation
  rw [List.count_append, List.count_append]
  exact Nat.add_le_add (front token violation) (back token violation)

/-- A complaint about a token, if a condition holds. -/
theorem one {condition : Prop} [Decidable condition] {token : Token} {violation : Violation} :
    Sparse (if condition then [(token, violation)] else []) [token] := by
  intro other word
  split
  · by_cases same : token = other
    · subst same
      rw [List.count_singleton_self, List.count_singleton]
      split <;> decide
    · rw [List.count_singleton, if_neg (by simp [same])]
      exact Nat.zero_le _
  · exact Nat.zero_le _

/-- Two complaints about a token in different words. -/
theorem two {condition other : Prop} [Decidable condition] [Decidable other] {token : Token}
    {violation another : Violation} (different : violation ≠ another) :
    Sparse ((if condition then [(token, violation)] else []) ++
      (if other then [(token, another)] else [])) [token] := by
  intro found word
  rw [List.count_append]
  by_cases same : word = another
  · subst same
    have none : (if condition then [(token, violation)] else []).count (found, word) = 0 := by
      refine List.count_eq_zero.mpr fun member => different ?_
      split at member
      · exact (Prod.mk.inj (List.mem_singleton.mp member)).2.symm
      · exact absurd member List.not_mem_nil
    rw [none, Nat.zero_add]
    exact one found word
  · have none : (if other then [(token, another)] else []).count (found, word) = 0 := by
      refine List.count_eq_zero.mpr fun member => same ?_
      split at member
      · exact (Prod.mk.inj (List.mem_singleton.mp member)).2
      · exact absurd member List.not_mem_nil
    rw [none, Nat.add_zero]
    exact one found word

/-- Complaints about different tokens are different. -/
theorem nodup (sparse : Sparse first tokens) (distinct : tokens.Nodup) : first.Nodup := by
  rw [List.nodup_iff_count_le_one]
  rintro ⟨token, violation⟩
  exact Nat.le_trans (sparse token violation) (List.nodup_iff_count_le_one.mp distinct token)

end Sparse

section Objections

variable {ρ : Type} (frames : List (Surrounding ρ))

theorem sparse_uses (initialized : Option String) (references : List (Use × Reference ρ)) :
    Sparse (usesObjections frames initialized references) (mentioned references) := by
  induction references with
  | nil => exact .nil
  | cons used more ih =>
      obtain ⟨use, reference⟩ := used
      have first : Sparse (useObjections (classOf frames) initialized (use, reference))
          [reference.token] := by
        cases use with
        | read | this => exact .one
        | assign => exact .nil
        | super => exact .two (by decide)
      exact first.append ih

theorem sparse_again (names : Option (List Token)) (name : Token) :
    Sparse (names.elim [] fun known => again known name) [name] := by
  cases names with
  | none => exact .nil
  | some known => exact .one

theorem sparse_repeats (known names : List Token) : Sparse (repeats known names) names := by
  induction names generalizing known with
  | nil => exact .nil
  | cons name more ih => exact (sparse_again (some known) name).append (ih _)

theorem sparse_inherits (name : Token) (superclass : Option (Reference ρ)) :
    Sparse (inheritsObjections name superclass) (superclass.toList.map Reference.token) := by
  cases superclass with
  | none => exact .nil
  | some parent => exact .one

mutual

/-- **A walk complains about no token more often than it meets it**, in the same words. -/
theorem Stmt.sparse_objections (frames : List (Surrounding ρ)) (names : Option (List Token)) :
    (stmt : Stmt ρ) → Sparse (stmt.objections frames names) stmt.marks
  | .block body => by
    rw [Stmt.objections, Stmt.marks]
    exact sparse_objectionsIn frames (some []) body
  | .function decl => by
    rw [Stmt.objections, Stmt.marks]
    exact (sparse_again names decl.name).append (decl.sparse_objections _)
  | .class_ name superclass methods => by
    rw [Stmt.objections, Stmt.marks, List.append_assoc]
    exact (sparse_again names name).append
      ((sparse_inherits name superclass).append (sparse_methodObjections _ methods))
  | .expression value | .print _ value => sparse_uses frames none value.references
  | .ifThen cond branch | .while_ cond branch => by
    rw [Stmt.objections, Stmt.marks]
    exact (sparse_uses frames none cond.references).append (branch.sparse_objections frames none)
  | .ifElse cond yes no => by
    rw [Stmt.objections, Stmt.marks, List.append_assoc]
    exact (sparse_uses frames none cond.references).append
      ((yes.sparse_objections frames none).append (no.sparse_objections frames none))
  | .return_ keyword value => by
    rw [Stmt.objections, Stmt.marks]
    exact (Sparse.two (by decide)).append (sparse_uses frames none (optionalReferences value))
  | .var name init => by
    rw [Stmt.objections, Stmt.marks]
    exact (sparse_again names name).append (sparse_uses frames _ (optionalReferences init))

theorem sparse_objectionsIn (frames : List (Surrounding ρ)) (names : Option (List Token)) :
    (body : List (Stmt ρ)) → Sparse (objectionsIn frames names body) (marksIn body)
  | [] => by
    rw [objectionsIn]
    exact .nil
  | stmt :: more => by
    rw [objectionsIn, marksIn]
    exact (stmt.sparse_objections frames names).append (sparse_objectionsIn frames _ more)

theorem Function.sparse_objections (frames : List (Surrounding ρ)) :
    (decl : Function ρ) → Sparse (decl.objections frames) decl.marks
  | .mk _ params body => by
    rw [Function.objections, Function.marks]
    exact (sparse_repeats [] params).append (sparse_objectionsIn frames (some params) body)

theorem sparse_methodObjections (frames : List (Surrounding ρ)) :
    (methods : List (Function ρ)) → Sparse (methodObjections frames methods) (methodMarks methods)
  | [] => by
    rw [methodObjections]
    exact .nil
  | method :: more => by
    rw [methodObjections, methodMarks]
    exact (method.sparse_objections _).append (sparse_methodObjections frames more)

end

end Objections

/-! ### Texts -/

/-- The tokens of a tree that resolution complains about, with its words. -/
def reported (room : Nat) (tree : List (Stmt Unit)) : List (Token × String) :=
  (resolve tree room).complaints.map fun complaint =>
    (complaint.1, complaint.2.message)

theorem Violation.message_injective : Function.Injective Violation.message := by
  intro violation other
  cases violation <;> cases other <;> decide

/-- What resolution reports about a text. -/
theorem resolve_reports (room : Nat) (text : String) :
    (resolve (parse text).tree room).Reports
      (objectionsIn [] none (parse text).tree) fun _ => True :=
  resolveAll_reports .topLevel room _ (parse_formed text)

theorem resolve_complaints_nodup (room : Nat) (text : String) :
    (resolve (parse text).tree room).complaints.Nodup := by
  have found := (sparse_objectionsIn [] none (parse text).tree).nodup (parse_marks_nodup text)
  obtain ⟨complaints, permuted, inside⟩ := (resolve_reports room text).1
  exact permuted.nodup_iff.mp (found.sublist inside)

theorem mem_objectionsIn_topLevel {tree : List (Stmt Unit)} {token : Token}
    {violation : Violation} : (token, violation) ∈ objectionsIn [] none tree ↔
      Violates [] tree token violation := by
  rw [mem_objectionsIn]
  simp

/-- Resolution complains about violations only. -/
theorem violates_of_complaint {room : Nat} {text : String} {token : Token} {violation : Violation}
    (member : (token, violation) ∈
      (resolve (parse text).tree room).complaints) :
    Violates [] (parse text).tree token violation :=
  mem_objectionsIn_topLevel.mp ((resolve_reports room text).1.subset member)

/-- Resolution complains about every violation in a text that is not nested too deeply. -/
theorem complaint_of_violates {room : Nat} {text : String}
    (shallow : treeDepth (parse text).tree ≤ room) {token : Token} {violation : Violation}
    (violates : Violates [] (parse text).tree token violation) :
    (token, violation) ∈ (resolve (parse text).tree room).complaints := by
  have ends := (resolve_ends _ room).mpr shallow
  obtain ⟨value, found⟩ := Option.isSome_iff_exists.mp ends
  obtain ⟨all, _⟩ := (resolve_reports room text).2 value found
  exact all.mem_iff.mpr (mem_objectionsIn_topLevel.mpr violates)

/-- What is wrong is filed, unless the report gets full. -/
theorem Report.resolveTree_filed (report : Report) {room : Nat} {tree : List (Stmt Unit)}
    (open_ : (report.resolveTree tree room).2 ≠ .full) :
    (report.resolveTree tree room).1.issues.toList = report.issues.toList ++
      (resolve tree room).complaints.map
        (Issue.ofViolation report.source) := by
  rw [resolveTree_eq] at open_ ⊢
  obtain ⟨_, _, _, _, full, _⟩ | ⟨_, _, all⟩ := report.fileAll_cases
    ((resolve tree room).complaints.map (Issue.ofViolation report.source))
  · exact absurd (if_pos full) open_
  · exact all

/-- **Resolution complains about the violations of a text**, about each once, and about nothing
else. In a text that is nested too deeply for the room it may miss some of them. -/
theorem resolve_complaints (report : Report) (room : Nat) (text : String) :
    ((report.resolveTree (parse text).tree room).2 ≠ .full →
      (report.resolveTree (parse text).tree room).1.issues.toList = report.issues.toList ++
        (reported room (parse text).tree).map fun found =>
          Issue.ofToken report.source found.1 found.2) ∧
    (reported room (parse text).tree).Nodup ∧
    (∀ token message, (token, message) ∈ reported room (parse text).tree →
      ∃ violation, Violates [] (parse text).tree token violation ∧
        violation.message = message) ∧
    (treeDepth (parse text).tree ≤ room → ∀ token violation,
      Violates [] (parse text).tree token violation →
        (token, violation.message) ∈ reported room (parse text).tree) := by
  refine ⟨?_, ?_, ?_, ?_⟩
  · intro open_
    have listed : (reported room (parse text).tree).map
        (fun found => Issue.ofToken report.source found.1 found.2) =
          (resolve (parse text).tree room).complaints.map
            (Issue.ofViolation report.source) :=
      List.map_map
    rw [listed]
    exact report.resolveTree_filed open_
  · refine (resolve_complaints_nodup room text).map ?_
    rintro ⟨token, violation⟩ ⟨other, another⟩ same
    obtain ⟨tokens, words⟩ := Prod.mk.inj same
    exact Prod.ext tokens (Violation.message_injective words)
  · intro token message member
    obtain ⟨⟨found, violation⟩, complained, same⟩ := List.mem_map.mp member
    obtain ⟨rfl, rfl⟩ := Prod.mk.inj same
    exact ⟨violation, violates_of_complaint complained, rfl⟩
  · intro shallow token violation violates
    exact List.mem_map.mpr ⟨(token, violation), complaint_of_violates shallow violates, rfl⟩

/-! ### Nested too deeply -/

/-- Nil, negated a number of times, and behind it a return at top level. -/
def negatedReturn (count : Nat) : List (Stmt Unit) :=
  [.expression (negated (.literal .nil) count), .return_ ⟨.return_, "return", .nil, 0, 0⟩ none]

theorem negatedReturn_writable (count : Nat) : eachIn Writable (negatedReturn count) := by
  have literal : (Expr.literal .nil : Expr Unit).Each Expr.Writable := trivial
  refine ⟨⟨trivial, negated_writable (by decide) literal count⟩, ⟨rfl, ?_⟩, trivial⟩
  rintro _ ⟨⟩

/-- A return at top level, behind that many exclamation marks. -/
def negatedText (count : Nat) : String :=
  String.ofList (List.replicate count '!' ++ "nil;\nreturn;".toList)

theorem parse_negatedText (count : Nat) : (parse (negatedText count)).tree.map Stmt.unplaced =
    (negatedReturn count).map Stmt.unplaced := by
  have behind : segments "nil;\nreturn;".toList =
      [⟨.token .nil_, "nil".toList⟩, ⟨.token .semicolon, [';']⟩, ⟨.ignored, ['\n']⟩,
        ⟨.token .return_, "return".toList⟩, ⟨.token .semicolon, [';']⟩] := by
    decide +kernel
  have cut : segments (negatedText count).toList =
      [] ++ (List.replicate count ⟨.token .bang, ['!']⟩ ++ segments "nil;\nreturn;".toList) := by
    rw [negatedText, String.toList_ofList, segments_bangs (by decide)]
    rfl
  have shape : programWritten (negatedReturn count) =
      [] ++ ((negated (.literal .nil) count).written ++
        [.fixed .semicolon, .kept ⟨.return_, "return", .nil, 0, 0⟩, .fixed .semicolon,
          .fixed .eof]) := by
    simp [programWritten, negatedReturn, bodyWritten, Stmt.written]
  let place := 0 + count
  let back : List Token :=
    [⟨.nil_, "nil", .nil, 1, place⟩, ⟨.semicolon, ";", .nil, 1, place + 3⟩,
      ⟨.return_, "return", .nil, 2, place + 5⟩, ⟨.semicolon, ";", .nil, 2, place + 11⟩,
      Scan.closing 2 (place + 12)]
  have ends : Scan.ofSegments (segments "nil;\nreturn;".toList) 1 (0 + count) =
      back.map Scanned.token := by
    simp only [behind, Scan.ofSegments]
    rfl
  exact parse_buried cut (fun _ => rfl) ends (negatedReturn_writable count) shape .nil
    (.cons rfl (.cons rfl (.cons rfl (.cons rfl (.cons rfl .nil)))))

/-- The tree of the text: the return is still a return without a value. -/
theorem parse_negatedText_shape (count : Nat) :
    ∃ value keyword, (parse (negatedText count)).tree =
        [.expression value, .return_ keyword none] ∧
      value.references = [] ∧ value.depth = 2 + 2 * count := by
  obtain ⟨first, more, found, one, rest⟩ := List.map_eq_cons_iff.mp (parse_negatedText count)
  obtain ⟨second, _, rfl, two, nothing⟩ := List.map_eq_cons_iff.mp rest
  obtain rfl := List.map_eq_nil_iff.mp nothing
  cases first with
  | expression value =>
      obtain ⟨own, like, silent, depth⟩ := Expr.like_negated (Stmt.expression.inj one)
      cases own with
      | literal =>
          cases second with
          | return_ keyword result =>
              cases result with
              | none => exact ⟨value, keyword, found, silent, depth⟩
              | some result => cases (Stmt.return_.inj two).2
          | _ => cases two
      | _ => cases like
  | _ => cases one

/-- Nothing is said about what stands behind an expression that is nested too deeply. -/
theorem resolve_buried {value : Expr Unit} (silent : value.references = []) {room : Nat}
    (deep : room < value.depth + 2) (more : List (Stmt Unit)) :
    (resolveAll .topLevel room (.expression value :: more) : Verdict _) = ⟨[], none⟩ := by
  have reports := value.resolve_reports Describes.topLevel.holds (room - 2)
  have ends := value.resolve_ends .topLevel (room - 2)
  rw [silent] at reports
  rw [resolveAll, Stmt.resolve, Resolver.descend]
  split
  · revert reports ends
    rcases (value.resolve .topLevel (room - 2) : Verdict (Expr Hops)) with ⟨complaints, result⟩
    intro reports ends
    cases result with
    | none =>
        obtain rfl : complaints = [] := List.subperm_nil.mp reports.1
        rfl
    | some result =>
        have fits : value.depth ≤ room - 2 := ends.mp rfl
        omega
  · rfl

/-- A return at top level, buried under negations. -/
def buried : String :=
  negatedText 30000

theorem buried_unreported :
    (({} : Report).resolveTree (parse buried).tree).2 ≠ .full ∧
      ∃ token violation, Violates [] (parse buried).tree token violation ∧
        (token, violation.message) ∉ reported maxNesting (parse buried).tree := by
  obtain ⟨value, keyword, tree, silent, depth⟩ := parse_negatedText_shape 30000
  have deep : maxNesting < value.depth + 2 := by
    rw [depth]
    decide
  have nothing :
      (resolve (parse buried).tree) = ⟨[], none⟩ := by
    rw [buried, tree]
    exact resolve_buried silent deep _
  refine ⟨?_, keyword, .topLevelReturn, ?_, ?_⟩
  · rw [Report.resolveTree_eq, nothing]
    rintro ⟨⟩
  · rw [buried, tree]
    exact ⟨[], _, .here (.tail _ (.head _)), .topLevelReturn rfl⟩
  · rw [reported, nothing]
    exact List.not_mem_nil

end Lox
