/-
**Places.** Where the statements of a program stand.

* `Visits`: resolving statements comes upon a statement in a standing.
* `Orderly`: the innermost scope of a spot is not the one with `super`, and no declaration in it is
  under way.
* `Visits.orderly`, `Visits.yields`: in a program that is read and accepted, all spots are orderly,
  and what stands there is accepted.
-/

import Lox.Proofs.Parsed
import Lox.Proofs.Shifts

namespace Lox

open Verdict (yields_bind yields_descend yields_objectIf yields_pure)

/-- A statement, what stands around it and the room that is left for it. -/
structure Standing where
  around : Enclosing
  room : Nat
  stmt : Stmt Unit

/-- **Resolving statements comes upon a statement** in a standing. -/
inductive Visits (standing : Standing) : Enclosing → Nat → List (Stmt Unit) → Prop
  | here {more : List (Stmt Unit)} :
      Visits standing standing.around standing.room (standing.stmt :: more)
  | later {around after : Enclosing} {room : Nat} {stmt : Stmt Unit} {more : List (Stmt Unit)}
      {resolved : Stmt Hops}
      (passed : (stmt.resolve around room : Verdict _).value = some (resolved, after)) :
      Visits standing after room more → Visits standing around room (stmt :: more)
  | block {around : Enclosing} {room : Nat} {body more : List (Stmt Unit)} :
      Visits standing (around.enter []) room body →
        Visits standing around (room + 3) (.block body :: more)
  | function {around next inside : Enclosing} {room : Nat} {name : Token} {params : List Token}
      {body more : List (Stmt Unit)} (named : (introduce around name : Verdict _).value = some next)
      (entered : (introduceAll (Enclosing.enter { next with routine := .function } []) params :
        Verdict _).value = some inside) :
      Visits standing inside room body →
        Visits standing around (room + 4) (.function (.mk name params body) :: more)
  | method {around next inside : Enclosing} {room : Nat} {name label : Token}
      {superclass : Option (Reference Unit)} {methods : List (Function Unit)} {params : List Token}
      {body more : List (Stmt Unit)} (named : (introduce around name : Verdict _).value = some next)
      (member : .mk label params body ∈ methods)
      (entered : (introduceAll (Enclosing.enter
        { next.forMethods superclass.isSome with routine := methodRoutine label } []) params :
          Verdict _).value = some inside) :
      Visits standing inside room body →
        Visits standing around (room + 4) (.class_ name superclass methods :: more)
  | ifThen {around : Enclosing} {room : Nat} {cond : Expr Unit} {yes : Stmt Unit}
      {more : List (Stmt Unit)} :
      Visits standing around room [yes] →
        Visits standing around (room + 2) (.ifThen cond yes :: more)
  | yes {around : Enclosing} {room : Nat} {cond : Expr Unit} {yes no : Stmt Unit}
      {more : List (Stmt Unit)} :
      Visits standing around room [yes] →
        Visits standing around (room + 2) (.ifElse cond yes no :: more)
  | no {around after : Enclosing} {room : Nat} {cond : Expr Unit} {yes no : Stmt Unit}
      {resolved : Stmt Hops} {more : List (Stmt Unit)}
      (passed : (yes.resolve around room : Verdict _).value = some (resolved, after)) :
      Visits standing after room [no] →
        Visits standing around (room + 2) (.ifElse cond yes no :: more)
  | while_ {around : Enclosing} {room : Nat} {cond : Expr Unit} {body : Stmt Unit}
      {more : List (Stmt Unit)} :
      Visits standing around room [body] →
        Visits standing around (room + 2) (.while_ cond body :: more)

/-! ### Settled scopes -/

/-- The innermost scope, if there is one, is settled. -/
def Enclosing.Settled (around : Enclosing) : Prop :=
  ∀ scope ∈ around.scopes.head?, scope.Settled

theorem Scope.settled_nil : Scope.Settled [] :=
  ⟨rfl, fun _ => (Option.some_ne_none false).symm⟩

/-- A name that was declared and defined leaves the scope settled. -/
theorem Scope.Settled.set {scope : Scope} (settled : scope.Settled) {name : String}
    (proper : ProperName name) : Scope.Settled ((scope.set name false).set name true) := by
  refine ⟨?_, fun other => ?_⟩
  · rw [Bindings.has, Bindings.get?_set_of_ne proper.2.symm, Bindings.get?_set_of_ne proper.2.symm]
    exact settled.1
  · by_cases same : other = name
    · rw [same, Bindings.get?_set_self]
      decide
    · rw [Bindings.get?_set_of_ne same, Bindings.get?_set_of_ne same]
      exact settled.2 other

namespace Enclosing.Settled

variable {quiet : Prop} {around after : Enclosing}

theorem enter (around : Enclosing) : (around.enter []).Settled := by
  rintro _ ⟨⟩
  exact Scope.settled_nil

theorem mark (settled : around.Settled) {name : String} (proper : ProperName name) :
    ((around.mark name false).mark name true).Settled := by
  obtain ⟨routine, class_, scopes⟩ := around
  cases scopes with
  | nil => exact settled
  | cons scope more =>
      rintro _ ⟨⟩
      exact (settled scope rfl).set proper

theorem introduce (settled : around.Settled) {name : Token} (proper : ProperName name.lexeme)
    (yields : (Lox.introduce around name : Verdict _).Yields quiet after) : after.Settled := by
  simp only [Lox.introduce, declare, yields_bind, yields_objectIf, yields_pure,
    exists_const] at yields
  obtain ⟨_, ⟨_, rfl⟩, rfl⟩ := yields
  exact settled.mark proper

theorem introduceAll (settled : around.Settled) {params : List Token}
    (proper : ∀ param ∈ params, ProperName param.lexeme)
    (yields : (Lox.introduceAll around params : Verdict _).Yields quiet after) : after.Settled := by
  induction params generalizing around with
  | nil =>
      obtain rfl := yields_pure.mp yields
      exact settled
  | cons param more ih =>
      obtain ⟨proper, proper'⟩ := List.forall_mem_cons.mp proper
      obtain ⟨next, named, rest⟩ := yields_bind.mp yields
      exact ih (settled.introduce proper named) proper' rest

end Enclosing.Settled

/-- A statement that declares nothing leaves everything around it as it is. -/
theorem Stmt.resolve_plain {quiet : Prop} : {room : Nat} → {around after : Enclosing} →
    (stmt : Stmt Unit) → stmt.Each Lox.Formed → stmt.declared? = none → {resolved : Stmt Hops} →
    (stmt.resolve around room : Verdict _).Yields quiet (resolved, after) → after = around
  | _, _, _, .block _, _, _, _, yields
  | _, _, _, .expression _, _, _, _, yields
  | _, _, _, .print _ _, _, _, _, yields => by
    simp only [Stmt.resolve, yields_descend, yields_bind, yields_pure, Prod.mk.injEq] at yields
    obtain ⟨_, _, _, _, same⟩ := yields
    exact same.symm
  | _, _, _, .return_ _ _, _, _, _, yields => by
    simp only [Stmt.resolve, yields_descend, yields_bind, yields_objectIf, yields_pure,
      exists_const, Prod.mk.injEq] at yields
    obtain ⟨_, _, _, _, _, _, same⟩ := yields
    exact same.symm
  | _, _, _, .ifThen _ branch, formed, _, _, yields
  | _, _, _, .while_ _ branch, formed, _, _, yields => by
    simp only [Stmt.resolve, yields_descend, yields_bind, yields_pure, Prod.mk.injEq] at yields
    obtain ⟨_, _, _, _, inner, _, rfl⟩ := yields
    have plain := formed.here.branches branch List.mem_cons_self
    exact branch.resolve_plain formed.2.2 plain inner
  | _, _, _, .ifElse _ yes no, formed, _, _, yields => by
    simp only [Stmt.resolve, yields_descend, yields_bind, yields_pure, Prod.mk.injEq] at yields
    obtain ⟨_, _, _, _, first, _, second, _, rfl⟩ := yields
    have plain := formed.here.branches yes List.mem_cons_self
    have plain' := formed.here.branches no (List.mem_cons_of_mem _ List.mem_cons_self)
    exact (no.resolve_plain formed.2.2.2 plain' second).trans
      (yes.resolve_plain formed.2.2.1 plain first)
  | _, _, _, .function _, _, never, _, _
  | _, _, _, .class_ _ _ _, _, never, _, _
  | _, _, _, .var _ _, _, never, _, _ => by cases never

/-- A statement leaves the innermost scope settled. -/
theorem Stmt.resolve_settled {quiet : Prop} {room : Nat} {around after : Enclosing}
    (stmt : Stmt Unit) (formed : stmt.Each Lox.Formed) (settled : around.Settled)
    {resolved : Stmt Hops}
    (yields : (stmt.resolve around room : Verdict _).Yields quiet (resolved, after)) :
    after.Settled := by
  cases declared : stmt.declared? with
  | none => exact stmt.resolve_plain formed declared yields ▸ settled
  | some name =>
      have proper := formed.here.names name declared
      cases stmt with
      | function decl =>
          simp only [Stmt.resolve, yields_descend, yields_bind, yields_pure,
            Prod.mk.injEq] at yields
          obtain ⟨_, _, named, _, _, _, rfl⟩ := yields
          obtain rfl := Option.some.inj declared
          exact settled.introduce proper named
      | class_ name _ _ =>
          simp only [Stmt.resolve, yields_descend, yields_bind, yields_pure,
            Prod.mk.injEq] at yields
          obtain ⟨_, _, named, _, _, _, _, _, rfl⟩ := yields
          obtain rfl := Option.some.inj declared
          exact settled.introduce proper named
      | var name _ =>
          simp only [Stmt.resolve, declare, yields_descend, yields_bind, yields_objectIf,
            yields_pure, exists_const, Prod.mk.injEq] at yields
          obtain ⟨_, _, ⟨_, rfl⟩, _, _, _, rfl⟩ := yields
          obtain rfl := Option.some.inj declared
          exact settled.mark proper
      | _ => cases declared

/-! ### Standings -/

/-- Statements stand in order: the innermost scope around them is settled, what they declare has
proper names, and keywords are spelled as they should be. -/
structure Orderly (around : Enclosing) (body : List (Stmt Unit)) : Prop where
  settled : around.Settled
  formed : eachIn Formed body
  spelled : Spelled (treeReferences body)

namespace Orderly

theorem parsed (text : String) : Orderly .topLevel (parse text).tree where
  settled _ never := by cases never
  formed := parse_formed text
  spelled := parse_suits text

variable {around : Enclosing} {stmt : Stmt Unit} {more : List (Stmt Unit)}

theorem single (settled : around.Settled) (formed : stmt.Each Lox.Formed)
    (spelled : Spelled stmt.references) : Orderly around [stmt] where
  settled := settled
  formed := ⟨formed, trivial⟩
  spelled := List.forall_mem_append.mpr ⟨spelled, List.forall_mem_nil _⟩

theorem spelled_head (orderly : Orderly around (stmt :: more)) : Spelled stmt.references :=
  (List.forall_mem_append.mp orderly.spelled).1

end Orderly

theorem references_subset_methods {methods : List (Function Unit)} {method : Function Unit}
    (member : method ∈ methods) : method.references ⊆ methodReferences methods := by
  induction methods with
  | nil => cases member
  | cons first more ih =>
      rcases List.mem_cons.mp member with rfl | later
      · exact List.subset_append_left _ _
      · exact List.Subset.trans (ih later) (List.subset_append_right _ _)

theorem resolveMethods_yields {quiet : Prop} {around : Enclosing} {room : Nat}
    {methods : List (Function Unit)} {resolved : List (Function Hops)}
    (yields : (resolveMethods around room methods : Verdict _).Yields quiet resolved)
    {method : Function Unit}
    (member : method ∈ methods) :
    ∃ result, (method.resolve { around with routine := methodRoutine method.name } room :
      Verdict _).Yields quiet result := by
  induction methods generalizing resolved with
  | nil => cases member
  | cons first more ih =>
      simp only [resolveMethods, yields_bind] at yields
      obtain ⟨result, here, _, rest, _⟩ := yields
      rcases List.mem_cons.mp member with rfl | later
      · exact ⟨result, here⟩
      · exact ih rest later

theorem resolveAll_single {quiet : Prop} {around after : Enclosing} {room : Nat}
    {stmt : Stmt Unit} {resolved : Stmt Hops}
    (yields : (stmt.resolve around room : Verdict _).Yields quiet (resolved, after)) :
    (resolveAll around room [stmt] : Verdict _).Yields quiet [resolved] := by
  simp only [resolveAll, yields_bind, yields_pure, Prod.exists]
  exact ⟨resolved, after, yields, [], rfl, rfl⟩

/-- Where a function is resolved, so is its body, in the scope with its parameters. -/
theorem resolveAll_of_decl {quiet : Prop} {around inside : Enclosing} {room : Nat} {name : Token}
    {params : List Token} {body : List (Stmt Unit)} {resolved : Function Hops}
    (entered : (introduceAll (around.enter []) params : Verdict _).value = some inside)
    (yields : ((Function.mk name params body).resolve around room : Verdict _).Yields
      quiet resolved) :
    ∃ result, (resolveAll inside (room - 2) body : Verdict _).Yields quiet result := by
  simp only [Function.resolve, yields_descend, yields_bind] at yields
  obtain ⟨_, _, entered', result, here, _⟩ := yields
  obtain rfl := Option.some.inj (entered.symm.trans entered'.1)
  exact ⟨result, here⟩

namespace Visits

variable {standing : Standing} {around : Enclosing} {room : Nat} {body : List (Stmt Unit)}

/-- **Every statement of an orderly program stands in order.** -/
theorem orderly (visits : Visits standing around room body) (orderly : Orderly around body) :
    Orderly standing.around [standing.stmt] := by
  induction visits with
  | here => exact .single orderly.settled orderly.formed.1 orderly.spelled_head
  | later passed _ ih =>
      obtain ⟨settled, formed, spelled⟩ := orderly
      refine ih ⟨?_, formed.2, (List.forall_mem_append.mp spelled).2⟩
      exact Stmt.resolve_settled _ formed.1 settled ⟨passed, False.elim⟩
  | block _ ih =>
      exact ih ⟨.enter _, orderly.formed.1.2, orderly.spelled_head⟩
  | function named entered _ ih =>
      have decl := orderly.formed.1.2
      refine ih ⟨?_, decl.2, orderly.spelled_head⟩
      exact (Enclosing.Settled.enter _).introduceAll decl.1 ⟨entered, False.elim⟩
  | method named member entered _ ih =>
      have decl := eachMethod_iff.mp orderly.formed.1.2 _ member
      have spelled := (List.forall_mem_append.mp orderly.spelled_head).2
      refine ih ⟨?_, decl.2, fun used here => spelled used (references_subset_methods member here)⟩
      exact (Enclosing.Settled.enter _).introduceAll decl.1 ⟨entered, False.elim⟩
  | ifThen _ ih | while_ _ ih =>
      have spelled := (List.forall_mem_append.mp orderly.spelled_head).2
      exact ih (.single orderly.settled orderly.formed.1.2.2 spelled)
  | yes _ ih =>
      have spelled := (List.forall_mem_append.mp orderly.spelled_head).1
      refine ih (.single orderly.settled orderly.formed.1.2.2.1 ?_)
      exact (List.forall_mem_append.mp spelled).2
  | no passed _ ih =>
      obtain ⟨_, _, formed, formed'⟩ := orderly.formed.1
      have spelled := (List.forall_mem_append.mp orderly.spelled_head).2
      refine ih (.single ?_ formed' spelled)
      exact Stmt.resolve_settled _ formed orderly.settled ⟨passed, False.elim⟩

/-- **Every statement of an accepted program is accepted.** -/
theorem yields {quiet : Prop} {result : List (Stmt Hops)}
    (visits : Visits standing around room body)
    (yields : (resolveAll around room body : Verdict _).Yields quiet result) :
    ∃ resolved after,
      (standing.stmt.resolve standing.around standing.room : Verdict _).Yields quiet
        (resolved, after) := by
  induction visits generalizing result with
  | here =>
      obtain ⟨⟨resolved, after⟩, here, _⟩ := yields_bind.mp yields
      exact ⟨resolved, after, here⟩
  | later passed _ ih =>
      obtain ⟨_, here, later⟩ := yields_bind.mp yields
      obtain rfl := Option.some.inj (passed.symm.trans here.1)
      obtain ⟨_, rest, _⟩ := yields_bind.mp later
      exact ih rest
  | block _ ih =>
      obtain ⟨_, here, _⟩ := yields_bind.mp yields
      obtain ⟨_, inner, _⟩ := yields_bind.mp (yields_descend.mp here).2
      exact ih inner
  | function named entered _ ih =>
      obtain ⟨_, here, _⟩ := yields_bind.mp yields
      obtain ⟨_, named', decl⟩ := yields_bind.mp (yields_descend.mp here).2
      obtain rfl := Option.some.inj (named.symm.trans named'.1)
      obtain ⟨_, decl, _⟩ := yields_bind.mp decl
      obtain ⟨_, inner⟩ := resolveAll_of_decl entered decl
      exact ih inner
  | method named member entered _ ih =>
      obtain ⟨_, here, _⟩ := yields_bind.mp yields
      simp only [Stmt.resolve, yields_descend, yields_bind, yields_pure] at here
      obtain ⟨_, _, named', _, parent, _, here, _⟩ := here
      obtain rfl := Option.some.inj (named.symm.trans named'.1)
      rw [(resolveSuperclass_annotates parent).2.1] at here
      obtain ⟨_, decl⟩ := resolveMethods_yields here member
      obtain ⟨_, inner⟩ := resolveAll_of_decl entered decl
      exact ih inner
  | ifThen _ ih | while_ _ ih =>
      obtain ⟨_, here, _⟩ := yields_bind.mp yields
      simp only [Stmt.resolve, yields_descend, yields_bind, Prod.exists] at here
      obtain ⟨_, _, _, _, _, branch, _⟩ := here
      exact ih (resolveAll_single branch)
  | yes _ ih =>
      obtain ⟨_, here, _⟩ := yields_bind.mp yields
      simp only [Stmt.resolve, yields_descend, yields_bind, Prod.exists] at here
      obtain ⟨_, _, _, _, _, branch, _⟩ := here
      exact ih (resolveAll_single branch)
  | no passed _ ih =>
      obtain ⟨_, here, _⟩ := yields_bind.mp yields
      simp only [Stmt.resolve, yields_descend, yields_bind, Prod.exists] at here
      obtain ⟨_, _, _, _, _, first, _, _, branch, _⟩ := here
      obtain ⟨rfl, rfl⟩ := Prod.mk.inj (Option.some.inj (passed.symm.trans first.1))
      exact ih (resolveAll_single branch)

end Visits

end Lox
