/-
**Tokens of resolved trees.** Resolving annotates references, and changes no token of a tree.

* `Expr.resolve_tokens`, `Stmt.resolve_tokens` and their companions: what a tree is resolved to
  holds the same tokens in the same order.
* `argumentTokens_eq`, `tokensIn_eq` and `methodTokens_eq` say part by part which tokens those are.
-/

import Lox.Proofs.Held
import Lox.Proofs.Resolution

namespace Lox

open Verdict (yields_bind yields_descend yields_objectIf yields_pure)

/-! ### Tokens of parts -/

theorem argumentTokens_eq {ρ : Type} (args : List (Expr ρ)) :
    argumentTokens args = args.flatMap Expr.tokens := by
  induction args with
  | nil => rfl
  | cons arg more ih => rw [argumentTokens, List.flatMap_cons, ih]

theorem tokensIn_eq {ρ : Type} (body : List (Stmt ρ)) :
    tokensIn body = body.flatMap Stmt.tokens := by
  induction body with
  | nil => rfl
  | cons stmt more ih => rw [tokensIn, List.flatMap_cons, ih]

theorem methodTokens_eq {ρ : Type} (methods : List (Function ρ)) :
    methodTokens methods = methods.flatMap Function.tokens := by
  induction methods with
  | nil => rfl
  | cons method more ih => rw [methodTokens, List.flatMap_cons, ih]

/-! ### Resolving -/

mutual

theorem Expr.resolve_tokens {quiet : Prop} {around : Enclosing} :
    {room : Nat} → (expr : Expr Unit) → {resolved : Expr Hops} →
    (expr.resolve around room : Verdict _).Yields quiet resolved → resolved.tokens = expr.tokens
  | _, .assign target value, _, yields => by
    simp only [Expr.resolve, yields_descend, yields_bind, yields_pure] at yields
    obtain ⟨_, value', inner, rfl⟩ := yields
    rw [Expr.tokens, Expr.tokens, value.resolve_tokens inner]
    rfl
  | _, .binary left op token right, _, yields
  | _, .logical left op token right, _, yields => by
    simp only [Expr.resolve, yields_descend, yields_bind, yields_pure] at yields
    obtain ⟨_, left', first, right', second, rfl⟩ := yields
    rw [Expr.tokens, Expr.tokens, left.resolve_tokens first, right.resolve_tokens second]
  | _, .call callee paren args, _, yields => by
    simp only [Expr.resolve, yields_descend, yields_bind, yields_pure] at yields
    obtain ⟨_, callee', first, args', ⟨_, rest⟩, rfl⟩ := yields
    rw [Expr.tokens, Expr.tokens, callee.resolve_tokens first, resolveArguments_tokens args rest]
  | _, .get object name, _, yields => by
    simp only [Expr.resolve, yields_descend, yields_bind, yields_pure] at yields
    obtain ⟨_, object', inner, rfl⟩ := yields
    rw [Expr.tokens, Expr.tokens, object.resolve_tokens inner]
  | _, .grouping inner, _, yields => by
    simp only [Expr.resolve, yields_descend, yields_bind, yields_pure] at yields
    obtain ⟨_, inner', deeper, rfl⟩ := yields
    rw [Expr.tokens, Expr.tokens, inner.resolve_tokens deeper]
  | _, .literal value, _, yields => by
    simp only [Expr.resolve, yields_descend, yields_pure] at yields
    obtain ⟨_, rfl⟩ := yields
    rfl
  | _, .set object name value, _, yields => by
    simp only [Expr.resolve, yields_descend, yields_bind, yields_pure] at yields
    obtain ⟨_, value', second, object', first, rfl⟩ := yields
    rw [Expr.tokens, Expr.tokens, object.resolve_tokens first, value.resolve_tokens second]
  | _, .super keyword method, _, yields => by
    simp only [Expr.resolve, yields_descend, yields_bind, yields_objectIf, yields_pure,
      exists_const] at yields
    obtain ⟨_, _, _, rfl⟩ := yields
    rfl
  | _, .this keyword, _, yields => by
    simp only [Expr.resolve, yields_descend, yields_bind, yields_objectIf, yields_pure,
      exists_const] at yields
    obtain ⟨_, _, rfl⟩ := yields
    rfl
  | _, .unary sign token right, _, yields => by
    simp only [Expr.resolve, yields_descend, yields_bind, yields_pure] at yields
    obtain ⟨_, right', inner, rfl⟩ := yields
    rw [Expr.tokens, Expr.tokens, right.resolve_tokens inner]
  | _, .var name, _, yields => by
    simp only [Expr.resolve, yields_descend, Reference.read, yields_bind, yields_objectIf,
      yields_pure, exists_const] at yields
    obtain ⟨_, _, ⟨_, rfl⟩, rfl⟩ := yields
    rfl

theorem resolveArguments_tokens {quiet : Prop} {around : Enclosing} :
    {room : Nat} → (args : List (Expr Unit)) → {resolved : List (Expr Hops)} →
    (resolveArguments around room args : Verdict _).Yields quiet resolved →
    argumentTokens resolved = argumentTokens args
  | _, [], _, yields => by
    obtain rfl := yields_pure.mp yields
    rfl
  | _, arg :: more, _, yields => by
    simp only [resolveArguments, yields_bind, yields_pure] at yields
    obtain ⟨arg', first, more', rest, rfl⟩ := yields
    rw [argumentTokens, argumentTokens, arg.resolve_tokens first, resolveArguments_tokens more rest]

end

section Parts

variable {quiet : Prop} {around : Enclosing}

theorem resolveOptional_tokens {room : Nat} {value : Option (Expr Unit)}
    {resolved : Option (Expr Hops)}
    (yields : (resolveOptional around room value : Verdict _).Yields quiet resolved) :
    optionalTokens resolved = optionalTokens value := by
  cases value with
  | none =>
      obtain rfl := yields_pure.mp yields
      rfl
  | some value =>
      simp only [resolveOptional, yields_bind, yields_pure] at yields
      obtain ⟨value', inner, rfl⟩ := yields
      exact value.resolve_tokens inner

theorem resolveSuperclass_tokens {name : Token} {superclass : Option (Reference Unit)}
    {resolved : Option (Reference Hops)}
    (yields : (resolveSuperclass around name superclass : Verdict _).Yields quiet resolved) :
    resolved.toList.map Reference.token = superclass.toList.map Reference.token := by
  cases superclass with
  | none =>
      obtain rfl := yields_pure.mp yields
      rfl
  | some parent =>
      simp only [resolveSuperclass, Reference.read, yields_bind, yields_objectIf, yields_pure,
        exists_const] at yields
      obtain ⟨_, _, ⟨_, rfl⟩, rfl⟩ := yields
      rfl

end Parts

mutual

theorem Stmt.resolve_tokens {quiet : Prop} :
    {room : Nat} → {around after : Enclosing} → (stmt : Stmt Unit) → {resolved : Stmt Hops} →
    (stmt.resolve around room : Verdict _).Yields quiet (resolved, after) →
    resolved.tokens = stmt.tokens
  | _, _, _, .block body, _, yields => by
    simp only [Stmt.resolve, yields_descend, yields_bind, yields_pure, Prod.mk.injEq] at yields
    obtain ⟨_, body', inner, rfl, rfl⟩ := yields
    rw [Stmt.tokens, Stmt.tokens, resolveAll_tokens body inner]
  | _, _, _, .function decl, _, yields => by
    simp only [Stmt.resolve, yields_descend, yields_bind, yields_pure, Prod.mk.injEq] at yields
    obtain ⟨_, next, _, decl', inner, rfl, rfl⟩ := yields
    rw [Stmt.tokens, Stmt.tokens, decl.resolve_tokens inner]
  | _, _, _, .class_ name superclass methods, _, yields => by
    simp only [Stmt.resolve, yields_descend, yields_bind, yields_pure, Prod.mk.injEq] at yields
    obtain ⟨_, next, _, superclass', parent, methods', inner, rfl, rfl⟩ := yields
    rw [Stmt.tokens, Stmt.tokens, resolveSuperclass_tokens parent,
      resolveMethods_tokens methods inner]
  | _, _, _, .expression value, _, yields
  | _, _, _, .print _ value, _, yields => by
    simp only [Stmt.resolve, yields_descend, yields_bind, yields_pure, Prod.mk.injEq] at yields
    obtain ⟨_, value', inner, rfl, rfl⟩ := yields
    rw [Stmt.tokens, Stmt.tokens, value.resolve_tokens inner]
  | _, _, _, .ifThen cond branch, _, yields
  | _, _, _, .while_ cond branch, _, yields => by
    simp only [Stmt.resolve, yields_descend, yields_bind, yields_pure, Prod.mk.injEq] at yields
    obtain ⟨_, cond', test, ⟨branch', _⟩, inner, rfl, rfl⟩ := yields
    rw [Stmt.tokens, Stmt.tokens, cond.resolve_tokens test, branch.resolve_tokens inner]
  | _, _, _, .ifElse cond yes no, _, yields => by
    simp only [Stmt.resolve, yields_descend, yields_bind, yields_pure, Prod.mk.injEq] at yields
    obtain ⟨_, cond', test, ⟨yes', _⟩, first, ⟨no', _⟩, second, rfl, rfl⟩ := yields
    rw [Stmt.tokens, Stmt.tokens, cond.resolve_tokens test, yes.resolve_tokens first,
      no.resolve_tokens second]
  | _, _, _, .return_ keyword value, _, yields => by
    simp only [Stmt.resolve, yields_descend, yields_bind, yields_objectIf, yields_pure,
      Prod.mk.injEq, exists_const] at yields
    obtain ⟨_, _, _, value', inner, rfl, rfl⟩ := yields
    rw [Stmt.tokens, Stmt.tokens, resolveOptional_tokens inner]
  | _, _, _, .var name init, _, yields => by
    simp only [Stmt.resolve, yields_descend, yields_bind, yields_pure, Prod.mk.injEq] at yields
    obtain ⟨_, declared, _, init', inner, rfl, rfl⟩ := yields
    rw [Stmt.tokens, Stmt.tokens, resolveOptional_tokens inner]

theorem resolveAll_tokens {quiet : Prop} :
    {room : Nat} → {around : Enclosing} → (body : List (Stmt Unit)) →
    {resolved : List (Stmt Hops)} →
    (resolveAll around room body : Verdict _).Yields quiet resolved →
    tokensIn resolved = tokensIn body
  | _, _, [], _, yields => by
    obtain rfl := yields_pure.mp yields
    rfl
  | _, _, stmt :: more, _, yields => by
    simp only [resolveAll, yields_bind, yields_pure] at yields
    obtain ⟨⟨stmt', next⟩, first, more', rest, rfl⟩ := yields
    rw [tokensIn, tokensIn, stmt.resolve_tokens first, resolveAll_tokens more rest]

theorem Function.resolve_tokens {quiet : Prop} :
    {room : Nat} → {around : Enclosing} → (decl : Function Unit) → {resolved : Function Hops} →
    (decl.resolve around room : Verdict _).Yields quiet resolved → resolved.tokens = decl.tokens
  | _, _, .mk name params body, _, yields => by
    simp only [Function.resolve, yields_descend, yields_bind, yields_pure] at yields
    obtain ⟨_, inside, _, body', inner, rfl⟩ := yields
    rw [Function.tokens, Function.tokens, resolveAll_tokens body inner]

theorem resolveMethods_tokens {quiet : Prop} :
    {room : Nat} → {around : Enclosing} → (methods : List (Function Unit)) →
    {resolved : List (Function Hops)} →
    (resolveMethods around room methods : Verdict _).Yields quiet resolved →
    methodTokens resolved = methodTokens methods
  | _, _, [], _, yields => by
    obtain rfl := yields_pure.mp yields
    rfl
  | _, _, method :: more, _, yields => by
    simp only [resolveMethods, yields_bind, yields_pure] at yields
    obtain ⟨method', first, more', rest, rfl⟩ := yields
    rw [methodTokens, methodTokens, method.resolve_tokens first, resolveMethods_tokens more rest]

end

end Lox
