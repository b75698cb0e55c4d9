/-
**Held tokens.** The tokens that stand in a tree are tokens of the text, each in one place.

* `Stmt.tokens` are all the tokens that a statement holds: names, keywords, operators and the
  parentheses that close calls.
* What a rule makes of its parts holds no token more often than the parts do
  (`Rule.tokens_subperm`), although it may leave tokens out, and bring clauses of a loop into
  another order. So a derivation holds no token more often than it reads it
  (`Derivation.tokens_subperm`).
* `parse_tokens_nodup`: no token is held twice by what a text is read into, whatever was skipped in
  the text. `parse_tokens_subperm`: they are all tokens of its scan.
-/

import Lox.Proofs.Parsed
import Mathlib.Data.List.Nodup
import Mathlib.Data.List.Perm.Subperm

namespace Lox

variable {ρ : Type}

/-! ### Trees -/

mutual

/-- The tokens in an expression. -/
def Expr.tokens : Expr ρ → List Token
  | .assign target value => target.token :: value.tokens
  | .binary left _ token right | .logical left _ token right => left.tokens ++ token :: right.tokens
  | .call callee paren args => callee.tokens ++ (argumentTokens args ++ [paren])
  | .get object name => object.tokens ++ [name]
  | .grouping inner => inner.tokens
  | .literal _ => []
  | .set object name value => object.tokens ++ name :: value.tokens
  | .super keyword method => [keyword.token, method]
  | .this keyword => [keyword.token]
  | .unary _ token right => token :: right.tokens
  | .var name => [name.token]

/-- The tokens in the arguments of a call. -/
def argumentTokens : List (Expr ρ) → List Token
  | [] => []
  | arg :: more => arg.tokens ++ argumentTokens more

end

/-- The tokens in an expression if there is one. -/
def optionalTokens : Option (Expr ρ) → List Token
  | none => []
  | some value => value.tokens

mutual

/-- The tokens in a statement. -/
def Stmt.tokens : Stmt ρ → List Token
  | .block body => tokensIn body
  | .function decl => decl.tokens
  | .class_ name superclass methods =>
    name :: (superclass.toList.map Reference.token ++ methodTokens methods)
  | .expression value => value.tokens
  | .ifThen cond branch | .while_ cond branch => cond.tokens ++ branch.tokens
  | .ifElse cond yes no => cond.tokens ++ (yes.tokens ++ no.tokens)
  | .print keyword value => keyword :: value.tokens
  | .return_ token value | .var token value => token :: optionalTokens value

/-- The tokens in statements. -/
def tokensIn : List (Stmt ρ) → List Token
  | [] => []
  | stmt :: more => stmt.tokens ++ tokensIn more

/-- The tokens in a function. -/
def Function.tokens : Function ρ → List Token
  | .mk name params body => name :: (params ++ tokensIn body)

/-- The tokens in the methods of a class. -/
def methodTokens : List (Function ρ) → List Token
  | [] => []
  | method :: more => method.tokens ++ methodTokens more

end

theorem argumentTokens_append (first second : List (Expr ρ)) :
    argumentTokens (first ++ second) = argumentTokens first ++ argumentTokens second := by
  induction first with
  | nil => rfl
  | cons arg more ih => rw [List.cons_append, argumentTokens, argumentTokens, ih, List.append_assoc]

theorem tokensIn_append (first second : List (Stmt ρ)) :
    tokensIn (first ++ second) = tokensIn first ++ tokensIn second := by
  induction first with
  | nil => rfl
  | cons stmt more ih => rw [List.cons_append, tokensIn, tokensIn, ih, List.append_assoc]

theorem methodTokens_append (first second : List (Function ρ)) :
    methodTokens (first ++ second) = methodTokens first ++ methodTokens second := by
  induction first with
  | nil => rfl
  | cons method more ih => rw [List.cons_append, methodTokens, methodTokens, ih, List.append_assoc]

/-! ### What was read -/

/-- The tokens in a phrase. -/
def Nonterminal.tokens : (phrase : Nonterminal) → phrase.Tree → List Token
  | .program, body | .block, body => tokensIn body
  | .statements, body => tokensIn (Array.toList body)
  | .declaration, found | .forInit, found => tokensIn (Option.toList found)
  | .classDecl, stmt | .funDecl, stmt | .varDecl, stmt | .statement, stmt => Stmt.tokens stmt
  | .superclass, found => (Option.toList found).map Reference.token
  | .methods, decls => methodTokens (Array.toList decls)
  | .function, decl => Function.tokens decl
  | .params, names => names
  | .paramList, names => Array.toList names
  | .forCond, found | .forStep, found => optionalTokens found
  | .expr, value => Expr.tokens value
  | .argumentsOpt, args => argumentTokens args
  | .arguments, args => argumentTokens (Array.toList args)

/-- The tokens in what a symbol stands for. A gap stands for none. -/
def Symbol.tokens : (symbol : Symbol) → symbol.Tree → List Token
  | .terminal kind, token => if kind = .gap then [] else [token]
  | .nonterminal phrase, tree => phrase.tokens tree

/-- The tokens in what symbols stand for. -/
def Values.tokens : (shape : List Symbol) → Values Symbol.Tree shape → List Token
  | [], _ => []
  | symbol :: more, (first, rest) => symbol.tokens first ++ tokens more rest

/-! ### Rules -/

section Parts

variable {kept tokens : List Token}

/-- A part that is left out. -/
theorem subperm_skip (left : List Token) (rest : kept.Subperm tokens) :
    kept.Subperm (left ++ tokens) :=
  rest.trans (List.sublist_append_right left tokens).subperm

/-- A part that is kept. -/
theorem subperm_keep (part : List Token) (rest : kept.Subperm tokens) :
    (part ++ kept).Subperm (part ++ tokens) :=
  (List.subperm_append_left part).mpr rest

/-- The last part that is kept. -/
theorem subperm_last (part tokens : List Token) : part.Subperm (part ++ tokens) :=
  (List.sublist_append_left part tokens).subperm

/-- A list that grows at its end. -/
theorem subperm_push {α : Type} (held : List α → List Token) {front : Array α} {last : α}
    (split : held (front.toList ++ [last]) = held front.toList ++ held [last])
    (rest : (held [last]).Subperm tokens) :
    (held (front.push last).toList).Subperm (held front.toList ++ tokens) := by
  rw [Array.toList_push, split]
  exact subperm_keep _ rest

theorem Stmt.tokens_forLoop (init : Option (Stmt ρ)) (cond increment : Option (Expr ρ))
    (body : Stmt ρ) : (Stmt.forLoop init cond increment body).tokens =
      tokensIn init.toList ++ (optionalTokens cond ++
        (body.tokens ++ optionalTokens increment)) := by
  cases init <;> cases cond <;> cases increment <;>
    simp [forLoop, withInit, withIncrement, tokens, tokensIn, optionalTokens, Expr.tokens]

/-- The last clause of a loop is written in front of the body and comes behind it. -/
theorem Stmt.tokens_forLoop_subperm (init : Option (Stmt ρ)) (cond increment : Option (Expr ρ))
    (body : Stmt ρ) (tokens : List Token) :
    (Stmt.forLoop init cond increment body).tokens.Subperm (tokensIn init.toList ++
      (optionalTokens cond ++ (optionalTokens increment ++ (body.tokens ++ tokens)))) := by
  rw [tokens_forLoop]
  refine subperm_keep _ (subperm_keep _ ?_)
  exact List.perm_append_comm.subperm.trans (subperm_keep _ (subperm_last _ _))

end Parts

/-- **What a rule makes of its parts holds no token more often than they do.** -/
theorem Rule.tokens_subperm (rule : Rule) (values : Values Symbol.Tree rule.rhs) :
    (rule.lhs.tokens (Tree.node rule values)).Subperm (Values.tokens rule.rhs values) := by
  cases rule with
  | program | ofBlock | someParams | someArguments => exact subperm_last _ _
  | noStatements | noSuperclass | noMethods | noParams | noArguments | skipped | noInit | noCond
  | noStep | number | string | true_ | false_ | nil_ => exact List.nil_subperm
  | expression | someCond | someStep | variable_ | this | firstParam => exact subperm_last _ _
  | funDecl | block | grouping | varPlain | superclass => exact subperm_skip _ (subperm_last _ _)
  | returnNothing => exact subperm_last _ _
  | print | returnValue => exact subperm_keep [_] (subperm_last _ _)
  | unary sign => cases sign <;> exact subperm_keep [_] (subperm_last _ _)
  | get => exact subperm_keep _ (subperm_skip _ (subperm_last _ _))
  | super => exact subperm_keep [_] (subperm_skip _ (subperm_last _ _))
  | varInit => exact subperm_skip _ (subperm_keep [_] (subperm_skip _ (subperm_last _ _)))
  | function =>
      exact subperm_keep [_] (subperm_skip _ (subperm_keep _ (subperm_skip _ (subperm_last _ _))))
  | ifThen | whileLoop =>
      exact subperm_skip _ (subperm_skip _ (subperm_keep _ (subperm_skip _ (subperm_last _ _))))
  | classDecl =>
      exact subperm_skip _ (subperm_keep [_] (subperm_keep _ (subperm_skip _ (subperm_last _ _))))
  | call => exact subperm_keep _ (subperm_skip _ (subperm_keep _ (subperm_last _ _)))
  | ifElse =>
      exact subperm_skip _ (subperm_skip _ (subperm_keep _ (subperm_skip _ (subperm_keep _
        (subperm_skip _ (subperm_last _ _))))))
  | forLoop => exact subperm_skip _ (subperm_skip _ (Stmt.tokens_forLoop_subperm _ _ _ _ _))
  | moreStatements =>
      obtain ⟨body, found, _⟩ := values
      cases found with
      | none => exact subperm_last _ _
      | some stmt => exact subperm_push tokensIn (tokensIn_append _ _) (subperm_last _ _)
  | moreMethods =>
      exact subperm_push methodTokens (methodTokens_append _ _) (List.Subperm.refl _)
  | moreParams => exact subperm_push id rfl (subperm_skip _ (subperm_last _ _))
  | moreArguments =>
      exact subperm_push argumentTokens (argumentTokens_append _ _)
        (subperm_skip _ (List.Subperm.refl _))
  | firstArgument => exact List.Subperm.refl _
  | ofClass | ofFun | ofVar | ofStatement | initVar | initExpr =>
      exact subperm_keep _ List.nil_subperm
  | binary op =>
      cases op with
      | compute op | connect op =>
          cases op <;> exact subperm_keep _ (subperm_keep [_] (subperm_last _ _))
      | assign =>
          obtain ⟨left, equals, right, _⟩ := values
          cases left with
          | var name => exact subperm_keep [_] (subperm_skip _ (subperm_last _ _))
          | get object name =>
              have held := subperm_keep (object.tokens ++ [name])
                (subperm_skip [equals] (subperm_last (Expr.tokens right) []))
              rw [List.append_assoc] at held
              exact held
          | _ => exact subperm_last _ _

/-- **What is objected to is held by the parts of a phrase**, and it is no syntax error. -/
theorem Tree.objections_spec (rule : Rule) (values : Values Symbol.Tree rule.rhs) :
    ∀ objected ∈ Tree.objections rule values, objected.1 ∈ Values.tokens rule.rhs values ∧
      ∀ expectation, objected.2 ≠ .expected expectation := by
  cases rule with
  | binary op =>
      cases op with
      | assign =>
          obtain ⟨left, token, right, _⟩ := values
          intro objected member
          have member : objected ∈ if isTarget left then []
            else [(token, Objection.invalidTarget)] := member
          split at member
          · cases member
          · rw [List.mem_singleton.mp member]
            exact ⟨List.mem_append_right _ List.mem_cons_self, fun _ => Objection.noConfusion⟩
      | _ => exact List.forall_mem_nil _
  | moreArguments =>
      obtain ⟨args, comma, arg, _⟩ := values
      intro objected member
      have member : objected ∈ if maxArguments ≤ Array.size args then
        [(comma, Objection.tooManyArguments)] else [] := member
      split at member
      · rw [List.mem_singleton.mp member]
        exact ⟨List.mem_append_right _ List.mem_cons_self, fun _ => Objection.noConfusion⟩
      · cases member
  | function =>
      obtain ⟨name, paren, params, _⟩ := values
      intro objected member
      obtain ⟨extra, inside, rfl⟩ := List.mem_map.mp member
      have held := List.mem_of_mem_drop inside
      exact ⟨List.mem_append_right _ (List.mem_append_right _ (List.mem_append_left _ held)),
        fun _ => Objection.noConfusion⟩
  | _ => exact List.forall_mem_nil _

/-! ### Texts -/

mutual

/-- **A derivation holds no token more often than it reads it.** -/
theorem Derivation.tokens_subperm : {symbol : Symbol} → (derivation : Derivation symbol) →
    (symbol.tokens (derivation.value trees)).Subperm derivation.yield
  | _, .leaf _ _ => List.Subperm.refl _
  | _, .node rule parts =>
    (rule.tokens_subperm (parts.values trees)).trans (Derivations.tokens_subperm parts)

theorem Derivations.tokens_subperm : {shape : List Symbol} → (parts : Derivations shape) →
    (Values.tokens shape (parts.values trees)).Subperm parts.yield
  | _, .nil => List.nil_subperm
  | _, .cons first rest =>
    (Derivation.tokens_subperm first).append (Derivations.tokens_subperm rest)

end

/-- **What a text is read into holds no token more often than the scan of the text has it**, errors
or not. -/
theorem parse_tokens_subperm (text : String) :
    (tokensIn (parse text).tree).Subperm (tokensOf (scan text)) := by
  rw [parse_tree]
  cases found : (readProgram trees (feed text)).1 with
  | none => exact List.nil_subperm
  | some program =>
      obtain ⟨derivation, same, _, part⟩ :=
        readProgram_sound (feed text) (feed_inside text) found
      rw [feed_tokens] at part
      have held := derivation.tokens_subperm.trans part.subperm
      rw [same] at held
      exact held

/-- No token is held twice. -/
theorem parse_tokens_nodup (text : String) : (tokensIn (parse text).tree).Nodup := by
  have apart : (tokensOf (scan text)).Nodup := by
    refine (scan_increasing text).imp ?_
    intro first second before same
    exact Nat.lt_irrefl _ (same ▸ before)
  obtain ⟨tokens, permuted, inside⟩ := parse_tokens_subperm text
  exact permuted.nodup_iff.mp (apart.sublist inside)

end Lox
