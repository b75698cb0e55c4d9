/-
**Reading back.** A tree that respects precedence is read back from the tokens that write it out.

* `Expr.renders` and `Stmt.renders` go along a tree, with one lemma for every kind of expression and
  statement: what writes it out renders it, up to lines and offsets.
* `reads_back`: so what writes out a program is read into it.
-/

import Lox.Proofs.Parsed
import Lox.Proofs.Rendering
import Lox.Proofs.Written

namespace Lox

/-! ### Operators -/

/-- An operator between two operands that bind as tightly as it asks. -/
theorem Renders.operator (op : Operator) {front back : List Token} {token : Token}
    {first second : Nat} {left right : Expr Unit}
    (leftRendered : Renders trees (.nonterminal .expr) front first left)
    (kind : token.kind = op.terminal)
    (rightRendered : Renders trees (.nonterminal .expr) back second right)
    (leftTight : op.leftLevel ≤ first) (rightTight : op.rightLevel ≤ second)
    (target : op = .assign → Tree.isTarget left = true) :
    Renders trees (.nonterminal .expr) (front ++ token :: back) op.level
      (Tree.binary left op token right) := by
  refine .binary op leftRendered kind rightRendered leftTight rightTight ?_
  cases op with
  | assign => exact if_pos (target rfl)
  | connect _ | compute _ => rfl

/-! ### Taking apart what is written -/

theorem Writes.uncons {mark : Mark} {marks : List Mark} {tokens : List Token}
    (writes : Writes (mark :: marks) tokens) :
    ∃ token rest, mark.Spells token ∧ Writes marks rest ∧ tokens = token :: rest :=
  List.forall₂_cons_left_iff.mp writes

theorem Writes.split {front back : List Mark} {tokens : List Token}
    (writes : Writes (front ++ back) tokens) :
    ∃ first rest, Writes front first ∧ Writes back rest ∧ tokens = first ++ rest := by
  induction front generalizing tokens with
  | nil => exact ⟨[], tokens, .nil, writes, rfl⟩
  | cons mark more ih =>
      obtain ⟨token, others, spells, inner, rfl⟩ := writes.uncons
      obtain ⟨first, rest, inFront, behind, rfl⟩ := ih inner
      exact ⟨token :: first, rest, .cons spells inFront, behind, rfl⟩

theorem Writes.single {mark : Mark} {tokens : List Token} (writes : Writes [mark] tokens) :
    ∃ token, mark.Spells token ∧ tokens = [token] := by
  obtain ⟨token, rest, spells, none, rfl⟩ := writes.uncons
  rw [List.forall₂_nil_left_iff.mp none]
  exact ⟨token, spells, rfl⟩

theorem Token.kind_of_unplaced {token original : Token}
    (same : token.unplaced = original.unplaced) : token.kind = original.kind := by
  have kinds : token.unplaced.kind = original.unplaced.kind := by rw [same]
  exact kinds

theorem Reference.unplaced_reference {token : Token} {original : Reference Unit}
    (same : token.unplaced = original.token.unplaced) :
    (Tree.reference token).unplaced = original.unplaced := by
  unfold Reference.unplaced Tree.reference
  rw [same]

/-! ### Expressions -/

/-- Tokens are read into an expression, up to lines and offsets. -/
def Expr.Rendered (expr : Expr Unit) (tokens : List Token) : Prop :=
  ∃ again : Expr Unit, again.unplaced = expr.unplaced ∧
    Renders trees (.nonterminal .expr) tokens expr.level again

namespace Expr.Rendered

variable {tokens front back : List Token} {token : Token}

theorem var {name : Reference Unit} (spells : Mark.Spells (.kept name.token) token)
    (named : name.token.kind = .name) : (Expr.var name).Rendered [token] := by
  have kind := (Token.kind_of_unplaced spells).trans named
  refine ⟨.var (Tree.reference token), ?_, .node .variable_ (.leaf kind nofun .nil) trivial rfl⟩
  rw [Expr.unplaced, Expr.unplaced, Reference.unplaced_reference spells]

theorem literal {value : Literal} (spells : value.written.Spells token) :
    (Expr.literal value).Rendered [token] := by
  refine ⟨.literal value, rfl, ?_⟩
  match value, spells with
  | .nil, kind => exact .node .nil_ (.leaf kind nofun .nil) trivial rfl
  | .bool true, kind => exact .node .true_ (.leaf kind nofun .nil) trivial rfl
  | .bool false, kind => exact .node .false_ (.leaf kind nofun .nil) trivial rfl
  | .number value, ⟨kind, same⟩ =>
      rw [← same]
      exact .node .number (.leaf kind nofun .nil) trivial rfl
  | .string value, ⟨kind, same⟩ =>
      rw [← same]
      exact .node .string (.leaf kind nofun .nil) trivial rfl

theorem binary {left right : Expr Unit} {op : BinaryOp} {original : Token}
    (first : left.Rendered front) (second : right.Rendered back)
    (spells : Mark.Spells (.kept original) token)
    (joins : Operator.Joins (.compute op) left original right) :
    (Expr.binary left op original right).Rendered (front ++ token :: back) := by
  obtain ⟨left', sameLeft, leftRendered⟩ := first
  obtain ⟨right', sameRight, rightRendered⟩ := second
  have kind := (Token.kind_of_unplaced spells).trans joins.token
  refine ⟨.binary left' op token right', ?_,
    .operator (.compute op) leftRendered kind rightRendered joins.left joins.right nofun⟩
  rw [Expr.unplaced, Expr.unplaced, sameLeft, sameRight, show token.unplaced = _ from spells]

theorem logical {left right : Expr Unit} {op : Connective} {original : Token}
    (first : left.Rendered front) (second : right.Rendered back)
    (spells : Mark.Spells (.kept original) token)
    (joins : Operator.Joins (.connect op) left original right) :
    (Expr.logical left op original right).Rendered (front ++ token :: back) := by
  obtain ⟨left', sameLeft, leftRendered⟩ := first
  obtain ⟨right', sameRight, rightRendered⟩ := second
  have kind := (Token.kind_of_unplaced spells).trans joins.token
  refine ⟨.logical left' op token right', ?_,
    .operator (.connect op) leftRendered kind rightRendered joins.left joins.right nofun⟩
  rw [Expr.unplaced, Expr.unplaced, sameLeft, sameRight, show token.unplaced = _ from spells]

theorem assign {target : Reference Unit} {value : Expr Unit} {equal : Token}
    (spells : Mark.Spells (.kept target.token) token) (named : target.token.kind = .name)
    (sign : equal.kind = .equal) (rendered : value.Rendered back) :
    (Expr.assign target value).Rendered (token :: equal :: back) := by
  have kind := (Token.kind_of_unplaced spells).trans named
  obtain ⟨value', sameValue, valueRendered⟩ := rendered
  have left : Renders trees (.nonterminal .expr) [token] Operator.postfixLevel
      (Expr.var (Tree.reference token)) := .node .variable_ (.leaf kind nofun .nil) trivial rfl
  refine ⟨.assign (Tree.reference token) value', ?_,
    .operator .assign left sign valueRendered (by decide) (Nat.zero_le _) fun _ => rfl⟩
  rw [Expr.unplaced, Expr.unplaced, sameValue, Reference.unplaced_reference spells]

theorem get {object : Expr Unit} {name mark : Token} (rendered : object.Rendered front)
    (tight : Operator.postfixLevel ≤ object.level) (isDot : mark.kind = .dot)
    (spells : Mark.Spells (.kept name) token) (named : name.kind = .name) :
    (Expr.get object name).Rendered (front ++ [mark, token]) := by
  have kind := (Token.kind_of_unplaced spells).trans named
  obtain ⟨object', same, objectRendered⟩ := rendered
  refine ⟨.get object' token, ?_, ?_⟩
  · rw [Expr.unplaced, Expr.unplaced, same, show token.unplaced = _ from spells]
  · exact .node .get (.cons objectRendered (.leaf isDot nofun (.leaf kind nofun .nil))) tight rfl

theorem set {object value : Expr Unit} {name mark equal : Token} (rendered : object.Rendered front)
    (tight : Operator.postfixLevel ≤ object.level) (isDot : mark.kind = .dot)
    (spells : Mark.Spells (.kept name) token) (named : name.kind = .name)
    (sign : equal.kind = .equal) (assigned : value.Rendered back) :
    (Expr.set object name value).Rendered (front ++ mark :: token :: equal :: back) := by
  have kind := (Token.kind_of_unplaced spells).trans named
  obtain ⟨object', sameObject, objectRendered⟩ := rendered
  obtain ⟨value', sameValue, valueRendered⟩ := assigned
  have left : Renders trees (.nonterminal .expr) (front ++ [mark, token]) Operator.postfixLevel
      (Expr.get object' token) :=
    .node .get (.cons objectRendered (.leaf isDot nofun (.leaf kind nofun .nil))) tight rfl
  have whole : Renders trees (.nonterminal .expr) ((front ++ [mark, token]) ++ equal :: back)
      (Operator.level .assign) (Expr.set object' token value') :=
    .operator .assign left sign valueRendered (by decide) (Nat.zero_le _) fun _ => rfl
  rw [List.append_assoc] at whole
  refine ⟨.set object' token value', ?_, whole⟩
  rw [Expr.unplaced, Expr.unplaced, sameObject, sameValue, show token.unplaced = _ from spells]

theorem grouping {inner : Expr Unit} {opening closing : Token} (rendered : inner.Rendered tokens)
    (opens : opening.kind = .parenOpen) (closes : closing.kind = .parenClose) :
    (Expr.grouping inner).Rendered (opening :: (tokens ++ [closing])) := by
  obtain ⟨inner', same, innerRendered⟩ := rendered
  refine ⟨.grouping inner', by rw [Expr.unplaced, Expr.unplaced, same], ?_⟩
  exact .node .grouping (.leaf opens nofun (.cons innerRendered (.leaf closes nofun .nil)))
    trivial rfl

theorem unary {sign : Sign} {original : Token} {right : Expr Unit}
    (rendered : right.Rendered tokens)
    (spells : Mark.Spells (.kept original) token) (signed : original.kind = sign.terminal)
    (tight : Operator.unaryLevel ≤ right.level) :
    (Expr.unary sign original right).Rendered (token :: tokens) := by
  have kind := (Token.kind_of_unplaced spells).trans signed
  have inside : sign.terminal ≠ .gap := by cases sign <;> nofun
  obtain ⟨right', same, rightRendered⟩ := rendered
  refine ⟨.unary sign token right', ?_,
    .node (.unary sign) (.leaf kind inside (.last rightRendered)) tight rfl⟩
  rw [Expr.unplaced, Expr.unplaced, same, show token.unplaced = _ from spells]

theorem this {keyword : Reference Unit} (spells : Mark.Spells (.kept keyword.token) token)
    (isThis : keyword.token.kind = .this_) : (Expr.this keyword).Rendered [token] := by
  have kind := (Token.kind_of_unplaced spells).trans isThis
  refine ⟨.this (Tree.reference token), ?_, .node .this (.leaf kind nofun .nil) trivial rfl⟩
  rw [Expr.unplaced, Expr.unplaced, Reference.unplaced_reference spells]

theorem super {keyword : Reference Unit} {method mark name : Token}
    (spells : Mark.Spells (.kept keyword.token) token) (isSuper : keyword.token.kind = .super_)
    (isDot : mark.kind = .dot) (spellsName : Mark.Spells (.kept method) name)
    (named : method.kind = .name) : (Expr.super keyword method).Rendered [token, mark, name] := by
  have kind := (Token.kind_of_unplaced spells).trans isSuper
  have kindName := (Token.kind_of_unplaced spellsName).trans named
  refine ⟨.super (Tree.reference token) name, ?_, .node .super
    (.leaf kind nofun (.leaf isDot nofun (.leaf kindName nofun .nil))) trivial rfl⟩
  rw [Expr.unplaced, Expr.unplaced, Reference.unplaced_reference spells,
    show name.unplaced = _ from spellsName]

theorem call {callee : Expr Unit} {args : List (Expr Unit)} {paren opening : Token}
    (rendered : callee.Rendered front) (tight : Operator.postfixLevel ≤ callee.level)
    (opens : opening.kind = .parenOpen)
    (given : ∃ args' : List (Expr Unit), args'.map Expr.unplaced = args.map Expr.unplaced ∧
      Renders trees (.nonterminal .argumentsOpt) tokens () args')
    (spells : Mark.Spells (.kept paren) token) (closes : paren.kind = .parenClose) :
    (Expr.call callee paren args).Rendered (front ++ opening :: (tokens ++ [token])) := by
  have kind := (Token.kind_of_unplaced spells).trans closes
  obtain ⟨callee', sameCallee, calleeRendered⟩ := rendered
  obtain ⟨args', sameArgs, argsRendered⟩ := given
  refine ⟨.call callee' token args', ?_, ?_⟩
  · rw [Expr.unplaced, Expr.unplaced, sameCallee, argumentsUnplaced_eq, argumentsUnplaced_eq,
      sameArgs, show token.unplaced = _ from spells]
  · exact .node .call (.cons calleeRendered
      (.leaf opens nofun (.cons argsRendered (.leaf kind nofun .nil)))) tight rfl

end Expr.Rendered

mutual

/-- **An expression is read back** from the tokens that write it out. -/
theorem Expr.renders : (expr : Expr Unit) → expr.Each Expr.Writable → (tokens : List Token) →
    Writes expr.written tokens → expr.Rendered tokens
  | .assign target value, each, tokens, writes => by
      obtain ⟨token, _, spells, w₁, rfl⟩ := writes.uncons
      obtain ⟨equal, back, sign, w₂, rfl⟩ := w₁.uncons
      exact .assign spells each.1 sign (value.renders each.2 back w₂)
  | .binary left op original right, each, tokens, writes => by
      obtain ⟨front, _, first, w₁, rfl⟩ := writes.split
      obtain ⟨token, back, spells, second, rfl⟩ := w₁.uncons
      exact .binary (left.renders each.2.1 front first) (right.renders each.2.2 back second) spells
        each.1
  | .logical left op original right, each, tokens, writes => by
      obtain ⟨front, _, first, w₁, rfl⟩ := writes.split
      obtain ⟨token, back, spells, second, rfl⟩ := w₁.uncons
      exact .logical (left.renders each.2.1 front first) (right.renders each.2.2 back second) spells
        each.1
  | .call callee paren args, each, tokens, writes => by
      obtain ⟨front, _, first, w₁, rfl⟩ := writes.split
      obtain ⟨opening, _, opens, w₂, rfl⟩ := w₁.uncons
      obtain ⟨inner, _, inside, w₃, rfl⟩ := w₂.split
      obtain ⟨token, spells, rfl⟩ := w₃.single
      obtain ⟨⟨tight, closes, few⟩, calleeEach, argsEach⟩ := each
      exact .call (callee.renders calleeEach front first) tight opens
        (arguments_render args argsEach few inner inside) spells closes
  | .get object name, each, tokens, writes => by
      obtain ⟨front, _, first, w₁, rfl⟩ := writes.split
      obtain ⟨mark, _, isDot, w₂, rfl⟩ := w₁.uncons
      obtain ⟨token, spells, rfl⟩ := w₂.single
      exact .get (object.renders each.2 front first) each.1.1 isDot spells each.1.2
  | .grouping inner, each, tokens, writes => by
      obtain ⟨opening, _, opens, w₁, rfl⟩ := writes.uncons
      obtain ⟨middle, _, inside, w₂, rfl⟩ := w₁.split
      obtain ⟨closing, closes, rfl⟩ := w₂.single
      exact .grouping (inner.renders each.2 middle inside) opens closes
  | .literal value, _, tokens, writes => by
      obtain ⟨token, spells, rfl⟩ := writes.single
      exact .literal spells
  | .set object name value, each, tokens, writes => by
      obtain ⟨front, _, first, w₁, rfl⟩ := writes.split
      obtain ⟨mark, _, isDot, w₂, rfl⟩ := w₁.uncons
      obtain ⟨token, _, spells, w₃, rfl⟩ := w₂.uncons
      obtain ⟨equal, back, sign, second, rfl⟩ := w₃.uncons
      exact .set (object.renders each.2.1 front first) each.1.1 isDot spells each.1.2 sign
        (value.renders each.2.2 back second)
  | .super keyword method, each, tokens, writes => by
      obtain ⟨token, _, spells, w₁, rfl⟩ := writes.uncons
      obtain ⟨mark, _, isDot, w₂, rfl⟩ := w₁.uncons
      obtain ⟨name, spellsName, rfl⟩ := w₂.single
      exact .super spells each.1 isDot spellsName each.2
  | .this keyword, each, tokens, writes => by
      obtain ⟨token, spells, rfl⟩ := writes.single
      exact .this spells each
  | .unary sign original right, each, tokens, writes => by
      obtain ⟨token, back, spells, w₁, rfl⟩ := writes.uncons
      exact .unary (right.renders each.2 back w₁) spells each.1.1 each.1.2
  | .var name, each, tokens, writes => by
      obtain ⟨token, spells, rfl⟩ := writes.single
      exact .var spells each

theorem arguments_render : (args : List (Expr Unit)) → eachArgument Expr.Writable args →
    args.length ≤ maxArguments → (tokens : List Token) → Writes (argumentsWritten args) tokens →
    ∃ args' : List (Expr Unit), args'.map Expr.unplaced = args.map Expr.unplaced ∧
      Renders trees (.nonterminal .argumentsOpt) tokens () args'
  | [], _, _, tokens, writes => by
      rw [List.forall₂_nil_left_iff.mp writes]
      exact ⟨[], rfl, .node .noArguments .nil trivial rfl⟩
  | arg :: more, each, few, tokens, writes => by
      obtain ⟨front, back, first, w₁, rfl⟩ := writes.split
      obtain ⟨arg', same, rendered⟩ := arg.renders each.1 front first
      have start : Renders trees (.nonterminal .arguments) front () #[arg'] :=
        .node .firstArgument (.last rendered) trivial rfl
      obtain ⟨all, sameAll, whole⟩ := further_render more each.2 back w₁ start
        (by rw [List.length_cons, Nat.add_comm] at few; exact few)
      refine ⟨all.toList, ?_, .node .someArguments (.last whole) trivial rfl⟩
      simp [sameAll, same]

/-- Arguments that follow others, each behind a comma. -/
theorem further_render : (more : List (Expr Unit)) → eachArgument Expr.Writable more →
    (tokens : List Token) → Writes (furtherWritten more) tokens → {before : List Token} →
    {front : Array (Expr Unit)} → Renders trees (.nonterminal .arguments) before () front →
    front.size + more.length ≤ maxArguments →
    ∃ all : Array (Expr Unit),
      all.toList.map Expr.unplaced = front.toList.map Expr.unplaced ++ more.map Expr.unplaced ∧
      Renders trees (.nonterminal .arguments) (before ++ tokens) () all
  | [], _, tokens, writes, before, front, rendered, _ => by
      rw [List.forall₂_nil_left_iff.mp writes, List.append_nil]
      exact ⟨front, by simp, rendered⟩
  | arg :: more, each, tokens, writes, before, front, rendered, few => by
      obtain ⟨comma, _, isComma, w₁, rfl⟩ := writes.uncons
      obtain ⟨middle, back, first, w₂, rfl⟩ := w₁.split
      obtain ⟨arg', same, argRendered⟩ := arg.renders each.1 middle first
      rw [List.length_cons] at few
      have room : ¬ maxArguments ≤ front.size := by omega
      have next : Renders trees (.nonterminal .arguments) (before ++ comma :: middle) ()
          (front.push arg') :=
        .node .moreArguments (.cons rendered (.leaf isComma nofun (.last argRendered))) trivial
          (if_neg room)
      obtain ⟨all, sameAll, whole⟩ := further_render more each.2 back w₂ next
        (by rw [Array.size_push]; omega)
      refine ⟨all, ?_, ?_⟩
      · rw [sameAll, Array.toList_push, List.map_append, List.map_cons, List.map_cons, same]
        simp
      · rwa [List.append_assoc, List.cons_append] at whole

end

/-! ### Statements -/

/-- Tokens are read into a declaration, up to lines and offsets; and into a statement, unless it
declares something. -/
def Stmt.Rendered (stmt : Stmt Unit) (tokens : List Token) : Prop :=
  ∃ again : Stmt Unit, again.unplaced = stmt.unplaced ∧
    Renders trees (.nonterminal .declaration) tokens stmt.isOpen (some again) ∧
    (stmt.declared? = none → Renders trees (.nonterminal .statement) tokens stmt.isOpen again)

/-- Tokens are read into a function, up to lines and offsets. -/
def Function.Rendered (decl : Function Unit) (tokens : List Token) : Prop :=
  ∃ again : Function Unit, again.unplaced = decl.unplaced ∧
    Renders trees (.nonterminal .function) tokens () again

/-- Tokens are read into statements, up to lines and offsets. -/
def BodyRendered (body : List (Stmt Unit)) (tokens : List Token) : Prop :=
  ∃ again : Array (Stmt Unit), again.toList.map Stmt.unplaced = body.map Stmt.unplaced ∧
    Renders trees (.nonterminal .statements) tokens () again

/-- Parameters that follow others, each behind a comma. -/
theorem further_params (more : List Token) (named : ∀ name ∈ more, name.kind = .name)
    {tokens before : List Token} {front : Array Token}
    (writes : Writes (more.flatMap fun name => [.fixed .comma, .kept name]) tokens)
    (rendered : Renders trees (.nonterminal .paramList) before () front) :
    ∃ all : Array Token,
      all.toList.map Token.unplaced = front.toList.map Token.unplaced ++ more.map Token.unplaced ∧
      Renders trees (.nonterminal .paramList) (before ++ tokens) () all := by
  induction more generalizing tokens before front with
  | nil =>
      rw [List.forall₂_nil_left_iff.mp writes, List.append_nil]
      exact ⟨front, by simp, rendered⟩
  | cons name more ih =>
      obtain ⟨isName, others⟩ := List.forall_mem_cons.mp named
      obtain ⟨comma, _, isComma, w₁, rfl⟩ := writes.uncons
      obtain ⟨token, back, spells, w₂, rfl⟩ := w₁.uncons
      have kind := (Token.kind_of_unplaced spells).trans isName
      have next : Renders trees (.nonterminal .paramList) (before ++ [comma, token]) ()
          (front.push token) :=
        .node .moreParams (.cons rendered (.leaf isComma nofun (.leaf kind nofun .nil))) trivial rfl
      obtain ⟨all, same, whole⟩ := ih others w₂ next
      refine ⟨all, ?_, ?_⟩
      · simp [same, show token.unplaced = name.unplaced from spells]
      · rwa [List.append_assoc] at whole

theorem params_render (params : List Token) (named : ∀ name ∈ params, name.kind = .name)
    {tokens : List Token} (writes : Writes (paramsWritten params) tokens) :
    ∃ params' : List Token, params'.map Token.unplaced = params.map Token.unplaced ∧
      Renders trees (.nonterminal .params) tokens () params' := by
  cases params with
  | nil =>
      rw [List.forall₂_nil_left_iff.mp writes]
      exact ⟨[], rfl, .node .noParams .nil trivial rfl⟩
  | cons name more =>
      obtain ⟨isName, others⟩ := List.forall_mem_cons.mp named
      obtain ⟨token, back, spells, w₁, rfl⟩ := writes.uncons
      have kind := (Token.kind_of_unplaced spells).trans isName
      have start : Renders trees (.nonterminal .paramList) [token] () #[token] :=
        .node .firstParam (.leaf kind nofun .nil) trivial rfl
      obtain ⟨all, same, whole⟩ := further_params more others w₁ start
      refine ⟨all.toList, ?_, .node .someParams (.last whole) trivial rfl⟩
      simp [same, show token.unplaced = name.unplaced from spells]

theorem superclass_render (superclass : Option (Reference Unit))
    (named : ∀ parent ∈ superclass, parent.token.kind = .name) {tokens : List Token}
    (writes : Writes (superclassWritten superclass) tokens) :
    ∃ parent : Option (Reference Unit),
      parent.map Reference.unplaced = superclass.map Reference.unplaced ∧
      Renders trees (.nonterminal .superclass) tokens () parent := by
  cases superclass with
  | none =>
      rw [List.forall₂_nil_left_iff.mp writes]
      exact ⟨none, rfl, .node .noSuperclass .nil trivial rfl⟩
  | some parent =>
      obtain ⟨mark, _, isLess, w₁, rfl⟩ := writes.uncons
      obtain ⟨token, spells, rfl⟩ := w₁.single
      have kind := (Token.kind_of_unplaced spells).trans (named parent rfl)
      refine ⟨some (Tree.reference token), ?_,
        .node .superclass (.leaf isLess nofun (.leaf kind nofun .nil)) trivial rfl⟩
      rw [Option.map_some, Option.map_some, Reference.unplaced_reference spells]

/-- A function is read where its body is. -/
theorem Function.Rendered.mk {name : Token} {params : List Token} {body : List (Stmt Unit)}
    (writable : (Function.mk name params body).Writable) {token opening closing start stop : Token}
    {front middle : List Token} (spells : Mark.Spells (.kept name) token)
    (opens : opening.kind = .parenOpen) (listed : Writes (paramsWritten params) front)
    (closes : closing.kind = .parenClose) (starts : start.kind = .braceOpen)
    (rendered : BodyRendered body middle) (stops : stop.kind = .braceClose) :
    (Function.mk name params body).Rendered
      (token :: opening :: (front ++ closing :: start :: (middle ++ [stop]))) := by
  have kind := (Token.kind_of_unplaced spells).trans writable.name
  obtain ⟨params', sameParams, paramsRendered⟩ := params_render params writable.params listed
  obtain ⟨body', sameBody, bodyRendered⟩ := rendered
  have block : Renders trees (.nonterminal .block) (start :: (middle ++ [stop])) () body'.toList :=
    .node .block (.leaf starts nofun (.cons bodyRendered (.leaf stops nofun .nil))) trivial rfl
  have few : params'.length ≤ maxArguments := by
    rw [← List.length_map Token.unplaced, sameParams, List.length_map]
    exact writable.limit
  have none : (List.drop maxArguments params').map
      (fun extra => (extra, Objection.tooManyParameters)) = [] := by
    rw [List.drop_eq_nil_of_le few, List.map_nil]
  refine ⟨.mk token params' body'.toList, ?_, .node .function (.leaf kind nofun (.leaf opens nofun
    (.cons paramsRendered (.leaf closes nofun (.last block))))) trivial none⟩
  rw [Function.unplaced, Function.unplaced, sameParams, bodyUnplaced_eq, bodyUnplaced_eq, sameBody,
    show token.unplaced = name.unplaced from spells]

namespace Stmt.Rendered

variable {tokens front middle back : List Token} {token mark opening closing : Token}

/-- What is read into a statement is read into a declaration. -/
theorem of_statement {stmt : Stmt Unit} (again : Stmt Unit) (same : again.unplaced = stmt.unplaced)
    (rendered : Renders trees (.nonterminal .statement) tokens stmt.isOpen again) :
    stmt.Rendered tokens :=
  ⟨again, same, .node .ofStatement (.last rendered) trivial rfl, fun _ => rendered⟩

theorem block {body : List (Stmt Unit)} (rendered : BodyRendered body tokens)
    (opens : opening.kind = .braceOpen) (closes : closing.kind = .braceClose) :
    (Stmt.block body).Rendered (opening :: (tokens ++ [closing])) := by
  obtain ⟨body', same, bodyRendered⟩ := rendered
  have whole : Renders trees (.nonterminal .block) (opening :: (tokens ++ [closing])) ()
      body'.toList :=
    .node .block (.leaf opens nofun (.cons bodyRendered (.leaf closes nofun .nil))) trivial rfl
  refine of_statement (.block body'.toList) ?_ (.node .ofBlock (.last whole) trivial rfl)
  rw [Stmt.unplaced, Stmt.unplaced, bodyUnplaced_eq, bodyUnplaced_eq, same]

theorem function {decl : Function Unit} (isFun : token.kind = .fun_)
    (rendered : decl.Rendered tokens) :
    (Stmt.function decl).Rendered (token :: tokens) := by
  obtain ⟨decl', same, declRendered⟩ := rendered
  have whole : Renders trees (.nonterminal .funDecl) (token :: tokens) () (Stmt.function decl') :=
    .node .funDecl (.leaf isFun nofun (.last declRendered)) trivial rfl
  refine ⟨.function decl', ?_, .node .ofFun (.last whole) trivial rfl, nofun⟩
  rw [Stmt.unplaced, Stmt.unplaced, same]

theorem class_ {name word : Token} {superclass : Option (Reference Unit)}
    {methods : List (Function Unit)} (isClass : word.kind = .class_)
    (spells : Mark.Spells (.kept name) token)
    (writable : (Stmt.class_ name superclass methods).Writable)
    (inherits : Writes (superclassWritten superclass) front) (opens : opening.kind = .braceOpen)
    (given : ∃ methods' : Array (Function Unit),
      methods'.toList.map Function.unplaced = methods.map Function.unplaced ∧
      Renders trees (.nonterminal .methods) middle () methods')
    (closes : closing.kind = .braceClose) :
    (Stmt.class_ name superclass methods).Rendered
      (word :: token :: (front ++ opening :: (middle ++ [closing]))) := by
  have kind := (Token.kind_of_unplaced spells).trans writable.1
  obtain ⟨parent, sameParent, parentRendered⟩ := superclass_render superclass writable.2 inherits
  obtain ⟨methods', sameMethods, methodsRendered⟩ := given
  have whole : Renders trees (.nonterminal .classDecl)
      (word :: token :: (front ++ opening :: (middle ++ [closing]))) ()
      (Stmt.class_ token parent methods'.toList) :=
    .node .classDecl (.leaf isClass nofun (.leaf kind nofun (.cons parentRendered
      (.leaf opens nofun (.cons methodsRendered (.leaf closes nofun .nil)))))) trivial rfl
  refine ⟨.class_ token parent methods'.toList, ?_, .node .ofClass (.last whole) trivial rfl, nofun⟩
  rw [Stmt.unplaced, Stmt.unplaced, sameParent, methodsUnplaced_eq, methodsUnplaced_eq, sameMethods,
    show token.unplaced = name.unplaced from spells]

theorem expression {value : Expr Unit} (rendered : value.Rendered tokens)
    (ends : mark.kind = .semicolon) : (Stmt.expression value).Rendered (tokens ++ [mark]) := by
  obtain ⟨value', same, valueRendered⟩ := rendered
  refine of_statement (.expression value') ?_
    (.node .expression (.cons valueRendered (.leaf ends nofun .nil)) trivial rfl)
  rw [Stmt.unplaced, Stmt.unplaced, same]

theorem print {keyword : Token} {value : Expr Unit} (spells : Mark.Spells (.kept keyword) token)
    (isPrint : keyword.kind = .print_) (rendered : value.Rendered tokens)
    (ends : mark.kind = .semicolon) :
    (Stmt.print keyword value).Rendered (token :: (tokens ++ [mark])) := by
  have kind := (Token.kind_of_unplaced spells).trans isPrint
  obtain ⟨value', same, valueRendered⟩ := rendered
  refine of_statement (.print token value') ?_
    (.node .print (.leaf kind nofun (.cons valueRendered (.leaf ends nofun .nil))) trivial rfl)
  rw [Stmt.unplaced, Stmt.unplaced, same, show token.unplaced = keyword.unplaced from spells]

theorem returnNothing {keyword : Token} (spells : Mark.Spells (.kept keyword) token)
    (isReturn : keyword.kind = .return_) (ends : mark.kind = .semicolon) :
    (Stmt.return_ keyword none).Rendered [token, mark] := by
  have kind := (Token.kind_of_unplaced spells).trans isReturn
  refine of_statement (.return_ token none) ?_
    (.node .returnNothing (.leaf kind nofun (.leaf ends nofun .nil)) trivial rfl)
  rw [Stmt.unplaced, Stmt.unplaced, show token.unplaced = keyword.unplaced from spells]

theorem returnValue {keyword : Token} {value : Expr Unit}
    (spells : Mark.Spells (.kept keyword) token) (isReturn : keyword.kind = .return_)
    (rendered : value.Rendered tokens) (ends : mark.kind = .semicolon) :
    (Stmt.return_ keyword (some value)).Rendered (token :: (tokens ++ [mark])) := by
  have kind := (Token.kind_of_unplaced spells).trans isReturn
  obtain ⟨value', same, valueRendered⟩ := rendered
  refine of_statement (.return_ token (some value')) ?_
    (.node .returnValue (.leaf kind nofun (.cons valueRendered (.leaf ends nofun .nil))) trivial
      rfl)
  rw [Stmt.unplaced, Stmt.unplaced, Option.map_some, Option.map_some, same,
    show token.unplaced = keyword.unplaced from spells]

theorem varPlain {name word : Token} (isVar : word.kind = .var_)
    (spells : Mark.Spells (.kept name) token) (named : name.kind = .name)
    (ends : mark.kind = .semicolon) : (Stmt.var name none).Rendered [word, token, mark] := by
  have kind := (Token.kind_of_unplaced spells).trans named
  have whole : Renders trees (.nonterminal .varDecl) [word, token, mark] () (Stmt.var token none) :=
    .node .varPlain (.leaf isVar nofun (.leaf kind nofun (.leaf ends nofun .nil))) trivial rfl
  refine ⟨.var token none, ?_, .node .ofVar (.last whole) trivial rfl, nofun⟩
  rw [Stmt.unplaced, Stmt.unplaced, show token.unplaced = name.unplaced from spells]

theorem varInit {name word equal : Token} {init : Expr Unit} (isVar : word.kind = .var_)
    (spells : Mark.Spells (.kept name) token) (named : name.kind = .name)
    (isEqual : equal.kind = .equal) (rendered : init.Rendered tokens)
    (ends : mark.kind = .semicolon) :
    (Stmt.var name (some init)).Rendered (word :: token :: equal :: (tokens ++ [mark])) := by
  have kind := (Token.kind_of_unplaced spells).trans named
  obtain ⟨init', same, initRendered⟩ := rendered
  have whole : Renders trees (.nonterminal .varDecl)
      (word :: token :: equal :: (tokens ++ [mark])) () (Stmt.var token (some init')) :=
    .node .varInit (.leaf isVar nofun (.leaf kind nofun (.leaf isEqual nofun
      (.cons initRendered (.leaf ends nofun .nil))))) trivial rfl
  refine ⟨.var token (some init'), ?_, .node .ofVar (.last whole) trivial rfl, nofun⟩
  rw [Stmt.unplaced, Stmt.unplaced, Option.map_some, Option.map_some, same,
    show token.unplaced = name.unplaced from spells]

section Branches

variable {cond : Expr Unit} {yes no : Stmt Unit}

theorem ifThen {word : Token} (isIf : word.kind = .if_) (opens : opening.kind = .parenOpen)
    (condition : cond.Rendered front) (closes : closing.kind = .parenClose)
    (branch : yes.Rendered back) (plain : yes.declared? = none) :
    (Stmt.ifThen cond yes).Rendered (word :: opening :: (front ++ closing :: back)) := by
  obtain ⟨cond', sameCond, condRendered⟩ := condition
  obtain ⟨yes', sameYes, _, yesRendered⟩ := branch
  refine of_statement (.ifThen cond' yes') ?_ (.node .ifThen (.leaf isIf nofun (.leaf opens nofun
    (.cons condRendered (.leaf closes nofun (.last (yesRendered plain)))))) trivial rfl)
  rw [Stmt.unplaced, Stmt.unplaced, sameCond, sameYes]

theorem ifElse {word other : Token} (isIf : word.kind = .if_) (opens : opening.kind = .parenOpen)
    (condition : cond.Rendered front) (closes : closing.kind = .parenClose)
    (branch : yes.Rendered middle) (isElse : other.kind = .else_) (otherwise : no.Rendered back)
    (writable : (Stmt.ifElse cond yes no).Writable) :
    (Stmt.ifElse cond yes no).Rendered
      (word :: opening :: (front ++ closing :: (middle ++ other :: back))) := by
  obtain ⟨plainYes, plainNo, closed⟩ := writable
  obtain ⟨cond', sameCond, condRendered⟩ := condition
  obtain ⟨yes', sameYes, _, yesRendered⟩ := branch
  obtain ⟨no', sameNo, _, noRendered⟩ := otherwise
  refine of_statement (.ifElse cond' yes' no') ?_ (.node .ifElse (.leaf isIf nofun
    (.leaf opens nofun (.cons condRendered (.leaf closes nofun (.cons (yesRendered plainYes)
      (.leaf isElse nofun (.last (noRendered plainNo)))))))) closed rfl)
  rw [Stmt.unplaced, Stmt.unplaced, sameCond, sameYes, sameNo]

theorem while_ {word : Token} (isWhile : word.kind = .while_) (opens : opening.kind = .parenOpen)
    (condition : cond.Rendered front) (closes : closing.kind = .parenClose)
    (branch : yes.Rendered back) (plain : yes.declared? = none) :
    (Stmt.while_ cond yes).Rendered (word :: opening :: (front ++ closing :: back)) := by
  obtain ⟨cond', sameCond, condRendered⟩ := condition
  obtain ⟨yes', sameYes, _, yesRendered⟩ := branch
  refine of_statement (.while_ cond' yes') ?_ (.node .whileLoop (.leaf isWhile nofun
    (.leaf opens nofun (.cons condRendered (.leaf closes nofun (.last (yesRendered plain))))))
    trivial rfl)
  rw [Stmt.unplaced, Stmt.unplaced, sameCond, sameYes]

end Branches

end Stmt.Rendered

/-- The head of a statement with a condition. -/
theorem condition_render {word : Terminal} {cond : Expr Unit} (each : cond.Each Expr.Writable)
    {tokens : List Token} (writes : Writes (conditionWritten word cond) tokens) :
    ∃ (head opening closing : Token) (front : List Token), head.kind = word ∧
      opening.kind = .parenOpen ∧ cond.Rendered front ∧ closing.kind = .parenClose ∧
      tokens = head :: opening :: (front ++ [closing]) := by
  obtain ⟨head, _, isWord, w₁, rfl⟩ := writes.uncons
  obtain ⟨opening, _, opens, w₂, rfl⟩ := w₁.uncons
  obtain ⟨front, _, inside, w₃, rfl⟩ := w₂.split
  obtain ⟨closing, closes, rfl⟩ := w₃.single
  exact ⟨head, opening, closing, front, isWord, opens, cond.renders each front inside, closes, rfl⟩

theorem noStatements_renders : Renders trees (.nonterminal .statements) [] () #[] :=
  .node .noStatements .nil trivial rfl

mutual

/-- **A statement is read back** from the tokens that write it out. -/
theorem Stmt.renders : (stmt : Stmt Unit) → stmt.Each Writable → (tokens : List Token) →
    Writes stmt.written tokens → stmt.Rendered tokens
  | .block body, each, tokens, writes => by
      obtain ⟨opening, _, opens, w₁, rfl⟩ := writes.uncons
      obtain ⟨middle, _, inside, w₂, rfl⟩ := w₁.split
      obtain ⟨closing, closes, rfl⟩ := w₂.single
      exact .block (body_render body each.2 middle inside noStatements_renders) opens closes
  | .function decl, each, tokens, writes => by
      obtain ⟨word, rest, isFun, w₁, rfl⟩ := writes.uncons
      exact .function isFun (decl.renders each.2 rest w₁)
  | .class_ name superclass methods, each, tokens, writes => by
      obtain ⟨word, _, isClass, w₁, rfl⟩ := writes.uncons
      obtain ⟨token, _, spells, w₂, rfl⟩ := w₁.uncons
      obtain ⟨front, _, inherits, w₃, rfl⟩ := w₂.split
      obtain ⟨opening, _, opens, w₄, rfl⟩ := w₃.uncons
      obtain ⟨middle, _, inside, w₅, rfl⟩ := w₄.split
      obtain ⟨closing, closes, rfl⟩ := w₅.single
      have start : Renders trees (.nonterminal .methods) [] () #[] :=
        .node .noMethods .nil trivial rfl
      exact .class_ isClass spells each.1 inherits opens
        (methods_render methods each.2 middle inside start) closes
  | .expression value, each, tokens, writes => by
      obtain ⟨front, _, inside, w₁, rfl⟩ := writes.split
      obtain ⟨mark, ends, rfl⟩ := w₁.single
      exact .expression (value.renders each.2 front inside) ends
  | .ifThen cond yes, each, tokens, writes => by
      obtain ⟨head, back, first, second, rfl⟩ := writes.split
      obtain ⟨word, opening, closing, front, isIf, opens, condition, closes, rfl⟩ :=
        condition_render each.2.1 first
      have whole := Stmt.Rendered.ifThen isIf opens condition closes
        (yes.renders each.2.2 back second) each.1
      simpa using whole
  | .ifElse cond yes no, each, tokens, writes => by
      obtain ⟨head, _, first, w₁, rfl⟩ := writes.split
      obtain ⟨word, opening, closing, front, isIf, opens, condition, closes, rfl⟩ :=
        condition_render each.2.1 first
      obtain ⟨middle, _, second, w₂, rfl⟩ := w₁.split
      obtain ⟨other, back, isElse, third, rfl⟩ := w₂.uncons
      have whole := Stmt.Rendered.ifElse isIf opens condition closes
        (yes.renders each.2.2.1 middle second) isElse (no.renders each.2.2.2 back third) each.1
      simpa using whole
  | .print keyword value, each, tokens, writes => by
      obtain ⟨token, _, spells, w₁, rfl⟩ := writes.uncons
      obtain ⟨front, _, inside, w₂, rfl⟩ := w₁.split
      obtain ⟨mark, ends, rfl⟩ := w₂.single
      exact .print spells each.1 (value.renders each.2 front inside) ends
  | .return_ keyword none, each, tokens, writes => by
      obtain ⟨token, _, spells, w₁, rfl⟩ := writes.uncons
      obtain ⟨mark, ends, rfl⟩ := w₁.single
      exact .returnNothing spells each.1 ends
  | .return_ keyword (some value), each, tokens, writes => by
      obtain ⟨token, _, spells, w₁, rfl⟩ := writes.uncons
      obtain ⟨front, _, inside, w₂, rfl⟩ := w₁.split
      obtain ⟨mark, ends, rfl⟩ := w₂.single
      exact .returnValue spells each.1 (value.renders (each.2 value rfl) front inside) ends
  | .var name none, each, tokens, writes => by
      obtain ⟨word, _, isVar, w₁, rfl⟩ := writes.uncons
      obtain ⟨token, _, spells, w₂, rfl⟩ := w₁.uncons
      obtain ⟨mark, ends, rfl⟩ := w₂.single
      exact .varPlain isVar spells each.1 ends
  | .var name (some init), each, tokens, writes => by
      obtain ⟨word, _, isVar, w₁, rfl⟩ := writes.uncons
      obtain ⟨token, _, spells, w₂, rfl⟩ := w₁.uncons
      obtain ⟨equal, _, isEqual, w₃, rfl⟩ := w₂.uncons
      obtain ⟨front, _, inside, w₄, rfl⟩ := w₃.split
      obtain ⟨mark, ends, rfl⟩ := w₄.single
      exact .varInit isVar spells each.1 isEqual (init.renders (each.2 init rfl) front inside) ends
  | .while_ cond body, each, tokens, writes => by
      obtain ⟨head, back, first, second, rfl⟩ := writes.split
      obtain ⟨word, opening, closing, front, isWhile, opens, condition, closes, rfl⟩ :=
        condition_render each.2.1 first
      have whole := Stmt.Rendered.while_ isWhile opens condition closes
        (body.renders each.2.2 back second) each.1
      simpa using whole

theorem body_render : (body : List (Stmt Unit)) → eachIn Writable body → (tokens : List Token) →
    Writes (bodyWritten body) tokens → {before : List Token} → {front : Array (Stmt Unit)} →
    Renders trees (.nonterminal .statements) before () front →
    ∃ all : Array (Stmt Unit), all.toList.map Stmt.unplaced =
        front.toList.map Stmt.unplaced ++ body.map Stmt.unplaced ∧
      Renders trees (.nonterminal .statements) (before ++ tokens) () all
  | [], _, tokens, writes, before, front, rendered => by
      rw [List.forall₂_nil_left_iff.mp writes, List.append_nil]
      exact ⟨front, by simp, rendered⟩
  | stmt :: more, each, tokens, writes, before, front, rendered => by
      obtain ⟨middle, back, first, w₁, rfl⟩ := writes.split
      obtain ⟨stmt', same, stmtRendered, _⟩ := stmt.renders each.1 middle first
      have next :
          Renders trees (.nonterminal .statements) (before ++ middle) () (front.push stmt') :=
        .node .moreStatements (.cons rendered (.last stmtRendered)) trivial rfl
      obtain ⟨all, sameAll, whole⟩ := body_render more each.2 back w₁ next
      refine ⟨all, ?_, ?_⟩
      · simp [sameAll, same]
      · rwa [List.append_assoc] at whole

theorem Function.renders : (decl : Function Unit) → decl.Each Writable → (tokens : List Token) →
    Writes decl.written tokens → decl.Rendered tokens
  | .mk name params body, each, tokens, writes => by
      obtain ⟨token, _, spells, w₁, rfl⟩ := writes.uncons
      obtain ⟨opening, _, opens, w₂, rfl⟩ := w₁.uncons
      obtain ⟨front, _, listed, w₃, rfl⟩ := w₂.split
      obtain ⟨closing, _, closes, w₄, rfl⟩ := w₃.uncons
      obtain ⟨start, _, starts, w₅, rfl⟩ := w₄.uncons
      obtain ⟨middle, _, inside, w₆, rfl⟩ := w₅.split
      obtain ⟨stop, stops, rfl⟩ := w₆.single
      exact .mk each.1 spells opens listed closes starts
        (body_render body each.2 middle inside noStatements_renders) stops

theorem methods_render : (methods : List (Function Unit)) → eachMethod Writable methods →
    (tokens : List Token) → Writes (methodsWritten methods) tokens → {before : List Token} →
    {front : Array (Function Unit)} → Renders trees (.nonterminal .methods) before () front →
    ∃ all : Array (Function Unit), all.toList.map Function.unplaced =
        front.toList.map Function.unplaced ++ methods.map Function.unplaced ∧
      Renders trees (.nonterminal .methods) (before ++ tokens) () all
  | [], _, tokens, writes, before, front, rendered => by
      rw [List.forall₂_nil_left_iff.mp writes, List.append_nil]
      exact ⟨front, by simp, rendered⟩
  | method :: more, each, tokens, writes, before, front, rendered => by
      obtain ⟨middle, back, first, w₁, rfl⟩ := writes.split
      obtain ⟨method', same, methodRendered⟩ := method.renders each.1 middle first
      have next :
          Renders trees (.nonterminal .methods) (before ++ middle) () (front.push method') :=
        .node .moreMethods (.cons rendered (.last methodRendered)) trivial rfl
      obtain ⟨all, sameAll, whole⟩ := methods_render more each.2 back w₁ next
      refine ⟨all, ?_, ?_⟩
      · simp [sameAll, same]
      · rwa [List.append_assoc] at whole

end

/-! ### Programs -/

/-- A program is read back from the tokens that write it out. -/
theorem readProgram_written {tree : List (Stmt Unit)} (writable : eachIn Writable tree)
    {tokens : List Token} (writes : Writes (programWritten tree) tokens) :
    ∃ again : List (Stmt Unit), readProgram trees (tokens.map (Feed.mk [])) = (some again, []) ∧
      again.map Stmt.unplaced = tree.map Stmt.unplaced := by
  obtain ⟨front, _, inside, w₁, rfl⟩ := writes.split
  obtain ⟨closing, closes, rfl⟩ := w₁.single
  obtain ⟨body, same, rendered⟩ := body_render tree writable front inside noStatements_renders
  have whole : Renders trees (.nonterminal .program) front () body.toList :=
    .node .program (.last rendered) trivial rfl
  exact ⟨body.toList, readProgram_of_reads (whole.reads closes), same⟩

theorem feedFrom_tokens_only (tokens : List Token) :
    feedFrom [] (tokens.map Scanned.token) = tokens.map (Feed.mk []) := by
  induction tokens with
  | nil => rfl
  | cons token more ih => rw [List.map_cons, feedFrom, ih, List.map_cons]

/-- **Reading back.** A tree that respects precedence is written out and read: there is nothing to
complain about, and up to lines and offsets it is the same tree. This holds of the tokens, whatever
text they come from, and of every text that is scanned into them. -/
theorem reads_back {tree : List (Stmt Unit)} (writable : eachIn Writable tree)
    {tokens : List Token} (writes : Writes (programWritten tree) tokens) :
    ∃ again : List (Stmt Unit), bodyUnplaced again = bodyUnplaced tree ∧
      readProgram trees (tokens.map (Feed.mk [])) = (some again, []) ∧
      ∀ (report : Report) (text : String), scan text = tokens.map Scanned.token →
        (report.parseText text).1.issues = report.issues ∧
        (report.parseText text).2 = some again := by
  obtain ⟨again, read, same⟩ := readProgram_written writable writes
  refine ⟨again, by rw [bodyUnplaced_eq, bodyUnplaced_eq, same], read,
    fun report text scanned => ?_⟩
  have parsed : parse text = ⟨again, []⟩ := by
    unfold parse feed
    rw [scanned, feedFrom_tokens_only, read]
    rfl
  rw [Report.parseText_conclude, parsed]
  exact ⟨rfl, rfl⟩

theorem reads_back_branches :
    let token (kind : Terminal) (lexeme : String) (offset : Nat) : Token :=
      ⟨kind, lexeme, .nil, 1, offset⟩
    let name (lexeme : String) (offset : Nat) : Expr Unit :=
      .var ⟨token .name lexeme offset, ()⟩
    let tree : List (Stmt Unit) :=
      [.ifElse (name "a" 4)
        (.while_ (name "b" 14) (.expression (.set (name "x" 17) (token .name "y" 19)
          (.binary (.unary .negative (token .minus "-" 23) (name "c" 24)) .times
            (token .star "*" 26) (name "d" 28)))))
        (.expression (.call (name "f" 36) (token .parenClose ")" 39) [name "g" 38]))]
    let tokens := tokensOf (scan "if (a) while (b) x.y = -c * d; else f(g);")
    eachIn Writable tree ∧ Writes (programWritten tree) tokens ∧
    ∃ again : List (Stmt Unit), bodyUnplaced again = bodyUnplaced tree ∧
      readProgram trees (tokens.map (Feed.mk [])) = (some again, []) ∧
      ∀ (report : Report) (text : String), scan text = tokens.map Scanned.token →
        (report.parseText text).1.issues = report.issues ∧
        (report.parseText text).2 = some again := by
  intro token name tree tokens
  have product : Operator.Joins (.compute .times)
      (.unary .negative (token .minus "-" 23) (name "c" 24)) (token .star "*" 26) (name "d" 28) :=
    ⟨rfl, by decide, by decide⟩
  have writable : eachIn Writable tree := by
    refine ⟨⟨⟨rfl, rfl, rfl⟩, rfl, ⟨rfl, rfl, trivial, ⟨⟨by decide, rfl⟩, rfl, product, ?_, rfl⟩⟩,
      trivial, ⟨by decide, rfl, by decide⟩, rfl, rfl, trivial⟩, trivial⟩
    exact ⟨⟨rfl, by decide⟩, rfl⟩
  have writes : Writes (programWritten tree) tokens := by decide +kernel
  exact ⟨writable, writes, reads_back writable writes⟩

end Lox
