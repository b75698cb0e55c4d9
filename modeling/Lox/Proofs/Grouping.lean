/-
**Grouping.** What can be derived at all can be derived with operators grouped by how tightly they
bind, and with every `else` at the nearest `if`.

* `Chain` is an expression as a chain of operators around what binds tightest. `Chain.attach` puts
  an operand behind a chain, `Chain.join` joins two chains by an operator, whatever their levels,
  and `Chain.sign` puts a unary operator in front.
* `Branching` is a statement with the conditions that it ends in; `Branching.otherwise` gives an
  `else` to the last of them that is open.
* `Derivation.regroups` goes along a derivation, rule by rule: every derivation has a grouped one
  that reads the same tokens (`Regroups.renders`).
-/

import Lox.Proofs.Rendering

namespace Lox

open Operator (unaryLevel postfixLevel)

/-! ### Expressions -/

/-- An expression as a chain of operators, grouped by how tightly they bind. -/
inductive Chain : Nat → List Token → Prop
  | single {tokens : List Token}
      (rendered : Renders .shape (.nonterminal .expr) tokens postfixLevel ()) :
      Chain postfixLevel tokens
  | unary (s : Sign) {token : Token} {tokens : List Token} {level : Nat}
      (kind : token.kind = s.terminal) (operand : Chain level tokens)
      (tight : unaryLevel ≤ level) : Chain unaryLevel (token :: tokens)
  | binary (op : Operator) {token : Token} {front back : List Token} {first second : Nat}
      (left : Chain first front) (kind : token.kind = op.terminal) (right : Chain second back)
      (leftTight : op.leftLevel ≤ first) (rightTight : op.rightLevel ≤ second) :
      Chain op.level (front ++ token :: back)

namespace Chain

variable {level first second : Nat} {tokens front back : List Token} {token : Token}

theorem renders (chain : Chain level tokens) :
    Renders .shape (.nonterminal .expr) tokens level () := by
  induction chain with
  | single rendered => exact rendered
  | unary s kind _ tight ih =>
      have inside : s.terminal ≠ .gap := by cases s <;> nofun
      exact .node (.unary s) (.leaf kind inside (.last ih)) tight rfl
  | binary op _ kind _ leftTight rightTight left right =>
      exact .binary op left kind right leftTight rightTight rfl

/-- What continues an expression that binds tightest continues the last operand of a chain. -/
theorem extend {rest : List Token}
    (wraps : ∀ tokens, Renders .shape (.nonterminal .expr) tokens postfixLevel () →
      Renders .shape (.nonterminal .expr) (tokens ++ rest) postfixLevel ())
    (chain : Chain level tokens) : Chain level (tokens ++ rest) := by
  induction chain with
  | single rendered => exact .single (wraps _ rendered)
  | unary s kind _ tight ih => exact .unary s kind ih tight
  | binary op left kind _ leftTight rightTight _ ih =>
      rw [List.append_assoc, List.cons_append]
      exact .binary op left kind ih leftTight rightTight

/-- **An operand behind a chain.** The operator goes as far to the left as it binds tighter. -/
theorem attach (op : Operator) (left : Chain first front) (kind : token.kind = op.terminal)
    (right : Chain second back) (tight : op.rightLevel ≤ second) :
    ∃ level, min first op.level ≤ level ∧ Chain level (front ++ token :: back) := by
  induction left with
  | single rendered =>
      have loose : op.leftLevel ≤ postfixLevel :=
        Nat.le_trans op.leftLevel_le_unaryLevel (by decide)
      exact ⟨op.level, Nat.min_le_right _ _, .binary op (.single rendered) kind right loose tight⟩
  | unary s signed operand tightOperand _ =>
      exact ⟨op.level, Nat.min_le_right _ _,
        .binary op (.unary s signed operand tightOperand) kind right op.leftLevel_le_unaryLevel
          tight⟩
  | binary before left named middle leftTight rightTight _ ih =>
      by_cases loose : op.leftLevel ≤ before.level
      · exact ⟨op.level, Nat.min_le_right _ _,
          .binary op (.binary before left named middle leftTight rightTight) kind right loose tight⟩
      · obtain ⟨inner, above, chain⟩ := ih
        have asked : before.rightLevel ≤ op.level :=
          Operator.rightLevel_le_level (Nat.lt_of_not_le loose)
        have grouped : before.rightLevel ≤ inner :=
          Nat.le_trans (Nat.le_min.mpr ⟨rightTight, asked⟩) above
        refine ⟨before.level, Nat.min_le_left _ _, ?_⟩
        rw [List.append_assoc, List.cons_append]
        exact .binary before left named chain leftTight grouped

/-- **Two chains with an operator between them.** What binds looser in the right one is put behind
all that stands in front of it. -/
theorem join (op : Operator) (left : Chain first front) (kind : token.kind = op.terminal)
    (right : Chain second back) : ∃ level, Chain level (front ++ token :: back) := by
  induction right with
  | single rendered =>
      have tight : op.rightLevel ≤ postfixLevel :=
        Nat.le_trans op.rightLevel_le_unaryLevel (by decide)
      obtain ⟨level, _, chain⟩ := attach op left kind (.single rendered) tight
      exact ⟨level, chain⟩
  | unary s signed operand tightOperand _ =>
      obtain ⟨level, _, chain⟩ :=
        attach op left kind (.unary s signed operand tightOperand) op.rightLevel_le_unaryLevel
      exact ⟨level, chain⟩
  | binary behind middle named right leftTight rightTight ih _ =>
      by_cases tight : op.rightLevel ≤ behind.level
      · obtain ⟨level, _, chain⟩ :=
          attach op left kind (.binary behind middle named right leftTight rightTight) tight
        exact ⟨level, chain⟩
      · obtain ⟨_, joined⟩ := ih
        obtain ⟨level, _, chain⟩ := attach behind joined named right rightTight
        rw [List.append_assoc, List.cons_append] at chain
        exact ⟨level, chain⟩

/-- **A unary operator in front of a chain** takes the first operand. -/
theorem sign (s : Sign) (kind : token.kind = s.terminal) (chain : Chain level tokens) :
    ∃ whole, min level unaryLevel ≤ whole ∧ Chain whole (token :: tokens) := by
  induction chain with
  | single rendered =>
      exact ⟨unaryLevel, Nat.min_le_right _ _, .unary s kind (.single rendered) (by decide)⟩
  | unary inner signed operand tight _ =>
      exact ⟨unaryLevel, Nat.min_le_right _ _,
        .unary s kind (.unary inner signed operand tight) (Nat.le_refl _)⟩
  | binary op left named right leftTight rightTight ih _ =>
      obtain ⟨inner, above, signed⟩ := ih
      have grouped : op.leftLevel ≤ inner :=
        Nat.le_trans (Nat.le_min.mpr ⟨leftTight, op.leftLevel_le_unaryLevel⟩) above
      exact ⟨op.level, Nat.min_le_left _ _, .binary op signed named right grouped rightTight⟩

/-- A call takes what binds tightest at the end of a chain. -/
theorem call {opening closing : Token} {args : List Token}
    {grade : Grade (.nonterminal .argumentsOpt)} (chain : Chain level tokens)
    (opens : opening.kind = .parenOpen)
    (given : Renders .shape (.nonterminal .argumentsOpt) args grade ())
    (closes : closing.kind = .parenClose) :
    Chain level (tokens ++ opening :: (args ++ [closing])) :=
  chain.extend fun _ rendered => .node .call (.cons rendered (.leaf opens nofun (.cons given
    (.leaf closes nofun .nil)))) (Nat.le_refl _) rfl

/-- So does the access to a property. -/
theorem get {mark name : Token} (chain : Chain level tokens) (isDot : mark.kind = .dot)
    (named : name.kind = .name) : Chain level (tokens ++ [mark, name]) :=
  chain.extend fun _ rendered => .node .get (.cons rendered (.leaf isDot nofun
    (.leaf named nofun .nil))) (Nat.le_refl _) rfl

end Chain

/-! ### Statements -/

/-- The head of a statement with a condition. -/
def IfHead (head : List Token) : Prop :=
  ∃ (word opening closing : Token) (cond : List Token) (level : Nat), word.kind = .if_ ∧
    opening.kind = .parenOpen ∧ Renders .shape (.nonterminal .expr) cond level () ∧
    closing.kind = .parenClose ∧ head = word :: opening :: (cond ++ [closing])

namespace IfHead

variable {head tokens back : List Token} {isOpen : Bool}

theorem ifThen (heads : IfHead head)
    (yes : Renders .shape (.nonterminal .statement) tokens isOpen ()) :
    Renders .shape (.nonterminal .statement) (head ++ tokens) true () := by
  obtain ⟨word, opening, closing, cond, level, isIf, opens, condition, closes, rfl⟩ := heads
  have whole : Renders .shape (.nonterminal .statement)
      (word :: opening :: (cond ++ closing :: tokens)) true () :=
    .node .ifThen (.leaf isIf nofun (.leaf opens nofun (.cons condition
      (.leaf closes nofun (.last yes))))) trivial rfl
  rwa [List.cons_append, List.cons_append, List.append_assoc]

theorem ifElse (heads : IfHead head)
    (yes : Renders .shape (.nonterminal .statement) tokens false ()) {token : Token}
    (isElse : token.kind = .else_) (no : Renders .shape (.nonterminal .statement) back isOpen ()) :
    Renders .shape (.nonterminal .statement) (head ++ (tokens ++ token :: back)) isOpen () := by
  obtain ⟨word, opening, closing, cond, level, isIf, opens, condition, closes, rfl⟩ := heads
  have whole : Renders .shape (.nonterminal .statement)
      (word :: opening :: (cond ++ closing :: (tokens ++ token :: back))) isOpen () :=
    .node .ifElse (.leaf isIf nofun (.leaf opens nofun (.cons condition (.leaf closes nofun
      (.cons yes (.leaf isElse nofun (.last no))))))) rfl rfl
  rwa [List.cons_append, List.cons_append, List.append_assoc]

end IfHead

/-- A statement with the conditions and loops that it ends in. The flag says whether it could still
take an `else`. -/
inductive Branching : Bool → List Token → Prop
  | closed {tokens : List Token}
      (rendered : Renders .shape (.nonterminal .statement) tokens false ()) :
      Branching false tokens
  | ifThen {head tokens : List Token} {isOpen : Bool} (heads : IfHead head)
      (yes : Branching isOpen tokens) : Branching true (head ++ tokens)
  | behind {head tokens : List Token} {isOpen : Bool}
      (wraps : ∀ tokens isOpen, Renders .shape (.nonterminal .statement) tokens isOpen () →
        Renders .shape (.nonterminal .statement) (head ++ tokens) isOpen ())
      (last : Branching isOpen tokens) : Branching isOpen (head ++ tokens)

namespace Branching

variable {isOpen flag : Bool} {tokens head back : List Token} {token : Token}

theorem renders (stmt : Branching isOpen tokens) :
    Renders .shape (.nonterminal .statement) tokens isOpen () := by
  induction stmt with
  | closed rendered => exact rendered
  | ifThen heads _ ih => exact heads.ifThen ih
  | behind wraps _ ih => exact wraps _ _ ih

/-- A condition with an `else` behind a statement that could not take it. -/
theorem ifElse (heads : IfHead head) (yes : Branching false tokens) (isElse : token.kind = .else_)
    (no : Branching flag back) : Branching flag (head ++ (tokens ++ token :: back)) := by
  have wraps : ∀ rest isOpen, Renders .shape (.nonterminal .statement) rest isOpen () →
      Renders .shape (.nonterminal .statement) ((head ++ (tokens ++ [token])) ++ rest) isOpen
        () := by
    intro rest isOpen rendered
    have whole := heads.ifElse yes.renders isElse rendered
    simpa using whole
  have stmt := Branching.behind wraps no
  simpa using stmt

/-- **An `else` behind a statement that could take one** goes to the last condition that is open. -/
theorem otherwise (stmt : Branching isOpen tokens) (couldTake : isOpen = true)
    (isElse : token.kind = .else_) (no : Branching flag back) :
    ∃ flag', Branching flag' (tokens ++ token :: back) := by
  induction stmt with
  | closed => cases couldTake
  | @ifThen head tokens inner heads yes ih =>
      rw [List.append_assoc]
      cases inner with
      | true =>
          obtain ⟨_, branch⟩ := ih rfl
          exact ⟨true, .ifThen heads branch⟩
      | false => exact ⟨flag, ifElse heads yes isElse no⟩
  | behind wraps _ ih =>
      obtain ⟨flag', branch⟩ := ih couldTake
      rw [List.append_assoc]
      exact ⟨flag', .behind wraps branch⟩

/-- A condition with an `else` behind any statement. -/
theorem either (yes : Branching isOpen tokens) (heads : IfHead head) (isElse : token.kind = .else_)
    (no : Branching flag back) : ∃ flag', Branching flag' (head ++ (tokens ++ token :: back)) := by
  cases isOpen with
  | true =>
      obtain ⟨_, inner⟩ := yes.otherwise rfl isElse no
      exact ⟨true, .ifThen heads inner⟩
  | false => exact ⟨flag, ifElse heads yes isElse no⟩

theorem whileLoop {word opening closing : Token} {cond : List Token} {level : Nat}
    (body : Branching isOpen tokens) (isWhile : word.kind = .while_)
    (opens : opening.kind = .parenOpen)
    (condition : Renders .shape (.nonterminal .expr) cond level ())
    (closes : closing.kind = .parenClose) :
    Branching isOpen ((word :: opening :: (cond ++ [closing])) ++ tokens) := by
  refine .behind (fun rest isOpen rendered => ?_) body
  have loop : Renders .shape (.nonterminal .statement)
      (word :: opening :: (cond ++ closing :: rest)) isOpen () :=
    .node .whileLoop (.leaf isWhile nofun (.leaf opens nofun (.cons condition
      (.leaf closes nofun (.last rendered))))) trivial rfl
  simpa using loop

theorem forLoop {word opening : Token} {init cond step : List Token}
    {first : Grade (.nonterminal .forInit)} {second : Grade (.nonterminal .forCond)}
    {third : Grade (.nonterminal .forStep)} (body : Branching isOpen tokens)
    (isFor : word.kind = .for_) (opens : opening.kind = .parenOpen)
    (begins : Renders .shape (.nonterminal .forInit) init first ())
    (condition : Renders .shape (.nonterminal .forCond) cond second ())
    (steps : Renders .shape (.nonterminal .forStep) step third ()) :
    Branching isOpen ((word :: opening :: (init ++ (cond ++ step))) ++ tokens) := by
  refine .behind (fun rest isOpen rendered => ?_) body
  have loop : Renders .shape (.nonterminal .statement)
      (word :: opening :: (init ++ (cond ++ (step ++ rest)))) isOpen () :=
    .node .forLoop (.leaf isFor nofun (.leaf opens nofun (.cons begins (.cons condition
      (.cons steps (.last rendered)))))) trivial rfl
  simpa using loop

end Branching

/-! ### Derivations -/

/-- Tokens can be read as a symbol with operators grouped by how tightly they bind. -/
def Regroups : (symbol : Symbol) → List Token → Prop
  | .nonterminal .expr, tokens => ∃ level, Chain level tokens
  | .nonterminal .statement, tokens => ∃ isOpen, Branching isOpen tokens
  | symbol, tokens => ∃ grade : Grade symbol, Renders .shape symbol tokens grade ()

theorem Regroups.renders {symbol : Symbol} {tokens : List Token}
    (regroups : Regroups symbol tokens) :
    ∃ grade : Grade symbol, Renders .shape symbol tokens grade () := by
  match symbol, regroups with
  | .nonterminal .expr, ⟨level, chain⟩ => exact ⟨level, chain.renders⟩
  | .nonterminal .statement, ⟨isOpen, stmt⟩ => exact ⟨isOpen, stmt.renders⟩
  | .terminal _, rendered => exact rendered
  | .nonterminal .program, rendered | .nonterminal .statements, rendered
  | .nonterminal .declaration, rendered | .nonterminal .classDecl, rendered
  | .nonterminal .superclass, rendered | .nonterminal .methods, rendered
  | .nonterminal .funDecl, rendered | .nonterminal .function, rendered
  | .nonterminal .params, rendered | .nonterminal .paramList, rendered
  | .nonterminal .varDecl, rendered | .nonterminal .block, rendered
  | .nonterminal .forInit, rendered | .nonterminal .forCond, rendered
  | .nonterminal .forStep, rendered | .nonterminal .argumentsOpt, rendered
  | .nonterminal .arguments, rendered => exact rendered

/-- The parts of a phrase can be regrouped. -/
abbrev Derivations.Regroup {shape : List Symbol} (parts : Derivations shape) : Prop :=
  parts.All fun symbol derivation => Regroups symbol derivation.yield

theorem Derivations.Regroup.renders : {shape : List Symbol} → (parts : Derivations shape) →
    parts.Regroup → ∃ graded values, RendersAll .shape shape parts.yield graded values
  | _, .nil, _ => ⟨(), (), .nil⟩
  | _, .cons first rest, regroup => by
      obtain ⟨one, others⟩ := regroup
      obtain ⟨grade, rendered⟩ := one.renders
      obtain ⟨graded, values, all⟩ := Derivations.Regroup.renders rest others
      exact ⟨(grade, graded), ((), values), .cons rendered all⟩

theorem Derivation.yield_of_fits {kind : Terminal} {token : Token} (fits : kind.Fits token) :
    (Derivation.leaf kind token).yield = [token] := by
  rw [Derivation.yield, if_neg fits.2]

/-- The head of a statement with a condition, as derivations give it. -/
theorem IfHead.of_parts {word opening closing : Token} {cond : Derivation (.nonterminal .expr)}
    (isIf : Terminal.Fits .if_ word) (opens : Terminal.Fits .parenOpen opening)
    (regroups : Regroups (.nonterminal .expr) cond.yield)
    (closes : Terminal.Fits .parenClose closing) :
    IfHead (word :: opening :: (cond.yield ++ [closing])) := by
  obtain ⟨level, chain⟩ := regroups
  exact ⟨word, opening, closing, cond.yield, level, isIf.1, opens.1, chain.renders, closes.1, rfl⟩

/-- **What a rule makes of parts that can be regrouped can be regrouped.** -/
theorem Rule.regroups (rule : Rule) (parts : Derivations rule.rhs) (lawful : parts.Lawful)
    (regroup : parts.Regroup) : Regroups (.nonterminal rule.lhs) parts.yield := by
  obtain ⟨graded, values, all⟩ := Derivations.Regroup.renders parts regroup
  cases rule with
  | binary op =>
      rcases parts with _ | ⟨left, _ | ⟨⟨_, sign⟩ | _, _ | ⟨right, _ | _⟩⟩⟩
      obtain ⟨_, fits, _⟩ := lawful
      obtain ⟨⟨_, first⟩, _, ⟨_, second⟩, _⟩ := regroup
      obtain ⟨level, chain⟩ := first.join op fits.1 second
      refine ⟨level, ?_⟩
      simpa [Derivations.yield, Derivation.yield_of_fits fits] using chain
  | unary s =>
      rcases parts with _ | ⟨⟨_, sign⟩ | _, _ | ⟨operand, _ | _⟩⟩
      obtain ⟨fits, _⟩ := lawful
      obtain ⟨_, ⟨_, inner⟩, _⟩ := regroup
      obtain ⟨level, _, chain⟩ := inner.sign s fits.1
      refine ⟨level, ?_⟩
      simpa [Derivations.yield, Derivation.yield_of_fits fits] using chain
  | call =>
      rcases parts with
        _ | ⟨callee, _ | ⟨⟨_, opening⟩ | _, _ | ⟨args, _ | ⟨⟨_, closing⟩ | _, _ | _⟩⟩⟩⟩
      obtain ⟨_, opens, _, closes, _⟩ := lawful
      obtain ⟨⟨level, chain⟩, _, ⟨_, given⟩, _⟩ := regroup
      refine ⟨level, ?_⟩
      simpa [Derivations.yield, Derivation.yield] using chain.call opens.1 given closes.1
  | get =>
      rcases parts with _ | ⟨object, _ | ⟨⟨_, mark⟩ | _, _ | ⟨⟨_, name⟩ | _, _ | _⟩⟩⟩
      obtain ⟨_, isDot, named, _⟩ := lawful
      obtain ⟨⟨level, chain⟩, _⟩ := regroup
      refine ⟨level, ?_⟩
      simpa [Derivations.yield, Derivation.yield] using chain.get isDot.1 named.1
  | ifThen =>
      rcases parts with _ | ⟨⟨_, word⟩ | _, _ | ⟨⟨_, opening⟩ | _, _ | ⟨cond,
        _ | ⟨⟨_, closing⟩ | _, _ | ⟨yes, _ | _⟩⟩⟩⟩⟩
      obtain ⟨isIf, opens, _, closes, _⟩ := lawful
      obtain ⟨_, _, condition, _, ⟨_, branch⟩, _⟩ := regroup
      have stmt := Branching.ifThen (.of_parts isIf opens condition closes) branch
      refine ⟨true, ?_⟩
      simpa [Derivations.yield, Derivation.yield] using stmt
  | ifElse =>
      rcases parts with _ | ⟨⟨_, word⟩ | _, _ | ⟨⟨_, opening⟩ | _, _ | ⟨cond,
        _ | ⟨⟨_, closing⟩ | _, _ | ⟨yes, _ | ⟨⟨_, other⟩ | _, _ | ⟨no, _ | _⟩⟩⟩⟩⟩⟩⟩
      obtain ⟨isIf, opens, _, closes, _, isElse, _⟩ := lawful
      obtain ⟨_, _, condition, _, ⟨_, branch⟩, _, ⟨_, otherwise⟩, _⟩ := regroup
      obtain ⟨isOpen, stmt⟩ :=
        branch.either (.of_parts isIf opens condition closes) isElse.1 otherwise
      refine ⟨isOpen, ?_⟩
      simpa [Derivations.yield, Derivation.yield] using stmt
  | whileLoop =>
      rcases parts with _ | ⟨⟨_, word⟩ | _, _ | ⟨⟨_, opening⟩ | _, _ | ⟨cond,
        _ | ⟨⟨_, closing⟩ | _, _ | ⟨body, _ | _⟩⟩⟩⟩⟩
      obtain ⟨isWhile, opens, _, closes, _⟩ := lawful
      obtain ⟨_, _, ⟨_, condition⟩, _, ⟨isOpen, branch⟩, _⟩ := regroup
      have stmt := branch.whileLoop isWhile.1 opens.1 condition.renders closes.1
      refine ⟨isOpen, ?_⟩
      simpa [Derivations.yield, Derivation.yield] using stmt
  | forLoop =>
      rcases parts with _ | ⟨⟨_, word⟩ | _, _ | ⟨⟨_, opening⟩ | _, _ | ⟨init, _ | ⟨cond,
        _ | ⟨step, _ | ⟨body, _ | _⟩⟩⟩⟩⟩⟩
      obtain ⟨isFor, opens, _⟩ := lawful
      obtain ⟨_, _, ⟨_, first⟩, ⟨_, second⟩, ⟨_, third⟩, ⟨isOpen, branch⟩, _⟩ := regroup
      have stmt := branch.forLoop isFor.1 opens.1 first second third
      refine ⟨isOpen, ?_⟩
      simpa [Derivations.yield, Derivation.yield] using stmt
  | grouping | variable_ | number | string | true_ | false_ | nil_ | this | super =>
      exact ⟨postfixLevel, .single (.node _ all trivial rfl)⟩
  | expression | print | returnNothing | returnValue | ofBlock =>
      exact ⟨false, .closed (.node _ all trivial rfl)⟩
  | program | noStatements | moreStatements | ofClass | ofFun | ofVar | ofStatement | skipped
  | classDecl | noSuperclass | superclass | noMethods | moreMethods | funDecl | function | noParams
  | someParams | firstParam | moreParams | varPlain | varInit | block | noInit | initVar | initExpr
  | noCond | someCond | noStep | someStep | noArguments | someArguments | firstArgument
  | moreArguments => exact ⟨_, .node _ all trivial rfl⟩

mutual

/-- **Every derivation can be regrouped.** -/
theorem Derivation.regroups : {symbol : Symbol} → (derivation : Derivation symbol) →
    derivation.Lawful → Regroups symbol derivation.yield
  | _, .leaf kind token, fits =>
    ⟨(), .leaf kind token, fits, trivial, rfl, rfl, rfl⟩
  | _, .node rule parts, lawful =>
    rule.regroups parts lawful.2 (Derivations.regroup parts lawful.2)

theorem Derivations.regroup : {shape : List Symbol} → (parts : Derivations shape) →
    parts.Lawful → parts.Regroup
  | _, .nil, _ => trivial
  | _, .cons first rest, lawful =>
    ⟨Derivation.regroups first lawful.1, Derivations.regroup rest lawful.2⟩

end

end Lox
