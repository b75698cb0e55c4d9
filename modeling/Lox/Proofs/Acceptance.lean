/-
**Acceptance.** The automaton reads whatever has a grouped derivation, and makes its value.

* `Rule.Ready` says that what a rule makes of phrases that can be read can be read; there is one
  lemma for every rule, and `Rule.ready` gathers them.
* `Derivation.ready` is the induction, and `Stack.Reads.of_grouped` the result: the tokens of a
  grouped derivation are read into its value.
-/

import Lox.Proofs.Welcome

namespace Lox

variable {M : Symbol → Type} {σ : Semantics M}

/-! ### Rules -/

/-- What a rule makes of phrases that can be read can be read. -/
def Rule.Ready (σ : Semantics M) (rule : Rule) : Prop :=
  ∀ parts : Derivations rule.rhs, (Derivation.node rule parts).Grouped →
    parts.All (Derivation.Ready σ) → σ.objections rule (parts.values σ) = [] →
    (Derivation.node rule parts).Ready σ

theorem Derivations.yield_leaf {kind : Terminal} {token : Token} (fits : kind.Fits token)
    {shape : List Symbol} (rest : Derivations shape) (next : List Token) :
    (Derivations.cons (.leaf kind token) rest).yield ++ next = token :: (rest.yield ++ next) := by
  rw [Derivations.yield, Derivation.yield, if_neg fits.2]
  rfl

namespace Rule.Ready

variable {stack : Stack M} {ending : Ending}

theorem binary (op : Operator) : Rule.Ready σ (.binary op) := by
  intro
  | .cons left (.cons (.leaf _ sign) (.cons right .nil)), ⟨⟨leftTight, rightTight⟩, _, fits, _⟩,
    ⟨leftReady, _, rightReady, _⟩, quiet =>
    rintro stack target token more leads ⟨ending, awaits, tight, bounds⟩
    have known := State.ofTerminal?_terminal op
    have inner : op.terminal ≠ .eof := by
      intro same
      rw [same] at known
      cases known
    have ends : State.action (.operand ending op) token.kind = some (.reduce (.binary op)) :=
      State.afterOperand_of_bounds bounds
    have operator : ending.Bounds left.level sign.kind :=
      Or.inr (Or.inl ⟨op, by rw [fits.1, known], leftTight⟩)
    have leftAsked : stack.state.asked ≤ left.level :=
      Nat.le_trans tight (Nat.le_trans op.level_le_leftLevel leftTight)
    refine .made [target, .operator ending op, .operand ending op] ?_ ends leads quiet
    refine .phrase leftReady leads (Derivations.yield_leaf fits _ _)
      ⟨ending, awaits, leftAsked, operator⟩ ?_
    refine .leaf fits inner (State.action_operator awaits leads tight) ?_
    refine .phrase rightReady rfl rfl ⟨ending, rfl, rightTight, ?_⟩ .nil
    exact bounds.mono (Operator.level_le_of_rightLevel_le rightTight)

theorem unary (s : Sign) : Rule.Ready σ (.unary s) := by
  intro
  | .cons (.leaf _ sign) (.cons operand .nil), ⟨tight, fits, _⟩, ⟨_, ready, _⟩, quiet =>
    rintro stack target token more leads ⟨ending, awaits, _, bounds⟩
    have begins : State.operandShift ending s.terminal = some (.sign ending s) := by
      cases s <;> rfl
    have inner : s.terminal ≠ .eof := by cases s <;> nofun
    have ends : State.action (.signed ending s) token.kind = some (.reduce (.unary s)) :=
      State.afterSigned_of_bounds bounds
    refine .made [.sign ending s, .signed ending s] ?_ ends leads quiet
    refine .leaf fits inner (State.action_of_operandShift awaits begins) ?_
    exact .phrase ready rfl rfl ⟨ending, rfl, tight, bounds.mono tight⟩ .nil

theorem call : Rule.Ready σ .call := by
  intro
  | .cons callee (.cons (.leaf _ opening) (.cons args (.cons (.leaf _ closing) .nil))),
    ⟨tight, _, opens, _, closes, _⟩, ⟨calleeReady, _, argsReady, _⟩, quiet =>
    rintro stack target token more leads ⟨ending, awaits, asked, _⟩
    have continues : ending.Bounds callee.level opening.kind := by
      rw [opens.1]
      exact Or.inr (Or.inr ⟨rfl, tight⟩)
    refine .made [target, .callOpen, .argumentsOpt, .done .call] ?_ rfl leads quiet
    refine .phrase calleeReady leads rfl ⟨ending, awaits, Nat.le_trans asked tight, continues⟩ ?_
    refine .leaf opens nofun (State.action_of_postfixShift awaits leads rfl) ?_
    exact .phrase argsReady rfl rfl ⟨rfl, closes.1⟩ (.leaf closes nofun rfl .nil)

theorem get : Rule.Ready σ .get := by
  intro
  | .cons object (.cons (.leaf _ mark) (.cons (.leaf _ name) .nil)),
    ⟨tight, _, isDot, isName, _⟩, ⟨ready, _⟩, quiet =>
    rintro stack target token more leads ⟨ending, awaits, asked, _⟩
    have continues : ending.Bounds object.level mark.kind := by
      rw [isDot.1]
      exact Or.inr (Or.inr ⟨rfl, tight⟩)
    refine .made [target, .dot, .done .get] ?_ rfl leads quiet
    refine .phrase ready leads rfl ⟨ending, awaits, Nat.le_trans asked tight, continues⟩ ?_
    exact .leaf isDot nofun (State.action_of_postfixShift awaits leads rfl)
      (.leaf isName nofun rfl .nil)

theorem grouping : Rule.Ready σ .grouping := by
  intro
  | .cons (.leaf _ opening) (.cons value (.cons (.leaf _ closing) .nil)),
    ⟨_, opens, _, closes, _⟩, ⟨_, ready, _⟩, quiet =>
    rintro stack target token more leads ⟨ending, awaits, _⟩
    refine .made [.groupOpen, .groupValue, .done .grouping] ?_ rfl leads quiet
    refine .leaf opens nofun (State.action_of_operandShift awaits rfl) ?_
    refine .phrase ready rfl rfl ⟨.paren, rfl, Nat.zero_le _, Or.inl ?_⟩
      (.leaf closes nofun rfl .nil)
    rw [closes.1]
    rfl

theorem super : Rule.Ready σ .super := by
  intro
  | .cons (.leaf _ word) (.cons (.leaf _ mark) (.cons (.leaf _ name) .nil)),
    ⟨_, isSuper, isDot, isName, _⟩, _, quiet =>
    rintro stack target token more leads ⟨ending, awaits, _⟩
    refine .made [.superWord, .superDot, .done .super] ?_ rfl leads quiet
    exact .leaf isSuper nofun (State.action_of_operandShift awaits rfl)
      (.leaf isDot nofun rfl (.leaf isName nofun rfl .nil))

/-- A list of declarations is read in front of whatever it can be continued with. -/
theorem moreStatements : Rule.Ready σ .moreStatements := by
  intro
  | .cons body (.cons stmt .nil), _, ⟨bodyReady, stmtReady, _⟩, quiet =>
    rintro stack target token more leads ⟨nest, opened, continues⟩
    have inside : stack.state.goto? .statements = some (.statements nest) := by
      rw [opened]
      cases nest <;> rfl
    refine .made [.statements nest, .done .moreStatements] ?_ rfl leads quiet
    refine .phrase_of_reads bodyReady inside ?_ ?_
    · intro first rest value reads
      exact ⟨nest, opened, reads.continuesList rfl⟩
    · exact .phrase stmtReady rfl rfl ⟨nest, rfl, fun _ => continues⟩ .nil

theorem program : Rule.Ready σ .program := by
  intro
  | .cons body .nil, _, ⟨ready, _⟩, quiet =>
    rintro stack target token more leads ⟨first, last⟩
    refine .made [.statements .program] ?_ (by rw [last]; rfl) leads quiet
    exact .phrase ready (by rw [first]; rfl) rfl ⟨.program, first, by rw [last]; rfl⟩ .nil

theorem noStatements : Rule.Ready σ .noStatements := by
  intro
  | .nil, _, _, quiet =>
    rintro stack target token more leads ⟨nest, opened, continues⟩
    refine .made [] .nil ?_ leads quiet
    show stack.state.action token.kind = _
    rw [opened]
    cases nest with
    | program => exact if_pos continues
    | block => rfl

theorem ofVar : Rule.Ready σ .ofVar := by
  intro
  | .cons decl .nil, _, ⟨ready, _⟩, quiet =>
    rintro stack target token more leads ⟨nest, inside, _⟩
    refine .made [.done .ofVar] ?_ rfl leads quiet
    exact .phrase ready (by rw [inside]; rfl) rfl (Or.inl ⟨nest, inside⟩) .nil

theorem ofStatement : Rule.Ready σ .ofStatement := by
  intro
  | .cons stmt .nil, _, ⟨ready, _⟩, quiet =>
    rintro stack target token more leads ⟨nest, inside, continues⟩
    refine .made [.done .ofStatement] ?_ rfl leads quiet
    exact .phrase ready (by rw [inside]; rfl) rfl
      ⟨⟨nest, false⟩, by rw [inside]; rfl, continues⟩ .nil

theorem skipped : Rule.Ready σ .skipped := by
  intro
  | .cons (.leaf _ gap) (.cons (.leaf _ mark) .nil), grouped, _, _ =>
    exact absurd rfl grouped.2.1.2

theorem classDecl : Rule.Ready σ .classDecl := by
  intro
  | .cons (.leaf _ word) (.cons (.leaf _ name) (.cons parent (.cons (.leaf _ opening)
      (.cons methods (.cons (.leaf _ closing) .nil))))),
    ⟨_, isClass, isName, _, opens, _, closes, _⟩, ⟨_, _, parentReady, _, methodsReady, _⟩,
    quiet =>
    rintro stack target token more leads ⟨nest, inside⟩
    refine .made [.classWord, .className, .superclass, .classOpen, .methods, .done .classDecl]
      ?_ rfl leads quiet
    refine .leaf isClass nofun (by rw [inside]; cases nest <;> rfl) (.leaf isName nofun rfl ?_)
    refine .phrase parentReady rfl rfl ⟨rfl, opens.1⟩ (.leaf opens nofun rfl ?_)
    exact .phrase methodsReady rfl rfl rfl (.leaf closes nofun rfl .nil)

theorem noSuperclass : Rule.Ready σ .noSuperclass := by
  intro
  | .nil, _, _, quiet =>
    rintro stack target token more leads ⟨named, opens⟩
    refine .made [] .nil ?_ leads quiet
    show stack.state.action token.kind = _
    rw [named, opens]
    rfl

theorem superclass : Rule.Ready σ .superclass := by
  intro
  | .cons (.leaf _ mark) (.cons (.leaf _ name) .nil), ⟨_, isLess, isName, _⟩, _, quiet =>
    rintro stack target token more leads ⟨named, _⟩
    refine .made [.superclassMark, .done .superclass] ?_ rfl leads quiet
    exact .leaf isLess nofun (by rw [named]; rfl) (.leaf isName nofun rfl .nil)

theorem noMethods : Rule.Ready σ .noMethods := by
  intro
  | .nil, _, _, quiet =>
    intro stack target token more leads opened
    refine .made [] .nil ?_ leads quiet
    show stack.state.action token.kind = _
    rw [show stack.state = .classOpen from opened]
    rfl

theorem moreMethods : Rule.Ready σ .moreMethods := by
  intro
  | .cons methods (.cons decl .nil), _, ⟨methodsReady, declReady, _⟩, quiet =>
    intro stack target token more leads opened
    have inside : stack.state.goto? .methods = some .methods := by
      rw [show stack.state = .classOpen from opened]
      rfl
    refine .made [.methods, .done .moreMethods] ?_ rfl leads quiet
    refine .phrase_of_reads methodsReady inside (fun _ _ _ _ => opened) ?_
    exact .phrase declReady rfl rfl (Or.inl rfl) .nil

theorem funDecl : Rule.Ready σ .funDecl := by
  intro
  | .cons (.leaf _ word) (.cons decl .nil), ⟨_, isFun, _⟩, ⟨_, ready, _⟩, quiet =>
    rintro stack target token more leads ⟨nest, inside⟩
    refine .made [.funWord, .done .funDecl] ?_ rfl leads quiet
    exact .leaf isFun nofun (by rw [inside]; cases nest <;> rfl)
      (.phrase ready rfl rfl (Or.inr rfl) .nil)

theorem function : Rule.Ready σ .function := by
  intro
  | .cons (.leaf _ name) (.cons (.leaf _ opening) (.cons params (.cons (.leaf _ closing)
      (.cons body .nil)))),
    ⟨_, isName, opens, _, closes, _⟩, ⟨_, _, paramsReady, _, bodyReady, _⟩, quiet =>
    intro stack target token more leads awaited
    refine .made [.functionName, .paramsOpen, .params, .paramsClose, .done .function]
      ?_ rfl leads quiet
    refine .leaf isName nofun ?_ (.leaf opens nofun rfl ?_)
    · rcases awaited with inside | inside <;> rw [inside] <;> rfl
    · exact .phrase paramsReady rfl rfl ⟨rfl, closes.1⟩ <| .leaf closes nofun rfl <|
        .phrase bodyReady rfl rfl (Or.inl rfl) .nil

theorem noParams : Rule.Ready σ .noParams := by
  intro
  | .nil, _, _, quiet =>
    rintro stack target token more leads ⟨opened, closes⟩
    refine .made [] .nil ?_ leads quiet
    show stack.state.action token.kind = _
    rw [opened, closes]
    rfl

theorem someParams : Rule.Ready σ .someParams := by
  intro
  | .cons params .nil, _, ⟨ready, _⟩, quiet =>
    rintro stack target token more leads ⟨opened, closes⟩
    refine .made [.paramList] ?_ (by rw [closes]; rfl) leads quiet
    exact .phrase ready (by rw [opened]; rfl) rfl opened .nil

theorem firstParam : Rule.Ready σ .firstParam := by
  intro
  | .cons (.leaf _ name) .nil, ⟨_, isName, _⟩, _, quiet =>
    intro stack target token more leads opened
    refine .made [.done .firstParam] ?_ rfl leads quiet
    exact .leaf isName nofun (by rw [show stack.state = .paramsOpen from opened]; rfl) .nil

theorem moreParams : Rule.Ready σ .moreParams := by
  intro
  | .cons params (.cons (.leaf _ mark) (.cons (.leaf _ name) .nil)), ⟨_, _, isComma, isName, _⟩,
    ⟨ready, _⟩, quiet =>
    intro stack target token more leads opened
    refine .made [.paramList, .paramComma, .done .moreParams] ?_ rfl leads quiet
    exact .phrase ready (by rw [show stack.state = .paramsOpen from opened]; rfl) rfl opened <|
      .leaf isComma nofun rfl (.leaf isName nofun rfl .nil)

theorem varPlain : Rule.Ready σ .varPlain := by
  intro
  | .cons (.leaf _ word) (.cons (.leaf _ name) (.cons (.leaf _ mark) .nil)),
    ⟨_, isVar, isName, ends, _⟩, _, quiet =>
    intro stack target token more leads awaited
    refine .made [.varWord, .varName, .done .varPlain] ?_ rfl leads quiet
    refine .leaf isVar nofun ?_ (.leaf isName nofun rfl (.leaf ends nofun rfl .nil))
    rcases awaited with ⟨nest, inside⟩ | ⟨_, inside⟩ <;> rw [inside]
    · cases nest <;> rfl
    · rfl

theorem varInit : Rule.Ready σ .varInit := by
  intro
  | .cons (.leaf _ word) (.cons (.leaf _ name) (.cons (.leaf _ equal) (.cons value
      (.cons (.leaf _ mark) .nil)))),
    ⟨_, isVar, isName, isEqual, _, ends, _⟩, ⟨_, _, _, ready, _⟩, quiet =>
    intro stack target token more leads awaited
    refine .made [.varWord, .varName, .varEqual, .varValue, .done .varInit] ?_ rfl leads quiet
    refine .leaf isVar nofun ?_ (.leaf isName nofun rfl (.leaf isEqual nofun rfl ?_))
    · rcases awaited with ⟨nest, inside⟩ | ⟨_, inside⟩ <;> rw [inside]
      · cases nest <;> rfl
      · rfl
    · exact .phrase ready rfl rfl (.value rfl rfl (ends.allowed rfl)) (.leaf ends nofun rfl .nil)

theorem expression : Rule.Ready σ .expression := by
  intro
  | .cons value (.cons (.leaf _ mark) .nil), ⟨_, _, ends, _⟩, ⟨ready, _⟩, quiet =>
    rintro stack target token more leads ⟨place, awaits, _⟩
    obtain ⟨ending, free⟩ := State.ending?_of_place? awaits
    refine .made [.expression, .done .expression] ?_ rfl leads quiet
    refine .phrase ready (State.goto_of_place? awaits).1 rfl
      (.value ending free (ends.allowed rfl)) (.leaf ends nofun rfl .nil)

theorem print : Rule.Ready σ .print := by
  intro
  | .cons (.leaf _ word) (.cons value (.cons (.leaf _ mark) .nil)), ⟨_, isPrint, _, ends, _⟩,
    ⟨_, ready, _⟩, quiet =>
    rintro stack target token more leads ⟨place, awaits, _⟩
    refine .made [.printWord, .printValue, .done .print] ?_ rfl leads quiet
    refine .leaf isPrint nofun (State.action_of_statementShift awaits rfl) ?_
    exact .phrase ready rfl rfl (.value rfl rfl (ends.allowed rfl)) (.leaf ends nofun rfl .nil)

theorem returnValue : Rule.Ready σ .returnValue := by
  intro
  | .cons (.leaf _ word) (.cons value (.cons (.leaf _ mark) .nil)), ⟨_, isReturn, _, ends, _⟩,
    ⟨_, ready, _⟩, quiet =>
    rintro stack target token more leads ⟨place, awaits, _⟩
    refine .made [.returnWord, .returnValue, .done .returnValue] ?_ rfl leads quiet
    refine .leaf isReturn nofun (State.action_of_statementShift awaits rfl) ?_
    exact .phrase ready rfl rfl (.value rfl rfl (ends.allowed rfl)) (.leaf ends nofun rfl .nil)

theorem returnNothing : Rule.Ready σ .returnNothing := by
  intro
  | .cons (.leaf _ word) (.cons (.leaf _ mark) .nil), ⟨_, isWord, ends, _⟩, _, quiet =>
    rintro stack target token more leads ⟨place, awaits, _⟩
    refine .made [.returnWord, .done .returnNothing] ?_ rfl leads quiet
    exact .leaf isWord nofun (State.action_of_statementShift awaits rfl)
      (.leaf ends nofun rfl .nil)

theorem ofBlock : Rule.Ready σ .ofBlock := by
  intro
  | .cons body .nil, _, ⟨ready, _⟩, quiet =>
    rintro stack target token more leads ⟨place, awaits, _⟩
    refine .made [.done .ofBlock] ?_ rfl leads quiet
    exact .phrase ready (State.goto_of_place? awaits).2 rfl (Or.inr (by rw [awaits]; rfl)) .nil

theorem ifThen : Rule.Ready σ .ifThen := by
  intro
  | .cons (.leaf _ word) (.cons (.leaf _ opening) (.cons cond (.cons (.leaf _ closing)
      (.cons yes .nil)))),
    ⟨_, isIf, opens, _, closes, _⟩, ⟨_, _, condReady, _, yesReady, _⟩, quiet =>
    rintro stack target token more leads ⟨place, awaits, continues⟩
    have continues := continues rfl
    have unmatched : token.kind ≠ .else_ := by
      intro same
      rw [same, State.not_continuesList_else] at continues
      cases continues
    have ends : State.action (.thenBranch place) token.kind = some (.reduce .ifThen) :=
      (if_neg unmatched).trans (if_pos continues)
    refine .made [.ifWord place, .ifOpen place, .ifCond place, .ifClose place,
      .thenBranch place] ?_ ends leads quiet
    refine .leaf isIf nofun (State.action_of_statementShift awaits rfl) (.leaf opens nofun rfl ?_)
    refine .phrase condReady rfl rfl (.value rfl rfl (closes.allowed rfl)) ?_
    exact .leaf closes nofun rfl (.phrase yesReady rfl rfl ⟨_, rfl, fun _ => continues⟩ .nil)

theorem ifElse : Rule.Ready σ .ifElse := by
  intro
  | .cons (.leaf _ word) (.cons (.leaf _ opening) (.cons cond (.cons (.leaf _ closing)
      (.cons yes (.cons (.leaf _ other) (.cons no .nil)))))),
    ⟨closed, isIf, opens, _, closes, _, isElse, _⟩, ⟨_, _, condReady, _, yesReady, _, noReady, _⟩,
    quiet =>
    rintro stack target token more leads ⟨place, awaits, continues⟩
    refine .made [.ifWord place, .ifOpen place, .ifCond place, .ifClose place,
      .thenBranch place, .elseWord place, .done .ifElse] ?_ rfl leads quiet
    refine .leaf isIf nofun (State.action_of_statementShift awaits rfl) (.leaf opens nofun rfl ?_)
    refine .phrase condReady rfl rfl (.value rfl rfl (closes.allowed rfl)) ?_
    refine .leaf closes nofun rfl (.phrase yesReady rfl rfl ⟨_, rfl, fun isOpen => ?_⟩ ?_)
    · exact absurd (isOpen.symm.trans closed) nofun
    · exact .leaf isElse nofun rfl (.phrase noReady rfl rfl ⟨place, rfl, continues⟩ .nil)

theorem whileLoop : Rule.Ready σ .whileLoop := by
  intro
  | .cons (.leaf _ word) (.cons (.leaf _ opening) (.cons cond (.cons (.leaf _ closing)
      (.cons body .nil)))),
    ⟨_, isWhile, opens, _, closes, _⟩, ⟨_, _, condReady, _, bodyReady, _⟩, quiet =>
    rintro stack target token more leads ⟨place, awaits, continues⟩
    refine .made [.whileWord place, .whileOpen place, .whileCond place, .whileClose place,
      .done .whileLoop] ?_ rfl leads quiet
    refine .leaf isWhile nofun (State.action_of_statementShift awaits rfl)
      (.leaf opens nofun rfl ?_)
    refine .phrase condReady rfl rfl (.value rfl rfl (closes.allowed rfl)) ?_
    exact .leaf closes nofun rfl (.phrase bodyReady rfl rfl ⟨place, rfl, continues⟩ .nil)

theorem forLoop : Rule.Ready σ .forLoop := by
  intro
  | .cons (.leaf _ word) (.cons (.leaf _ opening) (.cons init (.cons cond (.cons step
      (.cons body .nil))))),
    ⟨_, isFor, opens, _⟩, ⟨_, _, initReady, condReady, stepReady, bodyReady, _⟩, quiet =>
    rintro stack target token more leads ⟨place, awaits, continues⟩
    refine .made [.forWord place, .forOpen place, .forInit place, .forCond place,
      .forStep place, .done .forLoop] ?_ rfl leads quiet
    refine .leaf isFor nofun (State.action_of_statementShift awaits rfl)
      (.leaf opens nofun rfl ?_)
    refine .phrase_of_reads initReady rfl (fun _ _ _ _ => ⟨place, rfl⟩) ?_
    refine .phrase_of_reads condReady rfl (fun _ _ _ _ => ⟨place, rfl⟩) ?_
    refine .phrase_of_reads stepReady rfl (fun _ _ _ _ => ⟨place, rfl⟩) ?_
    exact .phrase bodyReady rfl rfl ⟨place, rfl, continues⟩ .nil

theorem block : Rule.Ready σ .block := by
  intro
  | .cons (.leaf _ opening) (.cons body (.cons (.leaf _ closing) .nil)),
    ⟨_, opens, _, closes, _⟩, ⟨_, ready, _⟩, quiet =>
    intro stack target token more leads awaited
    refine .made [.blockOpen, .statements .block, .done .block] ?_ rfl leads quiet
    refine .leaf opens nofun ?_ ?_
    · rcases awaited with inside | found
      · rw [inside]
        rfl
      · obtain ⟨place, awaits⟩ := Option.isSome_iff_exists.mp found
        exact State.action_of_statementShift awaits rfl
    · have continues : State.continuesList .block closing.kind = true := by
        rw [closes.1]
        rfl
      exact .phrase ready rfl rfl ⟨.block, rfl, continues⟩ (.leaf closes nofun rfl .nil)

theorem initVar : Rule.Ready σ .initVar := by
  intro
  | .cons decl .nil, _, ⟨ready, _⟩, quiet =>
    rintro stack target token more leads ⟨place, inside⟩
    refine .made [.done .initVar] ?_ rfl leads quiet
    exact .phrase ready (by rw [inside]; rfl) rfl (Or.inr ⟨place, inside⟩) .nil

theorem initExpr : Rule.Ready σ .initExpr := by
  intro
  | .cons value (.cons (.leaf _ mark) .nil), ⟨_, _, ends, _⟩, ⟨ready, _⟩, quiet =>
    rintro stack target token more leads ⟨place, inside⟩
    refine .made [.forInitValue, .done .initExpr] ?_ rfl leads quiet
    have welcome : stack.state.Welcomes .expr value.grade mark.kind := by
      rw [inside]
      exact .value rfl rfl (ends.allowed rfl)
    exact .phrase ready (by rw [inside]; rfl) rfl welcome (.leaf ends nofun rfl .nil)

theorem someCond : Rule.Ready σ .someCond := by
  intro
  | .cons value (.cons (.leaf _ mark) .nil), ⟨_, _, ends, _⟩, ⟨ready, _⟩, quiet =>
    rintro stack target token more leads ⟨place, inside⟩
    refine .made [.forCondValue, .done .someCond] ?_ rfl leads quiet
    have welcome : stack.state.Welcomes .expr value.grade mark.kind := by
      rw [inside]
      exact .value rfl rfl (ends.allowed rfl)
    exact .phrase ready (by rw [inside]; rfl) rfl welcome (.leaf ends nofun rfl .nil)

theorem someStep : Rule.Ready σ .someStep := by
  intro
  | .cons value (.cons (.leaf _ mark) .nil), ⟨_, _, ends, _⟩, ⟨ready, _⟩, quiet =>
    rintro stack target token more leads ⟨place, inside⟩
    refine .made [.forStepValue, .done .someStep] ?_ rfl leads quiet
    have welcome : stack.state.Welcomes .expr value.grade mark.kind := by
      rw [inside]
      exact .value rfl rfl (ends.allowed rfl)
    exact .phrase ready (by rw [inside]; rfl) rfl welcome (.leaf ends nofun rfl .nil)

theorem noArguments : Rule.Ready σ .noArguments := by
  intro
  | .nil, _, _, quiet =>
    rintro stack target token more leads ⟨opened, closes⟩
    refine .made [] .nil ?_ leads quiet
    show stack.state.action token.kind = _
    rw [opened, closes]
    rfl

theorem someArguments : Rule.Ready σ .someArguments := by
  intro
  | .cons args .nil, _, ⟨ready, _⟩, quiet =>
    rintro stack target token more leads ⟨opened, closes⟩
    refine .made [.arguments] ?_ (by rw [closes]; rfl) leads quiet
    exact .phrase ready (by rw [opened]; rfl) rfl ⟨opened, by rw [closes]; rfl⟩ .nil

theorem firstArgument : Rule.Ready σ .firstArgument := by
  intro
  | .cons arg .nil, _, ⟨ready, _⟩, quiet =>
    rintro stack target token more leads ⟨opened, ends⟩
    refine .made [.firstArgument] ?_ (if_pos ends) leads quiet
    exact .phrase ready (by rw [opened]; rfl) rfl
      (.value (by rw [opened]; rfl) (by rw [opened]; rfl) ends) .nil

theorem moreArguments : Rule.Ready σ .moreArguments := by
  intro
  | .cons args (.cons (.leaf _ mark) (.cons arg .nil)), ⟨_, _, isComma, _⟩,
    ⟨argsReady, _, argReady, _⟩, quiet =>
    rintro stack target token more leads ⟨opened, ends⟩
    refine .made [.arguments, .argumentComma, .nextArgument] ?_ (if_pos ends) leads quiet
    refine .phrase argsReady (by rw [opened]; rfl) rfl ⟨opened, by rw [isComma.1]; rfl⟩ ?_
    exact .leaf isComma nofun rfl (.phrase argReady rfl rfl (.value rfl rfl ends) .nil)

end Rule.Ready

/-- **Every rule makes phrases that can be read** of such phrases. -/
theorem Rule.ready (rule : Rule) : rule.Ready σ := by
  cases rule with
  | binary op => exact .binary op
  | unary s => exact .unary s
  | call => exact .call
  | get => exact .get
  | grouping => exact .grouping
  | super => exact .super
  | moreStatements => exact .moreStatements
  | variable_ | number | string | true_ | false_ | nil_ | this =>
      intro
      | .cons (.leaf _ word) .nil, ⟨_, fits, _⟩, _, quiet =>
        rintro stack target token more leads ⟨ending, awaits, _⟩
        refine .made [.done _] ?_ rfl leads quiet
        exact .leaf fits nofun (State.action_of_operandShift awaits rfl) .nil
  | program => exact .program
  | noStatements => exact .noStatements
  | ofClass | ofFun =>
      intro
      | .cons decl .nil, _, ⟨ready, _⟩, quiet =>
        rintro stack target token more leads ⟨nest, inside, _⟩
        refine .made [.done _] ?_ rfl leads quiet
        exact .phrase ready (by rw [inside]; rfl) rfl ⟨nest, inside⟩ .nil
  | ofVar => exact .ofVar
  | ofStatement => exact .ofStatement
  | skipped => exact .skipped
  | classDecl => exact .classDecl
  | noSuperclass => exact .noSuperclass
  | superclass => exact .superclass
  | noMethods => exact .noMethods
  | moreMethods => exact .moreMethods
  | funDecl => exact .funDecl
  | function => exact .function
  | noParams => exact .noParams
  | someParams => exact .someParams
  | firstParam => exact .firstParam
  | moreParams => exact .moreParams
  | varPlain => exact .varPlain
  | varInit => exact .varInit
  | expression => exact .expression
  | print => exact .print
  | returnValue => exact .returnValue
  | returnNothing => exact .returnNothing
  | ofBlock => exact .ofBlock
  | ifThen => exact .ifThen
  | ifElse => exact .ifElse
  | whileLoop => exact .whileLoop
  | forLoop => exact .forLoop
  | block => exact .block
  | noInit | noCond | noStep =>
      intro
      | .cons (.leaf _ mark) .nil, ⟨_, ends, _⟩, _, quiet =>
        rintro stack target token more leads ⟨place, inside⟩
        refine .made [.done _] ?_ rfl leads quiet
        exact .leaf ends nofun (by rw [inside]; rfl) .nil
  | initVar => exact .initVar
  | initExpr => exact .initExpr
  | someCond => exact .someCond
  | someStep => exact .someStep
  | noArguments => exact .noArguments
  | someArguments => exact .someArguments
  | firstArgument => exact .firstArgument
  | moreArguments => exact .moreArguments

/-! ### Derivations -/

/-- A derivation to which a semantics objects nowhere. -/
def Derivation.Quiet (σ : Semantics M) {symbol : Symbol} (derivation : Derivation symbol) : Prop :=
  derivation.Each σ (fun _ _ => True) fun rule values => σ.objections rule values = []

/-- Derivations to which a semantics objects nowhere. -/
def Derivations.Quiet (σ : Semantics M) {shape : List Symbol} (parts : Derivations shape) : Prop :=
  parts.Each σ (fun _ _ => True) fun rule values => σ.objections rule values = []

mutual

/-- **Grouped phrases can be read** wherever they are welcome. -/
theorem Derivation.ready : {symbol : Symbol} → (derivation : Derivation symbol) →
    derivation.Grouped → derivation.Quiet σ → derivation.Ready σ
  | _, .leaf _ _, _, _ => trivial
  | _, .node rule parts, grouped, quiet =>
    rule.ready parts grouped (Derivations.ready parts grouped.2 quiet.2) quiet.1

theorem Derivations.ready : {shape : List Symbol} → (parts : Derivations shape) →
    parts.Grouped → parts.Quiet σ → parts.All (Derivation.Ready σ)
  | _, .nil, _, _ => trivial
  | _, .cons first rest, grouped, quiet =>
    ⟨Derivation.ready first grouped.1 quiet.1, Derivations.ready rest grouped.2 quiet.2⟩

end

/-- **What has a grouped derivation is read**, into the value of the derivation. -/
theorem Stack.Reads.of_grouped {derivation : Derivation (.nonterminal .program)}
    (grouped : derivation.Grouped) (quiet : derivation.Quiet σ) {closing : Token}
    (last : closing.kind = .eof) :
    Reads σ [] (derivation.yield ++ [closing]) (derivation.value σ) := by
  have leads : State.action .accept closing.kind = some (.shift .accept) := if_pos last
  have readable := derivation.ready grouped quiet [] .accept closing [] rfl ⟨rfl, last⟩
  exact readable _ (.accept leads last rfl)

end Lox
