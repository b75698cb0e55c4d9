/-
**Where phrases are welcome.** Which states take which phrases, and what may follow these.

* `Derivation.Readable` says that a phrase can be read on a given stack in front of given tokens,
  and `Derivations.Readable` that phrases can be read one after the other;
  `Derivation.Readable.made` puts the parts of a phrase together.
* `State.Welcomes` says in which states a phrase is awaited, how tightly it has to bind there, and
  which token may come next. `Derivation.Ready` are the phrases that can be read wherever they are
  welcome.
* What the states do about expressions: `State.action_operator` and `State.afterOperand_of_bounds`
  are the two sides of precedence.
-/

import Lox.Proofs.Precedence
import Lox.Proofs.Reads

set_option linter.unusedSectionVars false

namespace Lox

variable {M : Symbol → Type} {σ : Semantics M}

/-! ### Phrases on a stack -/

/-- A phrase can be read on a stack, in front of the given tokens. -/
def Derivation.Readable (σ : Semantics M) {symbol : Symbol} (derivation : Derivation symbol)
    (stack : Stack M) (target : State) (next : List Token) : Prop :=
  ∀ value, Stack.Reads σ (⟨target, symbol, derivation.value σ⟩ :: stack) next value →
    Stack.Reads σ stack (derivation.yield ++ next) value

/-- Phrases put on a stack one after the other, with the states after them. -/
def Derivations.onto (σ : Semantics M) :
    {shape : List Symbol} → Derivations shape → List State → Stack M → Stack M
  | _, .nil, _, stack => stack
  | _, .cons first rest, states, stack =>
    rest.onto σ states.tail (⟨states.headD .start, _, first.value σ⟩ :: stack)

/-- Phrases can be read one after the other, leading through the given states. -/
def Derivations.Readable (σ : Semantics M) {shape : List Symbol} (parts : Derivations shape)
    (stack : Stack M) (states : List State) (next : List Token) : Prop :=
  ∀ value, Stack.Reads σ (parts.onto σ states stack) next value →
    Stack.Reads σ stack (parts.yield ++ next) value

theorem Derivations.pop_onto {shape : List Symbol} (parts : Derivations shape)
    (states : List State) (stack : Stack M) :
    Stack.pop shape (parts.onto σ states stack) = some (parts.values σ, stack) := by
  induction shape generalizing states stack with
  | nil =>
      cases parts
      rfl
  | cons symbol more ih =>
      match parts with
      | .cons first rest =>
          unfold Stack.pop
          rw [Derivations.onto, ih rest]
          simp [Derivations.values]

/-- A phrase can be read if its parts can, and if the automaton makes it of them. -/
theorem Derivation.Readable.made {rule : Rule} {parts : Derivations rule.rhs} {stack : Stack M}
    {target : State} {token : Token} {more : List Token} (states : List State)
    (route : parts.Readable σ stack states (token :: more))
    (ends : (parts.onto σ states stack).state.action token.kind = some (.reduce rule))
    (leads : stack.state.goto? rule.lhs = some target)
    (quiet : σ.objections rule (parts.values σ) = []) :
    (Derivation.node rule parts).Readable σ stack target (token :: more) := by
  intro value reads
  refine route value (.reduce ends ?_ reads)
  unfold Stack.reduce
  rw [parts.pop_onto]
  simp only [leads, quiet, List.map_nil]
  rfl

namespace Derivations.Readable

variable {stack : Stack M} {next : List Token} {shape : List Symbol} {rest : Derivations shape}
  {states : List State} {target : State}

theorem nil : Derivations.nil.Readable σ stack [] next :=
  fun _ reads => reads

theorem cons {symbol : Symbol} {first : Derivation symbol}
    (one : first.Readable σ stack target (rest.yield ++ next))
    (others : rest.Readable σ (⟨target, symbol, first.value σ⟩ :: stack) states next) :
    (Derivations.cons first rest).Readable σ stack (target :: states) next := by
  intro value reads
  rw [Derivations.yield, List.append_assoc]
  exact one value (others value reads)

/-- A token, and then the rest. -/
theorem leaf {kind : Terminal} {token : Token} (fits : kind.Fits token) (inner : kind ≠ .eof)
    (leads : stack.state.action kind = some (.shift target))
    (others : rest.Readable σ (⟨target, .terminal kind, σ.leaf kind token⟩ :: stack) states next) :
    (Derivations.cons (.leaf kind token) rest).Readable σ stack (target :: states) next := by
  obtain ⟨rfl, inside⟩ := fits
  refine cons (fun value reads => ?_) others
  rw [Derivation.yield, if_neg inside]
  exact .shift leads inner reads

end Derivations.Readable

/-! ### Where phrases are welcome -/

namespace State

/-- What ends the expression that a state awaits. -/
def ending? : State → Option Ending
  | statements _ | varEqual | printWord | returnWord | ifClose _ | elseWord _ | whileClose _
  | forOpen _ | forInit _ | forStep _ => some .semicolon
  | groupOpen | ifOpen _ | whileOpen _ | forCond _ => some .paren
  | callOpen | argumentComma => some .argument
  | sign ending _ | operator ending _ => some ending
  | _ => none

/-- How tightly the expression that a state awaits has to bind. -/
def asked : State → Nat
  | sign _ _ => Operator.unaryLevel
  | operator _ op => op.rightLevel
  | _ => 0

/-- The place of the statement that a state awaits. -/
def place? : State → Option Place
  | statements nest => some ⟨nest, false⟩
  | ifClose place => some place.branch
  | elseWord place | whileClose place | forStep place => some place
  | _ => none

end State

/-- The state in which a list of declarations begins. -/
def Nest.opener : Nest → State
  | program => .start
  | block => .blockOpen

/-- A token may follow an expression of the given level: it ends the expression, or takes it for the
left operand. -/
def Ending.Bounds (ending : Ending) (level : Nat) (kind : Terminal) : Prop :=
  ending.allows kind = true ∨
    (∃ op, Operator.ofTerminal? kind = some op ∧ op.leftLevel ≤ level) ∨
    ((State.postfixShift kind).isSome = true ∧ Operator.postfixLevel ≤ level)

/-- A state awaits a phrase of the given grade, and the next token may follow the phrase. -/
def State.Welcomes (state : State) :
    (phrase : Nonterminal) → Grade (.nonterminal phrase) → Terminal → Prop
  | .program, _, kind => state = .start ∧ kind = .eof
  | .statements, _, kind => ∃ nest : Nest, state = nest.opener ∧ continuesList nest kind = true
  | .declaration, isOpen, kind =>
    ∃ nest, state = .statements nest ∧ (isOpen = true → continuesList nest kind = true)
  | .classDecl, _, _ | .funDecl, _, _ => ∃ nest, state = .statements nest
  | .varDecl, _, _ => (∃ nest, state = .statements nest) ∨ ∃ place, state = .forOpen place
  | .superclass, _, kind => state = .className ∧ kind = .braceOpen
  | .methods, _, _ => state = .classOpen
  | .function, _, _ => state = .methods ∨ state = .funWord
  | .params, _, kind => state = .paramsOpen ∧ kind = .parenClose
  | .paramList, _, _ => state = .paramsOpen
  | .block, _, _ => state = .paramsClose ∨ state.place?.isSome = true
  | .statement, isOpen, kind =>
    ∃ place, state.place? = some place ∧ (isOpen = true → continuesList place.nest kind = true)
  | .forInit, _, _ => ∃ place, state = .forOpen place
  | .forCond, _, _ => ∃ place, state = .forInit place
  | .forStep, _, _ => ∃ place, state = .forCond place
  | .expr, level, kind =>
    ∃ ending, state.ending? = some ending ∧ state.asked ≤ level ∧ ending.Bounds level kind
  | .argumentsOpt, _, kind => state = .callOpen ∧ kind = .parenClose
  | .arguments, _, kind => state = .callOpen ∧ Ending.argument.allows kind = true

/-- A phrase can be read on every stack that welcomes it. -/
def Derivation.Ready (σ : Semantics M) :
    (symbol : Symbol) → Derivation symbol → Prop
  | .terminal _, _ => True
  | .nonterminal phrase, derivation =>
    ∀ (stack : Stack M) (target : State) (token : Token) (more : List Token),
      stack.state.goto? phrase = some target →
      stack.state.Welcomes phrase derivation.grade token.kind →
      derivation.Readable σ stack target (token :: more)

namespace Derivations.Readable

variable {stack : Stack M} {next : List Token} {shape : List Symbol} {rest : Derivations shape}
  {states : List State} {target : State}

/-- A phrase, and then the rest, whose first token the phrase allows. -/
theorem phrase {phrase : Nonterminal} {first : Derivation (.nonterminal phrase)} {token : Token}
    {more : List Token} (ready : first.Ready σ)
    (leads : stack.state.goto? phrase = some target) (begins : rest.yield ++ next = token :: more)
    (welcome : stack.state.Welcomes phrase first.grade token.kind)
    (others : rest.Readable σ (⟨target, .nonterminal phrase, first.value σ⟩ :: stack) states next) :
    (Derivations.cons first rest).Readable σ stack (target :: states) next := by
  refine cons ?_ others
  rw [begins]
  exact ready stack target token more leads welcome

/-- A phrase, and then the rest, whose first token is one that can be read behind the phrase. -/
theorem phrase_of_reads {phrase : Nonterminal} {first : Derivation (.nonterminal phrase)}
    (ready : first.Ready σ) (leads : stack.state.goto? phrase = some target)
    (welcome : ∀ token more value,
      Stack.Reads σ (⟨target, .nonterminal phrase, first.value σ⟩ :: stack) (token :: more) value →
      stack.state.Welcomes phrase first.grade token.kind)
    (others : rest.Readable σ (⟨target, .nonterminal phrase, first.value σ⟩ :: stack) states next) :
    (Derivations.cons first rest).Readable σ stack (target :: states) next := by
  intro value reads
  have behind := others value reads
  rw [Derivations.yield, List.append_assoc]
  cases begins : rest.yield ++ next with
  | nil =>
      rw [begins] at behind
      cases behind
  | cons token more =>
      rw [begins] at behind
      exact ready stack target token more leads (welcome token more value behind) value behind

end Derivations.Readable

theorem Terminal.Fits.allowed {kind : Terminal} {token : Token} (fits : kind.Fits token)
    {ending : Ending} (ends : ending.allows kind = true) : ending.allows token.kind = true := by
  rw [fits.1, ends]

theorem State.Welcomes.value {state : State} {ending : Ending} {kind : Terminal} {level : Nat}
    (awaits : state.ending? = some ending) (free : state.asked = 0)
    (ends : ending.allows kind = true) : state.Welcomes .expr level kind :=
  ⟨ending, awaits, free.symm ▸ Nat.zero_le level, Or.inl ends⟩

/-! ### What states do about expressions and statements -/

namespace State

variable {state target : State} {ending : Ending} {kind : Terminal} {op : Operator}

/-- A state that awaits an expression reads what begins one. -/
theorem action_of_operandShift (awaits : state.ending? = some ending)
    (begins : operandShift ending kind = some target) :
    state.action kind = some (.shift target) := by
  unfold operandShift at begins
  split at begins <;> cases begins
  all_goals
    cases state with
    | statements nest => cases nest <;> cases awaits <;> rfl
    | _ => cases awaits <;> rfl

/-- A state that awaits a statement reads what begins one. -/
theorem action_of_statementShift {place : Place} (awaits : state.place? = some place)
    (begins : statementShift place kind = some target) :
    state.action kind = some (.shift target) := by
  have unclosed (nest : Nest) : kind ≠ nest.closer := by
    rintro rfl
    cases nest <;> cases begins
  have declared (nest : Nest) (same : place = ⟨nest, false⟩) :
      declarationShift nest kind = some target := by
    subst same
    unfold declarationShift
    split
    case h_5 => exact begins
    all_goals cases begins
  cases state with
  | statements nest =>
      have begun := declared nest (Option.some.inj awaits).symm
      cases nest with
      | program => exact (if_neg (unclosed .program)).trans (shifting_eq_shift.mpr begun)
      | block => exact (if_neg (unclosed .block)).trans (shifting_eq_shift.mpr begun)
  | ifClose _ | elseWord _ | whileClose _ | forStep _ =>
      cases awaits
      exact shifting_eq_shift.mpr begins
  | _ => cases awaits

theorem ending?_of_place? {place : Place} (awaits : state.place? = some place) :
    state.ending? = some .semicolon ∧ state.asked = 0 := by
  cases state <;> cases awaits <;> exact ⟨rfl, rfl⟩

theorem goto_of_place? {place : Place} (awaits : state.place? = some place) :
    state.goto? .expr = some expression ∧ state.goto? .block = some (done .ofBlock) := by
  cases state <;> cases awaits <;> exact ⟨rfl, rfl⟩

/-- After an expression comes a call or a property. -/
theorem action_of_postfixShift (awaits : state.ending? = some ending)
    (leads : state.goto? .expr = some target) {next : State}
    (begins : postfixShift kind = some next) : target.action kind = some (.shift next) := by
  unfold postfixShift at begins
  split at begins <;> cases begins
  all_goals
    cases state with
    | sign ending _ | operator ending _ =>
        cases leads
        cases ending <;> rfl
    | _ => cases awaits <;> cases leads <;> rfl

theorem ofTerminal?_terminal (op : Operator) : Operator.ofTerminal? op.terminal = some op := by
  cases op with
  | assign => rfl
  | connect op => cases op <;> rfl
  | compute op => cases op <;> rfl

theorem not_allows_operator (ending : Ending) {kind : Terminal} {op : Operator}
    (known : Operator.ofTerminal? kind = some op) : ending.allows kind = false := by
  unfold Ending.allows
  split
  case h_5 => rfl
  all_goals cases known

theorem afterValue_operator {closer : Terminal} (next : State)
    (closes : ending.allows closer = true) :
    afterValue ending closer next op.terminal = some (.shift (operator ending op)) := by
  have known := ofTerminal?_terminal op
  have other : op.terminal ≠ closer := by
    intro same
    have no := not_allows_operator ending known
    rw [same, closes] at no
    cases no
  unfold afterValue expressionShift
  rw [if_neg other, known]
  rfl

theorem afterArgument_operator (rule : Rule) :
    afterArgument rule op.terminal = some (.shift (operator .argument op)) := by
  have known := ofTerminal?_terminal op
  unfold afterArgument expressionShift
  rw [not_allows_operator .argument known, known]
  rfl

/-- After an expression comes an operator that binds as tightly as was asked of the expression. -/
theorem action_operator (awaits : state.ending? = some ending)
    (leads : state.goto? .expr = some target) (tight : state.asked ≤ op.level) :
    target.action op.terminal = some (.shift (operator ending op)) := by
  cases state with
  | sign => exact absurd tight (Nat.not_le_of_lt op.level_lt_unaryLevel)
  | operator _ before =>
      cases awaits
      cases leads
      show afterOperand ending before op.terminal = _
      unfold afterOperand
      simp only [ofTerminal?_terminal, Operator.takes_of_rightLevel_le tight, if_pos]
  | callOpen | argumentComma =>
      cases awaits
      cases leads
      exact afterArgument_operator _
  | _ =>
      cases awaits <;> cases leads <;> exact afterValue_operator _ rfl

/-- The right operand of an operator ends where a token may follow what the operator makes. -/
theorem afterOperand_of_bounds (bounds : ending.Bounds op.level kind) :
    afterOperand ending op kind = some (.reduce (.binary op)) := by
  unfold afterOperand
  rcases bounds with ends | ⟨next, known, looser⟩ | ⟨_, tight⟩
  · cases known : Operator.ofTerminal? kind with
    | none => simp only [ends, if_pos]
    | some next =>
        rw [not_allows_operator ending known] at ends
        cases ends
  · simp only [known, Operator.takes_eq_false looser]
    rfl
  · have below := op.level_lt_unaryLevel
    unfold Operator.unaryLevel at below
    unfold Operator.postfixLevel at tight
    omega

/-- The operand of a unary operator ends where a token may follow what the operator makes. -/
theorem afterSigned_of_bounds {s : Sign} (bounds : ending.Bounds Operator.unaryLevel kind) :
    afterSigned ending s kind = some (.reduce (.unary s)) := by
  unfold afterSigned
  rcases bounds with ends | ⟨next, known, _⟩ | ⟨_, tight⟩
  · rw [ends, Bool.or_true, if_pos rfl]
  · rw [known, Option.isSome_some, Bool.true_or, if_pos rfl]
  · exact absurd tight (by decide)

end State

theorem Ending.Bounds.mono {ending : Ending} {kind : Terminal} {level level' : Nat}
    (bounds : ending.Bounds level kind) (higher : level ≤ level') : ending.Bounds level' kind := by
  rcases bounds with ends | ⟨op, known, looser⟩ | ⟨continues, tight⟩
  · exact Or.inl ends
  · exact Or.inr (Or.inl ⟨op, known, Nat.le_trans looser higher⟩)
  · exact Or.inr (Or.inr ⟨continues, Nat.le_trans tight higher⟩)

/-- A state behind a list of declarations reads what continues the list. -/
theorem State.continuesList_of_action {nest : Nest} {kind : Terminal}
    (reads : (State.action (.statements nest) kind).isSome = true) :
    continuesList nest kind = true := by
  unfold continuesList
  by_cases closes : kind = nest.closer
  · rw [beq_iff_eq.mpr closes, Bool.true_or]
  · have inside : State.action (.statements nest) kind = shifting (declarationShift nest kind) := by
      cases nest <;> exact if_neg closes
    rw [inside, shifting, Option.isSome_map] at reads
    rw [reads, Bool.or_true]

theorem State.not_continuesList_else (nest : Nest) : continuesList nest .else_ = false := by
  cases nest <;> rfl

theorem Stack.Reads.continuesList {nest : Nest} {stack : Stack M} {token : Token}
    {more : List Token} {value : M (.nonterminal .program)}
    (reads : Stack.Reads σ stack (token :: more) value) (inside : stack.state = .statements nest) :
    State.continuesList nest token.kind = true := by
  refine State.continuesList_of_action ?_
  rw [← inside]
  cases reads with
  | reduce leads | shift leads | accept leads =>
      rw [leads]
      rfl

end Lox
