/-
**Items.** Every state on the stack is in the midst of a rule, and the stack bears that out.

* `Stack.Awaits` says that a symbol can come next: the program on an empty stack, or, inside of a
  rule of which the first symbols lie on the stack, the next symbol of the rule. `Stack.Within` is a
  rule of which the first symbols have been read, where its phrase is awaited.
* `State.item?` is the rule that a state is in the midst of, and how far it has come.
  `Stack.Sensible` says of every state on a stack that what lies below bears that out. Reading a
  token and making a phrase keep it: `push_sensible`, `reduce_sensible`.

What lies on a sensible stack can be completed to a program; that is for a later module.
-/

import Lox.Proofs.Reductions
import Lox.Proofs.Welcome

set_option linter.unusedSectionVars false

namespace Lox

variable {M : Symbol → Type} {σ : Semantics M}

namespace Stack

/-! ### Symbols that are awaited -/

/-- A symbol can come next on a stack. -/
inductive Awaits : Stack M → Symbol → Prop
  | program : Awaits [] (.nonterminal .program)
  | inside {top base : Stack M} {rule : Rule} {dot : Nat} {symbol : Symbol}
      (below : Awaits base (.nonterminal rule.lhs))
      (read : symbols top = (rule.rhs.take dot).reverse) (next : rule.rhs[dot]? = some symbol) :
      Awaits (top ++ base) symbol

/-- The first symbols of a rule have been read where its phrase is awaited. -/
def Within (stack : Stack M) (rule : Rule) (dot : Nat) : Prop :=
  ∃ top base : Stack M, stack = top ++ base ∧ symbols top = (rule.rhs.take dot).reverse ∧
    Awaits base (.nonterminal rule.lhs)

variable {stack : Stack M} {rule : Rule} {dot : Nat} {symbol : Symbol}

theorem Within.awaits (within : Within stack rule dot) (next : rule.rhs[dot]? = some symbol) :
    Awaits stack symbol := by
  obtain ⟨top, base, rfl, read, below⟩ := within
  exact .inside below read next

/-- Where a phrase is awaited, every rule for it can begin. -/
theorem Awaits.begins (rule : Rule) (awaits : Awaits stack (.nonterminal rule.lhs)) :
    Within stack rule 0 :=
  ⟨[], stack, rfl, rfl, awaits⟩

theorem Awaits.first (rule : Rule) (awaits : Awaits stack (.nonterminal rule.lhs))
    (next : rule.rhs[0]? = some symbol) : Awaits stack symbol :=
  (begins rule awaits).awaits next

theorem Within.advance (within : Within stack rule dot) {entry : Entry M}
    (next : rule.rhs[dot]? = some entry.symbol) : Within (entry :: stack) rule (dot + 1) := by
  obtain ⟨top, base, rfl, read, below⟩ := within
  refine ⟨entry :: top, base, rfl, ?_, below⟩
  rw [symbols, List.map_cons, List.take_add_one, next, List.reverse_append, ← read, symbols]
  rfl

/-- Rules for the same phrase that begin with the same symbols cannot be told apart yet. -/
theorem Within.swap (other : Rule) (within : Within stack rule dot) (phrase : other.lhs = rule.lhs)
    (same : other.rhs.take dot = rule.rhs.take dot) : Within stack other dot := by
  obtain ⟨top, base, rfl, read, below⟩ := within
  exact ⟨top, base, rfl, by rw [same, read], by rw [phrase]; exact below⟩

/-- What was read last may be the beginning of a longer phrase of the same kind. -/
theorem Within.longer (other : Rule) (within : Within stack rule (dot + 1))
    (last : rule.rhs[dot]? = some (.nonterminal other.lhs))
    (first : other.rhs[0]? = some (.nonterminal other.lhs)) : Within stack other 1 := by
  obtain ⟨top, base, rfl, read, below⟩ := within
  rw [List.take_add_one, last, List.reverse_append] at read
  match top, read with
  | entry :: rest, read =>
      obtain ⟨named, read⟩ := List.cons.inj read
      have awaits : Awaits (rest ++ base) (.nonterminal other.lhs) := .inside below read last
      exact (awaits.begins other).advance (first.trans (congrArg some named.symm))

end Stack

/-! ### What states are in the midst of -/

namespace State

/-- The rule that a state is in the midst of, and how many of its symbols have been read. -/
def item? : State → Option (Rule × Nat)
  | start | accept => none
  | statements .program => some (.program, 1)
  | statements .block => some (.block, 2)
  | done rule => some (rule, rule.rhs.length)
  | gap => some (.skipped, 1)
  | classWord => some (.classDecl, 1)
  | className => some (.classDecl, 2)
  | superclassMark => some (.superclass, 1)
  | superclass => some (.classDecl, 3)
  | classOpen => some (.classDecl, 4)
  | methods => some (.classDecl, 5)
  | funWord => some (.funDecl, 1)
  | functionName => some (.function, 1)
  | paramsOpen => some (.function, 2)
  | params => some (.function, 3)
  | paramList => some (.someParams, 1)
  | paramComma => some (.moreParams, 2)
  | paramsClose => some (.function, 4)
  | varWord => some (.varPlain, 1)
  | varName => some (.varPlain, 2)
  | varEqual => some (.varInit, 3)
  | varValue => some (.varInit, 4)
  | printWord => some (.print, 1)
  | printValue => some (.print, 2)
  | returnWord => some (.returnValue, 1)
  | returnValue => some (.returnValue, 2)
  | expression => some (.expression, 1)
  | blockOpen => some (.block, 1)
  | sign _ s => some (.unary s, 1)
  | signed _ s => some (.unary s, 2)
  | operator _ op => some (.binary op, 2)
  | operand _ op => some (.binary op, 3)
  | groupOpen => some (.grouping, 1)
  | groupValue => some (.grouping, 2)
  | superWord => some (.super, 1)
  | superDot => some (.super, 2)
  | dot => some (.get, 2)
  | callOpen => some (.call, 2)
  | argumentsOpt => some (.call, 3)
  | arguments => some (.someArguments, 1)
  | firstArgument => some (.firstArgument, 1)
  | argumentComma => some (.moreArguments, 2)
  | nextArgument => some (.moreArguments, 3)
  | ifWord _ => some (.ifThen, 1)
  | ifOpen _ => some (.ifThen, 2)
  | ifCond _ => some (.ifThen, 3)
  | ifClose _ => some (.ifThen, 4)
  | thenBranch _ => some (.ifThen, 5)
  | elseWord _ => some (.ifElse, 6)
  | whileWord _ => some (.whileLoop, 1)
  | whileOpen _ => some (.whileLoop, 2)
  | whileCond _ => some (.whileLoop, 3)
  | whileClose _ => some (.whileLoop, 4)
  | forWord _ => some (.forLoop, 1)
  | forOpen _ => some (.forLoop, 2)
  | forInit _ => some (.forLoop, 3)
  | forCond _ => some (.forLoop, 4)
  | forStep _ => some (.forLoop, 5)
  | forInitValue => some (.initExpr, 1)
  | forCondValue => some (.someCond, 1)
  | forStepValue => some (.someStep, 1)

end State

namespace Stack

/-- Every state on the stack is borne out by what lies below it. -/
def Sensible : Stack M → Prop
  | [] => True
  | entry :: rest => Sensible rest ∧
      ∀ rule dot, entry.state.item? = some (rule, dot) → Within (entry :: rest) rule dot

/-- On a stack, a symbol leads to a state that the stack bears out. -/
def Prepares (stack : Stack M) (symbol : Symbol) (target : State) : Prop :=
  ∀ rule dot, target.item? = some (rule, dot) →
    ∃ before, dot = before + 1 ∧ Within stack rule before ∧ rule.rhs[before]? = some symbol

variable {stack : Stack M} {rule : Rule} {dot : Nat} {symbol : Symbol} {target : State}

theorem Within.prepares (within : Within stack rule dot) (next : rule.rhs[dot]? = some symbol)
    (item : target.item? = some (rule, dot + 1)) : Prepares stack symbol target := by
  intro found place here
  cases item.symm.trans here
  exact ⟨dot, rfl, within, next⟩

theorem Sensible.within (sensible : Sensible stack) {current : State}
    (here : state stack = current) (item : current.item? = some (rule, dot)) :
    Within stack rule dot := by
  subst here
  match stack, sensible with
  | [], _ => cases item
  | entry :: rest, ⟨_, borne⟩ => exact borne rule dot item

theorem Sensible.cons (sensible : Sensible stack) (prepares : Prepares stack symbol target)
    (value : M symbol) : Sensible (⟨target, symbol, value⟩ :: stack) := by
  refine ⟨sensible, fun rule dot item => ?_⟩
  obtain ⟨before, rfl, within, next⟩ := prepares rule dot item
  exact within.advance next

theorem Sensible.suffix {deeper : Stack M} (sensible : Sensible stack) (part : deeper <:+ stack) :
    Sensible deeper := by
  induction stack with
  | nil => rwa [List.suffix_nil.mp part]
  | cons entry rest ih =>
      rcases List.suffix_cons_iff.mp part with rfl | inner
      · exact sensible
      · exact ih sensible.1 inner

/-! ### What states await -/

section Awaiting

variable (sensible : Sensible stack)

include sensible

/-- Behind declarations the list may go on. -/
theorem Sensible.more_statements {nest : Nest} (inside : state stack = .statements nest) :
    Within stack .moreStatements 1 := by
  cases nest with
  | program => exact (sensible.within inside rfl).longer .moreStatements rfl rfl
  | block => exact (sensible.within inside rfl).longer .moreStatements rfl rfl

theorem Sensible.awaits_declaration {nest : Nest} (inside : state stack = .statements nest) :
    Awaits stack (.nonterminal .declaration) :=
  (sensible.more_statements inside).awaits rfl

theorem Sensible.awaits_statement {current : State} {place : Place}
    (here : state stack = current) (awaits : current.place? = some place) :
    Awaits stack (.nonterminal .statement) := by
  cases current with
  | statements nest => exact (sensible.awaits_declaration here).first .ofStatement rfl
  | ifClose _ | elseWord _ | whileClose _ | forStep _ =>
      exact (sensible.within here rfl).awaits rfl
  | _ => cases awaits

/-- Where what ends an expression is settled, an expression is awaited. -/
theorem Sensible.awaits_expr {current : State} {ending : Ending}
    (here : state stack = current) (awaits : current.ending? = some ending) :
    Awaits stack (.nonterminal .expr) := by
  cases current with
  | statements _ | ifClose _ | elseWord _ | whileClose _ | forStep _ =>
      exact (sensible.awaits_statement here rfl).first .expression rfl
  | varEqual | printWord | returnWord | groupOpen | ifOpen _ | whileOpen _ | argumentComma
  | sign _ _ | operator _ _ => exact (sensible.within here rfl).awaits rfl
  | forOpen _ =>
      have clause : Awaits stack (.nonterminal .forInit) :=
        (sensible.within here rfl).awaits rfl
      exact clause.first .initExpr rfl
  | forInit _ =>
      have clause : Awaits stack (.nonterminal .forCond) :=
        (sensible.within here rfl).awaits rfl
      exact clause.first .someCond rfl
  | forCond _ =>
      have clause : Awaits stack (.nonterminal .forStep) :=
        (sensible.within here rfl).awaits rfl
      exact clause.first .someStep rfl
  | callOpen =>
      have given : Awaits stack (.nonterminal .argumentsOpt) :=
        (sensible.within here rfl).awaits rfl
      have some : Awaits stack (.nonterminal .arguments) := given.first .someArguments rfl
      exact some.first .firstArgument rfl
  | _ => cases awaits

end Awaiting

/-! ### After a phrase -/

theorem Awaits.statementGoto {next : State} {phrase : Nonterminal}
    (awaits : Awaits stack (.nonterminal .statement))
    (own : Prepares stack (.nonterminal .statement) next)
    (leads : State.statementGoto next phrase = some target) :
    Prepares stack (.nonterminal phrase) target := by
  cases phrase <;> cases leads
  case statement => exact own
  case block => exact (awaits.begins .ofBlock).prepares rfl rfl
  case expr => exact (awaits.begins .expression).prepares rfl rfl

/-- **A phrase leads to a state that the stack bears out.** -/
theorem Sensible.goto_prepares (sensible : Sensible stack) (rooted : Rooted stack)
    {phrase : Nonterminal} (leads : (state stack).goto? phrase = some target) :
    Prepares stack (.nonterminal phrase) target := by
  generalize here : state stack = current at leads
  cases current with
  | start =>
      obtain rfl := rooted.empty here
      cases phrase with
      | statements =>
          cases leads
          exact (Awaits.program.begins .program).prepares rfl rfl
      | program =>
          cases leads
          exact nofun
      | _ => cases leads
  | statements nest =>
      have awaits := sensible.awaits_declaration here
      cases phrase with
      | declaration =>
          cases leads
          exact (sensible.more_statements here).prepares rfl rfl
      | classDecl =>
          cases leads
          exact (awaits.begins .ofClass).prepares rfl rfl
      | funDecl =>
          cases leads
          exact (awaits.begins .ofFun).prepares rfl rfl
      | varDecl =>
          cases leads
          exact (awaits.begins .ofVar).prepares rfl rfl
      | _ =>
          have own : Prepares stack (.nonterminal .statement) (.done .ofStatement) :=
            (awaits.begins .ofStatement).prepares rfl rfl
          exact (awaits.first .ofStatement rfl).statementGoto own leads
  | classOpen | funWord | className | varEqual | printWord | sign _ _ | operator _ _ | groupOpen
  | argumentComma | ifOpen _ | whileOpen _ | paramsClose | blockOpen | returnWord =>
      cases phrase <;> cases leads
      exact (sensible.within here rfl).prepares rfl rfl
  | methods =>
      cases phrase <;> cases leads
      have within : Within stack .classDecl 5 := sensible.within here rfl
      exact (within.longer .moreMethods rfl rfl).prepares rfl rfl
  | paramsOpen =>
      have within : Within stack .function 2 := sensible.within here rfl
      have awaits : Awaits stack (.nonterminal .params) := within.awaits rfl
      cases phrase with
      | params =>
          cases leads
          exact within.prepares rfl rfl
      | paramList =>
          cases leads
          exact (awaits.begins .someParams).prepares rfl rfl
      | _ => cases leads
  | callOpen =>
      have within : Within stack .call 2 := sensible.within here rfl
      have given : Awaits stack (.nonterminal .argumentsOpt) := within.awaits rfl
      have some : Awaits stack (.nonterminal .arguments) := given.first .someArguments rfl
      cases phrase with
      | argumentsOpt =>
          cases leads
          exact within.prepares rfl rfl
      | arguments =>
          cases leads
          exact (given.begins .someArguments).prepares rfl rfl
      | expr =>
          cases leads
          exact (some.begins .firstArgument).prepares rfl rfl
      | _ => cases leads
  | ifClose _ | elseWord _ | whileClose _ | forStep _ =>
      refine (sensible.awaits_statement here rfl).statementGoto ?_ leads
      exact (sensible.within here rfl).prepares rfl rfl
  | forOpen _ =>
      have within : Within stack .forLoop 2 := sensible.within here rfl
      have clause : Awaits stack (.nonterminal .forInit) := within.awaits rfl
      cases phrase with
      | forInit =>
          cases leads
          exact within.prepares rfl rfl
      | varDecl =>
          cases leads
          exact (clause.begins .initVar).prepares rfl rfl
      | expr =>
          cases leads
          exact (clause.begins .initExpr).prepares rfl rfl
      | _ => cases leads
  | forInit _ =>
      have within : Within stack .forLoop 3 := sensible.within here rfl
      have clause : Awaits stack (.nonterminal .forCond) := within.awaits rfl
      cases phrase with
      | forCond =>
          cases leads
          exact within.prepares rfl rfl
      | expr =>
          cases leads
          exact (clause.begins .someCond).prepares rfl rfl
      | _ => cases leads
  | forCond _ =>
      have within : Within stack .forLoop 4 := sensible.within here rfl
      have clause : Awaits stack (.nonterminal .forStep) := within.awaits rfl
      cases phrase with
      | forStep =>
          cases leads
          exact within.prepares rfl rfl
      | expr =>
          cases leads
          exact (clause.begins .someStep).prepares rfl rfl
      | _ => cases leads
  | _ => cases phrase <;> cases leads

/-! ### After a token -/

section Tokens

variable {kind : Terminal} {place : Place}

theorem Awaits.operandShift {ending : Ending} (awaits : Awaits stack (.nonterminal .expr))
    (leads : State.operandShift ending kind = some target) :
    Prepares stack (.terminal kind) target := by
  unfold State.operandShift at leads
  split at leads <;> cases leads
  · exact (awaits.begins (.unary .not)).prepares rfl rfl
  · exact (awaits.begins (.unary .negative)).prepares rfl rfl
  · exact (awaits.begins .grouping).prepares rfl rfl
  · exact (awaits.begins .variable_).prepares rfl rfl
  · exact (awaits.begins .number).prepares rfl rfl
  · exact (awaits.begins .string).prepares rfl rfl
  · exact (awaits.begins .true_).prepares rfl rfl
  · exact (awaits.begins .false_).prepares rfl rfl
  · exact (awaits.begins .nil_).prepares rfl rfl
  · exact (awaits.begins .this).prepares rfl rfl
  · exact (awaits.begins .super).prepares rfl rfl

theorem Awaits.statementShift (awaits : Awaits stack (.nonterminal .statement))
    (leads : State.statementShift place kind = some target) :
    Prepares stack (.terminal kind) target := by
  unfold State.statementShift at leads
  split at leads
  case h_7 => exact (awaits.first .expression rfl).operandShift leads
  all_goals cases leads
  · exact (awaits.begins .print).prepares rfl rfl
  · exact (awaits.begins .returnValue).prepares rfl rfl
  · have block : Awaits stack (.nonterminal .block) := awaits.first .ofBlock rfl
    exact (block.begins .block).prepares rfl rfl
  · exact (awaits.begins .ifThen).prepares rfl rfl
  · exact (awaits.begins .whileLoop).prepares rfl rfl
  · exact (awaits.begins .forLoop).prepares rfl rfl

theorem Awaits.declarationShift {nest : Nest} (awaits : Awaits stack (.nonterminal .declaration))
    (leads : State.declarationShift nest kind = some target) :
    Prepares stack (.terminal kind) target := by
  unfold State.declarationShift at leads
  split at leads
  case h_5 => exact (awaits.first .ofStatement rfl).statementShift leads
  all_goals cases leads
  · have decl : Awaits stack (.nonterminal .classDecl) := awaits.first .ofClass rfl
    exact (decl.begins .classDecl).prepares rfl rfl
  · have decl : Awaits stack (.nonterminal .funDecl) := awaits.first .ofFun rfl
    exact (decl.begins .funDecl).prepares rfl rfl
  · have decl : Awaits stack (.nonterminal .varDecl) := awaits.first .ofVar rfl
    exact (decl.begins .varPlain).prepares rfl rfl
  · exact (awaits.begins .skipped).prepares rfl rfl

theorem terminal_of_ofTerminal? {op : Operator} (known : Operator.ofTerminal? kind = some op) :
    op.terminal = kind := by
  cases kind <;> cases known <;> rfl

section Continuing

variable {ending : Ending} (within : Within stack rule (dot + 1))
  (last : rule.rhs[dot]? = some (.nonterminal .expr))

include within last

theorem Within.postfixShift (leads : State.postfixShift kind = some target) :
    Prepares stack (.terminal kind) target := by
  unfold State.postfixShift at leads
  split at leads <;> cases leads
  · exact (within.longer .call last rfl).prepares rfl rfl
  · exact (within.longer .get last rfl).prepares rfl rfl

theorem Within.operatorShift {op : Operator} (known : Operator.ofTerminal? kind = some op) :
    Prepares stack (.terminal kind) (.operator ending op) := by
  rw [← terminal_of_ofTerminal? known]
  exact (within.longer (.binary op) last rfl).prepares rfl rfl

/-- What continues an expression is borne out where an expression was read last. -/
theorem Within.expressionShift (leads : State.expressionShift ending kind = some target) :
    Prepares stack (.terminal kind) target := by
  unfold State.expressionShift at leads
  split at leads
  · rename_i op known
    cases leads
    exact within.operatorShift last known
  · exact within.postfixShift last leads

theorem Within.afterValue {closer : Terminal} {next : State}
    (closes : Prepares stack (.terminal closer) next)
    (leads : State.afterValue ending closer next kind = some (.shift target)) :
    Prepares stack (.terminal kind) target := by
  unfold State.afterValue at leads
  split at leads
  · rename_i same
    cases leads
    rwa [same]
  · exact within.expressionShift last (State.shifting_eq_shift.mp leads)

theorem Within.afterArgument {whole : Rule}
    (leads : State.afterArgument whole kind = some (.shift target)) :
    Prepares stack (.terminal kind) target := by
  unfold State.afterArgument at leads
  split at leads
  · cases leads
  · exact within.expressionShift last (State.shifting_eq_shift.mp leads)

theorem Within.afterOperand {op : Operator}
    (leads : State.afterOperand ending op kind = some (.shift target)) :
    Prepares stack (.terminal kind) target := by
  unfold State.afterOperand at leads
  split at leads
  · rename_i next known
    split at leads <;> cases leads
    exact within.operatorShift last known
  · split at leads
    · cases leads
    · exact within.postfixShift last (State.shifting_eq_shift.mp leads)

theorem Within.afterSigned {s : Sign}
    (leads : State.afterSigned ending s kind = some (.shift target)) :
    Prepares stack (.terminal kind) target := by
  unfold State.afterSigned at leads
  split at leads
  · cases leads
  · exact within.postfixShift last (State.shifting_eq_shift.mp leads)

end Continuing

theorem Within.only {expected : Terminal} {next : State} (within : Within stack rule dot)
    (awaited : rule.rhs[dot]? = some (.terminal expected))
    (item : next.item? = some (rule, dot + 1))
    (leads : State.only expected next kind = some (.shift target)) :
    Prepares stack (.terminal kind) target := by
  unfold State.only at leads
  split at leads
  · rename_i same
    cases leads
    rw [same]
    exact within.prepares awaited item
  · cases leads

theorem Prepares.accept : Prepares stack symbol .accept := nofun

/-- A token behind declarations begins another one or ends the list. -/
theorem Sensible.list_prepares (sensible : Sensible stack) {nest : Nest}
    (inside : state stack = .statements nest)
    (leads : State.action (.statements nest) kind = some (.shift target)) :
    Prepares stack (.terminal kind) target := by
  have awaits := sensible.awaits_declaration inside
  by_cases closes : kind = nest.closer
  · subst closes
    cases nest with
    | program => cases leads
    | block =>
        cases leads
        exact (sensible.within inside rfl).prepares rfl rfl
  · have begins : State.shifting (State.declarationShift nest kind) = some (.shift target) := by
      rw [← leads]
      cases nest <;> exact (if_neg closes).symm
    exact awaits.declarationShift (State.shifting_eq_shift.mp begins)

/-- **A token leads to a state that the stack bears out.** -/
theorem Sensible.shift_prepares (sensible : Sensible stack)
    (leads : (state stack).action kind = some (.shift target)) :
    Prepares stack (.terminal kind) target := by
  generalize here : state stack = current at leads
  cases current with
  | start =>
      have never : (if State.continuesList .program kind then some (Action.reduce .noStatements)
        else none) = some (.shift target) := leads
      split at never <;> cases never
  | accept =>
      have last : (if kind = .eof then some (Action.shift .accept) else none) =
        some (.shift target) := leads
      split at last <;> cases last
      exact .accept
  | statements nest => exact sensible.list_prepares here leads
  | done _ | blockOpen | classOpen => cases leads
  | gap | classWord | superclassMark | superclass | functionName | params | paramComma
  | varWord | superWord | superDot | dot | argumentsOpt | ifWord _ | whileWord _
  | forWord _ =>
      exact (sensible.within here rfl).only rfl rfl leads
  | varEqual | printWord | sign _ _ | operator _ _ | groupOpen | argumentComma | ifOpen _
  | whileOpen _ =>
      exact (sensible.awaits_expr here rfl).operandShift (State.shifting_eq_shift.mp leads)
  | ifClose _ | elseWord _ | whileClose _ | forStep _ =>
      exact (sensible.awaits_statement here rfl).statementShift (State.shifting_eq_shift.mp leads)
  | varValue | printValue | returnValue | expression | groupValue | ifCond _ | whileCond _
  | forInitValue | forCondValue | forStepValue =>
      have within := sensible.within here rfl
      exact within.afterValue rfl (within.prepares rfl rfl) leads
  | signed _ _ =>
      exact (sensible.within here rfl).afterSigned rfl leads
  | operand _ _ =>
      exact (sensible.within here rfl).afterOperand rfl leads
  | firstArgument | nextArgument =>
      exact (sensible.within here rfl).afterArgument rfl leads
  | className =>
      have awaits : Awaits stack (.nonterminal .superclass) :=
        (sensible.within here rfl).awaits rfl
      cases kind <;> cases leads
      exact (awaits.begins .superclass).prepares rfl rfl
  | methods =>
      have within : Within stack .classDecl 5 := sensible.within here rfl
      have awaits : Awaits stack (.nonterminal .function) :=
        (within.longer .moreMethods rfl rfl).awaits rfl
      cases kind with
      | name =>
          cases leads
          exact (awaits.begins .function).prepares rfl rfl
      | braceClose =>
          cases leads
          exact within.prepares rfl rfl
      | _ => cases leads
  | funWord =>
      have awaits : Awaits stack (.nonterminal .function) :=
        (sensible.within here rfl).awaits rfl
      exact (awaits.begins .function).only rfl rfl leads
  | paramsOpen =>
      have awaits : Awaits stack (.nonterminal .params) :=
        (sensible.within here rfl).awaits rfl
      have list : Awaits stack (.nonterminal .paramList) := awaits.first .someParams rfl
      cases kind <;> cases leads
      exact (list.begins .firstParam).prepares rfl rfl
  | paramList =>
      have within : Within stack .someParams 1 := sensible.within here rfl
      cases kind <;> cases leads
      exact (within.longer .moreParams rfl rfl).prepares rfl rfl
  | paramsClose =>
      have awaits : Awaits stack (.nonterminal .block) :=
        (sensible.within here rfl).awaits rfl
      exact (awaits.begins .block).only rfl rfl leads
  | varName =>
      have within : Within stack .varPlain 2 := sensible.within here rfl
      cases kind with
      | semicolon =>
          cases leads
          exact within.prepares rfl rfl
      | equal =>
          cases leads
          exact (within.swap .varInit rfl rfl).prepares rfl rfl
      | _ => cases leads
  | returnWord =>
      have within : Within stack .returnValue 1 := sensible.within here rfl
      have awaits : Awaits stack (.nonterminal .expr) := within.awaits rfl
      cases kind with
      | semicolon =>
          cases leads
          exact (within.swap .returnNothing rfl rfl).prepares rfl rfl
      | _ => exact awaits.operandShift (State.shifting_eq_shift.mp leads)
  | arguments =>
      have within : Within stack .someArguments 1 := sensible.within here rfl
      cases kind <;> cases leads
      exact (within.longer .moreArguments rfl rfl).prepares rfl rfl
  | thenBranch place =>
      have within : Within stack .ifThen 5 := sensible.within here rfl
      by_cases other : kind = .else_
      · subst other
        cases leads
        exact (within.swap .ifElse rfl rfl).prepares rfl rfl
      · have never : (if State.continuesList place.nest kind then some (Action.reduce .ifThen)
          else none) = some (.shift target) := (if_neg other).symm.trans leads
        split at never <;> cases never
  | callOpen =>
      have awaits : Awaits stack (.nonterminal .expr) := sensible.awaits_expr here rfl
      cases kind with
      | parenClose => cases leads
      | _ => exact awaits.operandShift (State.shifting_eq_shift.mp leads)
  | forOpen _ =>
      have clause : Awaits stack (.nonterminal .forInit) :=
        (sensible.within here rfl).awaits rfl
      cases kind with
      | semicolon =>
          cases leads
          exact (clause.begins .noInit).prepares rfl rfl
      | var_ =>
          cases leads
          have decl : Awaits stack (.nonterminal .varDecl) := clause.first .initVar rfl
          exact (decl.begins .varPlain).prepares rfl rfl
      | _ => exact (clause.first .initExpr rfl).operandShift (State.shifting_eq_shift.mp leads)
  | forInit _ =>
      have clause : Awaits stack (.nonterminal .forCond) :=
        (sensible.within here rfl).awaits rfl
      cases kind with
      | semicolon =>
          cases leads
          exact (clause.begins .noCond).prepares rfl rfl
      | _ => exact (clause.first .someCond rfl).operandShift (State.shifting_eq_shift.mp leads)
  | forCond _ =>
      have clause : Awaits stack (.nonterminal .forStep) :=
        (sensible.within here rfl).awaits rfl
      cases kind with
      | parenClose =>
          cases leads
          exact (clause.begins .noStep).prepares rfl rfl
      | _ => exact (clause.first .someStep rfl).operandShift (State.shifting_eq_shift.mp leads)

end Tokens

/-! ### Steps -/

theorem push_sensible (sensible : Sensible stack) {kind : Terminal} {token : Token}
    (leads : (state stack).action kind = some (.shift target)) :
    Sensible (push σ target kind token stack) :=
  sensible.cons (sensible.shift_prepares leads) _

theorem reduce_sensible (sensible : Sensible stack) (rooted : Rooted stack) {reduced : Stack M}
    {complaints : List Complaint} (made : reduce σ rule stack = some (reduced, complaints)) :
    Sensible reduced := by
  unfold reduce at made
  split at made
  · cases made
  · rename_i values rest popped
    have part := pop_suffix rule.rhs popped
    have below := sensible.suffix part
    split at made
    · cases made
    · rename_i target leads
      cases made
      exact below.cons (below.goto_prepares (rooted.suffix part) leads) _

theorem seek_sensible (kind : Terminal) (limit : Nat) (sensible : Sensible stack)
    (rooted : Rooted stack) : Sensible (seek σ kind limit stack).stack := by
  induction limit generalizing stack with
  | zero => exact sensible
  | succ limit ih =>
      unfold seek
      split
      · exact sensible
      · exact sensible
      · split
        · exact sensible
        · rename_i made
          exact ih (reduce_sensible sensible rooted made) (reduce_rooted rooted made)

theorem settle_sensible (limit : Nat) (sensible : Sensible stack) (rooted : Rooted stack) :
    Sensible (settle σ limit stack).1 := by
  induction limit generalizing stack with
  | zero => exact sensible
  | succ limit ih =>
      unfold settle
      split
      · exact sensible
      · split
        · exact sensible
        · rename_i made
          exact ih (reduce_sensible sensible rooted made) (reduce_rooted rooted made)

end Stack

end Lox
