/-
**Reductions end.** The limit on the number of reductions is never what ends them.

* `Stack.potential` weighs what lies on a stack. Making a phrase lowers it (`reduce_potential`), and
  reading a token raises it by a constant at most (`push_potential`).
* Neither looking for a shift (`seek_potential`) nor making phrases that are whole
  (`settle_potential`) raises it, so a limit above the potential is not reached.
-/

import Lox.Proofs.Reading

namespace Lox

/-! ### Weights -/

/-- What a phrase weighs on the stack: less than what any rule makes it of. -/
def Nonterminal.weight : Nonterminal → Nat
  | .block => 3
  | .expr | .statement | .classDecl | .funDecl | .varDecl => 2
  | .statements | .declaration | .function | .arguments | .paramList => 1
  | _ => 0

/-- What a symbol weighs on the stack. -/
def Symbol.weight : Symbol → Nat
  | .terminal _ => 5
  | .nonterminal phrase => phrase.weight

/-- What symbols weigh together. -/
def weigh : List Symbol → Nat
  | [] => 0
  | symbol :: more => symbol.weight + weigh more

@[simp] theorem weigh_nil : weigh [] = 0 := rfl

@[simp] theorem weigh_cons (symbol : Symbol) (more : List Symbol) :
    weigh (symbol :: more) = symbol.weight + weigh more :=
  rfl

/-- What a state adds in which a phrase can be made of nothing. -/
def State.extra : State → Nat
  | .start | .blockOpen => 2
  | .className | .classOpen | .paramsOpen | .callOpen => 1
  | .done rule => if rule.rhs = [] then 2 else 0
  | _ => 0

theorem Rule.weight_lt_two {rule : Rule} (empty : rule.rhs = []) : rule.lhs.weight < 2 := by
  cases rule <;> simp_all [lhs, rhs, Nonterminal.weight]

theorem Rule.weight_lt (rule : Rule) (parts : rule.rhs ≠ []) :
    rule.lhs.weight < weigh rule.rhs := by
  cases rule <;> simp_all [lhs, rhs, Nonterminal.weight, Symbol.weight]

namespace State

theorem extra_le (state : State) : state.extra ≤ 2 := by
  unfold extra
  split <;> try omega
  split <;> omega

@[grind →]
theorem extra_declarationGoto {target : State} {phrase : Nonterminal}
    (leads : declarationGoto phrase = some target) : target.extra = 0 := by
  cases phrase <;> cases leads <;> rfl

/-- No state after a phrase waits for a phrase made of nothing. -/
theorem extra_goto {state target : State} {phrase : Nonterminal}
    (leads : state.goto? phrase = some target) : target.extra = 0 := by
  have done (rule : Rule) (parts : rule.rhs ≠ []) : (State.done rule).extra = 0 := if_neg parts
  unfold goto? at leads
  split at leads
  all_goals grind [extra, Rule.rhs]

/-- The rule by which the automaton makes a phrase in a state, if it does. -/
def completed? : State → Option Rule
  | start | blockOpen => some .noStatements
  | statements .program => some .program
  | done rule => some rule
  | className => some .noSuperclass
  | classOpen => some .noMethods
  | paramsOpen => some .noParams
  | paramList => some .someParams
  | signed _ s => some (.unary s)
  | operand _ op => some (.binary op)
  | callOpen => some .noArguments
  | arguments => some .someArguments
  | firstArgument => some .firstArgument
  | nextArgument => some .moreArguments
  | thenBranch _ => some .ifThen
  | _ => none

theorem shifting_ne_reduce {leads : Option State} {rule : Rule} :
    shifting leads ≠ some (.reduce rule) := by
  cases leads <;> simp [shifting]

/-- **A state makes phrases by one rule at most**, whatever the next token is. -/
theorem completed_of_action {state : State} {kind : Terminal} {rule : Rule}
    (leads : state.action kind = some (.reduce rule)) : state.completed? = some rule := by
  unfold action at leads
  split at leads
  all_goals simp only [completed?]
  all_goals grind [only, afterValue, shifting_ne_reduce, afterArgument, afterOperand, afterSigned]

/-- A state that is reduced before the next token is looked at is reduced by the same rule
whatever the token. -/
theorem action_of_settled {state : State} {rule : Rule} (settled : state.settled? = some rule)
    (kind : Terminal) : state.action kind = some (.reduce rule) := by
  cases state <;> cases settled <;> rfl

/-- Where the automaton makes a phrase, what it makes it of weighs more. -/
theorem weight_lt_of_completed {state : State} {rule : Rule} (ends : state.completed? = some rule) :
    rule.lhs.weight < weigh rule.rhs + state.extra := by
  by_cases parts : rule.rhs = []
  · rw [parts, weigh_nil, Nat.zero_add]
    cases state with
    | done found =>
        cases ends
        rw [extra, if_pos parts]
        exact Rule.weight_lt_two parts
    | statements nest =>
        cases nest <;> cases ends
        cases parts
    | start | blockOpen | className | classOpen | paramsOpen | callOpen => cases ends; decide
    | _ => cases ends <;> cases parts
  · exact Nat.lt_of_lt_of_le (rule.weight_lt parts) (Nat.le_add_right _ _)

end State

/-! ### Stacks -/

namespace Stack

variable {M : Symbol → Type} {σ : Semantics M}

/-- What lies on a stack, weighed together with what the state on top adds. -/
def potential (stack : Stack M) : Nat :=
  weigh (symbols stack) + (state stack).extra

theorem pop_weigh (shape : List Symbol) {stack rest : Stack M} {values : Values M shape}
    (popped : pop shape stack = some (values, rest)) :
    weigh (symbols stack) = weigh shape + weigh (symbols rest) := by
  induction shape generalizing rest with
  | nil =>
      cases popped
      rw [weigh_nil, Nat.zero_add]
  | cons symbol more ih =>
      unfold pop at popped
      split at popped
      · cases popped
      · cases popped
      · rename_i others entry deeper inner
        split at popped
        · rename_i same
          cases popped
          have below := ih inner
          rw [below, weigh_cons, symbols, List.map_cons, weigh_cons, same, symbols]
          omega
        · cases popped

/-- **Making a phrase lowers the potential.** -/
theorem reduce_potential {stack reduced : Stack M} {rule : Rule} {complaints : List Complaint}
    (ends : (state stack).completed? = some rule)
    (made : reduce σ rule stack = some (reduced, complaints)) :
    potential reduced < potential stack := by
  unfold reduce at made
  split at made
  · cases made
  · rename_i values rest popped
    split at made
    · cases made
    · rename_i target leads
      cases made
      have lighter := State.weight_lt_of_completed ends
      have top : (state (⟨target, .nonterminal rule.lhs, σ.node rule values⟩ :: rest)).extra = 0 :=
        State.extra_goto leads
      unfold potential
      rw [top, pop_weigh rule.rhs popped, symbols, List.map_cons, weigh_cons, symbols]
      show rule.lhs.weight + weigh (rest.map Entry.symbol) + 0 < _
      omega

/-- Reading a token raises the potential by a constant at most. -/
theorem push_potential (target : State) (kind : Terminal) (token : Token) (stack : Stack M) :
    potential (push σ target kind token stack) ≤ potential stack + 7 := by
  have top := target.extra_le
  unfold potential
  rw [push, symbols, List.map_cons, weigh_cons, symbols]
  show 5 + weigh (stack.map Entry.symbol) + target.extra ≤ _
  omega

/-- Looking for a shift does not raise the potential. -/
theorem seek_potential (kind : Terminal) (limit : Nat) (stack : Stack M) :
    potential (seek σ kind limit stack).stack ≤ potential stack := by
  induction limit generalizing stack with
  | zero => exact Nat.le_refl _
  | succ limit ih =>
      unfold seek
      split
      · exact Nat.le_refl _
      · exact Nat.le_refl _
      · rename_i rule leads
        split
        · exact Nat.le_refl _
        · rename_i reduced complaints made
          have lower := reduce_potential (State.completed_of_action leads) made
          exact Nat.le_trans (ih reduced) (Nat.le_of_lt lower)

/-- Making phrases that are whole does not raise the potential. -/
theorem settle_potential (limit : Nat) (stack : Stack M) :
    potential (settle σ limit stack).1 ≤ potential stack := by
  induction limit generalizing stack with
  | zero => exact Nat.le_refl _
  | succ limit ih =>
      unfold settle
      split
      · exact Nat.le_refl _
      · rename_i rule settled
        split
        · exact Nat.le_refl _
        · rename_i reduced complaints made
          have leads := State.action_of_settled settled .eof
          have lower := reduce_potential (State.completed_of_action leads) made
          exact Nat.le_trans (ih reduced) (Nat.le_of_lt lower)

end Stack

end Lox
