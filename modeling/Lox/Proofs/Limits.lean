/-
**Reading ends.** No limit on the number of reductions is ever what ends them, error or not.

* `Stack.reduces_wellFounded`: reductions that a token asks for come to an end on every stack.
* `Progress.Low` bounds the potential of what the automaton holds by the number of tokens read so
  far. Each token raises it by a constant at most. A gap is paid for by the tokens of the window
  behind it: the second one of them makes a declaration of the gap and its semicolon
  (`shiftAll_gap_potential`).
* `step_low` keeps the bound, and under it a larger limit changes nothing: `step_limit`,
  `steps_limit`.
-/

import Lox.Proofs.SyntaxErrors

namespace Lox

/-! ### Behind a gap -/

/-- A gap is read where a declaration may stand, and nowhere else. -/
theorem State.action_gap {state target : State}
    (leads : state.action .gap = some (.shift target)) : target = .gap := by
  unfold action at leads
  split at leads
  all_goals grind [only, afterValue, operandShift, postfixShift, expressionShift, statementShift,
    declarationShift, afterArgument, afterOperand, afterSigned, shifting, Operator.ofTerminal?]

/-- Nothing but a semicolon is read behind a gap. -/
theorem State.semicolon_of_gap {kind : Terminal} {target : State}
    (leads : State.gap.action kind = some (.shift target)) :
    kind = .semicolon ∧ target = .done .skipped := by
  have leads : only .semicolon (.done .skipped) kind = some (.shift target) := leads
  unfold only at leads
  split at leads
  · cases leads
    exact ⟨‹_›, rfl⟩
  · cases leads

namespace Stack

variable {M : Symbol → Type} {σ : Semantics M}

/-! ### Reductions end -/

/-- A token asks for a phrase to be made of what is on top of a stack. -/
def Reduces (σ : Semantics M) (kind : Terminal) (reduced stack : Stack M) : Prop :=
  ∃ rule complaints, (state stack).action kind = some (.reduce rule) ∧
    reduce σ rule stack = some (reduced, complaints)

/-- **Reductions come to an end** on every stack, whatever the token. -/
theorem reduces_wellFounded (σ : Semantics M) (kind : Terminal) :
    WellFounded (Reduces σ kind) := by
  refine Subrelation.wf ?_ (measure (potential (M := M))).wf
  rintro reduced stack ⟨rule, complaints, leads, made⟩
  exact reduce_potential (State.completed_of_action leads) made

/-- What a phrase made of the top of a stack leaves there. -/
theorem reduce_weigh {stack reduced : Stack M} {rule : Rule} {complaints : List Complaint}
    (made : reduce σ rule stack = some (reduced, complaints)) :
    potential reduced + weigh rule.rhs = rule.lhs.weight + weigh (symbols stack) := by
  unfold reduce at made
  split at made
  · cases made
  · rename_i values rest popped
    split at made
    · cases made
    · rename_i target leads
      cases made
      have top : (state (⟨target, .nonterminal rule.lhs, σ.node rule values⟩ :: rest)).extra = 0 :=
        State.extra_goto leads
      unfold potential
      rw [top, pop_weigh rule.rhs popped, symbols, List.map_cons, weigh_cons, symbols]
      show rule.lhs.weight + weigh (rest.map Entry.symbol) + 0 + _ = _
      omega

/-! ### Potentials -/

theorem weigh_le_potential (stack : Stack M) : weigh (symbols stack) ≤ potential stack :=
  Nat.le_add_right _ _

theorem potential_le_weigh (stack : Stack M) : potential stack ≤ weigh (symbols stack) + 2 :=
  Nat.add_le_add_left (State.extra_le _) _

theorem symbols_forget (stack : Stack M) : symbols (forget stack) = symbols stack := by
  rw [symbols, forget, List.map_map]
  rfl

theorem potential_forget (stack : Stack M) : potential (forget stack) = potential stack := by
  rw [potential, symbols_forget, state_forget, potential]

theorem weigh_suffix {stack deeper : Stack M} (part : deeper <:+ stack) :
    weigh (symbols deeper) ≤ weigh (symbols stack) := by
  induction stack with
  | nil => exact Nat.le_of_eq (by rw [List.suffix_nil.mp part])
  | cons entry rest ih =>
      rcases List.suffix_cons_iff.mp part with rfl | inner
      · exact Nat.le_refl _
      · exact Nat.le_trans (ih inner) (Nat.le_add_left _ _)

/-- Going back on a stack raises the potential by a constant at most. -/
theorem gapPoint_potential (limit : Nat) (culprit : Token) (stack : Stack M)
    (shape : Stack Shape) : potential (gapPoint limit culprit stack shape) ≤ potential stack + 2 :=
  calc potential (gapPoint limit culprit stack shape)
      ≤ weigh (symbols (gapPoint limit culprit stack shape)) + 2 := potential_le_weigh _
    _ ≤ weigh (symbols stack) + 2 :=
        Nat.add_le_add_right (weigh_suffix (gapPoint_suffix limit culprit stack shape)) 2
    _ ≤ potential stack + 2 := Nat.add_le_add_right (weigh_le_potential stack) 2

section Shifting

variable {limit : Nat} {kind : Terminal} {token : Token} {tokens : List Token}
  {stack shifted : Stack M} {complaints : List Complaint}

theorem shift_eq_some (read : shift σ limit kind token stack = some (shifted, complaints)) :
    ∃ target, (seek σ kind limit stack).target = some target ∧
      shifted = push σ target kind token (seek σ kind limit stack).stack := by
  obtain ⟨target, found, same⟩ := Option.map_eq_some_iff.mp read
  exact ⟨target, found, (Prod.mk.inj same).1.symm⟩

theorem shiftAll_cons
    (read : shiftAll σ limit (token :: tokens) stack = some (shifted, complaints)) :
    ∃ between first more, shift σ limit token.kind token stack = some (between, first) ∧
      shiftAll σ limit tokens between = some (shifted, more) := by
  unfold shiftAll at read
  split at read
  · cases read
  · rename_i between first once
    split at read
    · cases read
    · rename_i finished more rest
      cases read
      exact ⟨between, first, more, once, rest⟩

theorem shift_potential (read : shift σ limit kind token stack = some (shifted, complaints)) :
    potential shifted ≤ potential stack + 7 := by
  obtain ⟨target, _, rfl⟩ := shift_eq_some read
  exact Nat.le_trans (push_potential _ _ _ _)
    (Nat.add_le_add_right (seek_potential kind limit stack) 7)

theorem shiftAll_potential (read : shiftAll σ limit tokens stack = some (shifted, complaints)) :
    potential shifted ≤ potential stack + 7 * tokens.length := by
  induction tokens generalizing stack complaints with
  | nil =>
      cases read
      exact Nat.le_refl _
  | cons token more ih =>
      obtain ⟨between, _, _, once, rest⟩ := shiftAll_cons read
      have first := shift_potential once
      have others := ih rest
      rw [List.length_cons]
      omega

/-- A gap is read into the state that waits for its semicolon. -/
theorem shift_gap (read : shift σ limit .gap token stack = some (shifted, complaints)) :
    ∃ base : Stack M, shifted = push σ .gap .gap token base ∧ potential base ≤ potential stack := by
  obtain ⟨target, found, rfl⟩ := shift_eq_some read
  have gap := State.action_gap (seek_target .gap limit found)
  rw [gap]
  exact ⟨_, rfl, seek_potential .gap limit stack⟩

/-- **Only a semicolon is read behind a gap.** -/
theorem shift_behind_gap {culprit : Token}
    (read : shift σ limit token.kind token (push σ .gap .gap culprit stack) =
      some (shifted, complaints)) :
    token.kind = .semicolon ∧
      shifted = push σ (.done .skipped) .semicolon token (push σ .gap .gap culprit stack) := by
  obtain ⟨target, found, rfl⟩ := shift_eq_some read
  cases limit with
  | zero => cases found
  | succ limit =>
      unfold seek at found ⊢
      split at found
      · cases found
      · rename_i next leads
        cases found
        obtain ⟨kind, rfl⟩ := State.semicolon_of_gap leads
        refine ⟨kind, ?_⟩
        rw [kind]
      · rename_i rule leads
        have waits : State.only .semicolon (.done .skipped) token.kind = some (.reduce rule) :=
          leads
        unfold State.only at waits
        split at waits <;> cases waits

/-- The token behind a gap and its semicolon makes a declaration of them first. -/
theorem shift_skipped_potential {culprit semi : Token}
    (read : shift σ limit kind token (push σ (.done .skipped) .semicolon semi
      (push σ .gap .gap culprit stack)) = some (shifted, complaints)) :
    potential shifted ≤ potential stack + 8 := by
  obtain ⟨target, found, rfl⟩ := shift_eq_some read
  refine Nat.le_trans (push_potential _ _ _ _) (Nat.add_le_add_right ?_ 7)
  have base := weigh_le_potential stack
  cases limit with
  | zero => cases found
  | succ limit =>
      unfold seek at found ⊢
      have leads : (state (push σ (.done .skipped) .semicolon semi
        (push σ .gap .gap culprit stack))).action kind = some (.reduce .skipped) := rfl
      rw [leads] at found ⊢
      simp only at found ⊢
      split at found
      · cases found
      · rename_i reduced _ made
        have sunk := seek_potential (σ := σ) kind limit reduced
        have left : potential reduced + 10 = 1 + (5 + (5 + weigh (symbols stack))) :=
          reduce_weigh made
        refine Nat.le_trans sunk ?_
        omega

/-- **A gap costs nothing** once two tokens have been read behind it. -/
theorem shiftAll_gap_potential {culprit first second : Token}
    (read : shiftAll σ limit (first :: second :: tokens) (push σ .gap .gap culprit stack) =
      some (shifted, complaints)) :
    potential shifted ≤ potential stack + 8 + 7 * tokens.length := by
  obtain ⟨opened, _, _, once, rest⟩ := shiftAll_cons read
  obtain ⟨between, _, _, twice, others⟩ := shiftAll_cons rest
  obtain ⟨_, rfl⟩ := shift_behind_gap once
  have two := shift_skipped_potential twice
  have more := shiftAll_potential others
  omega

end Shifting

/-! ### A larger limit changes nothing -/

section Larger

variable {limit larger : Nat} (enough : limit ≤ larger)

include enough

theorem seek_limit (kind : Terminal) {stack : Stack M} (room : potential stack < limit) :
    seek σ kind larger stack = seek σ kind limit stack := by
  induction limit generalizing larger stack with
  | zero => exact absurd room (Nat.not_lt_zero _)
  | succ limit ih =>
      obtain ⟨larger, rfl⟩ := Nat.exists_eq_add_of_le' enough
      rw [← Nat.add_assoc] at enough ⊢
      rw [seek, seek]
      cases leads : (state stack).action kind with
      | none => rfl
      | some action =>
          cases action with
          | shift target => rfl
          | reduce rule =>
              cases made : reduce σ rule stack with
              | none => simp only [made]
              | some found =>
                  obtain ⟨reduced, complaints⟩ := found
                  have lower := reduce_potential (State.completed_of_action leads) made
                  simp only [made]
                  rw [ih (Nat.le_of_succ_le_succ enough) (by omega)]

theorem settle_limit {stack : Stack M} (room : potential stack < limit) :
    settle σ larger stack = settle σ limit stack := by
  induction limit generalizing larger stack with
  | zero => exact absurd room (Nat.not_lt_zero _)
  | succ limit ih =>
      obtain ⟨larger, rfl⟩ := Nat.exists_eq_add_of_le' enough
      rw [← Nat.add_assoc] at enough ⊢
      rw [settle, settle]
      cases settled : (state stack).settled? with
      | none => rfl
      | some rule =>
          cases made : reduce σ rule stack with
          | none => simp only [made]
          | some found =>
              obtain ⟨reduced, complaints⟩ := found
              have leads := State.action_of_settled settled .eof
              have lower := reduce_potential (State.completed_of_action leads) made
              simp only [made]
              rw [ih (Nat.le_of_succ_le_succ enough) (by omega)]

theorem shift_limit (kind : Terminal) (token : Token) {stack : Stack M}
    (room : potential stack < limit) :
    shift σ larger kind token stack = shift σ limit kind token stack := by
  rw [shift, shift, seek_limit enough kind room]

theorem shiftAll_limit (tokens : List Token) {stack : Stack M}
    (room : potential stack + 7 * tokens.length < limit) :
    shiftAll σ larger tokens stack = shiftAll σ limit tokens stack := by
  induction tokens generalizing stack with
  | nil => rfl
  | cons token more ih =>
      rw [List.length_cons] at room
      rw [shiftAll, shiftAll, shift_limit enough token.kind token (by omega)]
      cases once : shift σ limit token.kind token stack with
      | none => rfl
      | some found =>
          obtain ⟨shifted, complaints⟩ := found
          have raised := shift_potential once
          simp only
          rw [ih (by omega)]

theorem gapPoint_limit (culprit : Token) (stack : Stack M) (shape : Stack Shape)
    (room : weigh (symbols shape) + 2 < limit) :
    gapPoint larger culprit stack shape = gapPoint limit culprit stack shape := by
  induction stack generalizing shape with
  | nil => rfl
  | cons entry rest ih =>
      have low := potential_le_weigh shape
      have below := weigh_suffix (List.tail_suffix shape)
      rw [gapPoint, gapPoint, shift_limit enough .gap culprit (by omega), ih _ (by omega)]

end Larger

end Stack

/-! ### Bounds along a run -/

namespace Progress

open Mode

variable {M : Symbol → Type} {σ : Semantics M}

/-- What the automaton holds after a number of tokens has a potential that the number bounds. -/
def Low (count : Nat) : Mode M → Prop
  | .reading stack => stack.potential ≤ 2 + 7 * count
  | .skipping stack trial _ window =>
      window.length < windowSize ∧ ∃ before, before + window.length ≤ count ∧
        stack.potential ≤ 4 + 7 * before ∧ trial.potential ≤ 11 + 7 * before
  | .accepted _ | .lost => True

theorem finish_low (count : Nat) (stack : Stack M) (complaints : Array Complaint) :
    Low count (finish stack complaints).mode := by
  unfold finish
  split <;> trivial

theorem atEnd_cons {token next : Token} {more : List Token} (ends : atEnd (token :: next :: more)) :
    atEnd (next :: more) := by
  rwa [atEnd, List.getLast?_cons_cons] at ends

section Skipping

variable {limit larger before count : Nat} {stack : Stack M} {trial : Stack Shape} (culprit : Token)
  {window : List Token} (complaints : Array Complaint)

theorem resume_low (low : stack.potential ≤ 4 + 7 * before)
    (full : atEnd window ∨ windowSize ≤ window.length) (later : before + window.length ≤ count) :
    Low count (resume σ limit stack culprit window complaints).mode := by
  unfold resume
  split
  · trivial
  · rename_i gapped first once
    split
    · trivial
    · rename_i resumed more rest
      split
      · exact finish_low count resumed _
      · rename_i inner
        have long := full.resolve_left inner
        obtain ⟨base, rfl, deep⟩ := Stack.shift_gap once
        cases window with
        | nil => cases long
        | cons semi window =>
            cases window with
            | nil => exact absurd (show 3 ≤ 1 from long) (by decide)
            | cons second others =>
                have raised := Stack.shiftAll_gap_potential rest
                rw [List.length_cons, List.length_cons] at later
                show resumed.potential ≤ _
                omega

theorem resumeAtEnd_low (low : stack.potential ≤ 4 + 7 * before) (ends : atEnd window)
    (later : before + window.length ≤ count) :
    Low count (resumeAtEnd σ limit stack trial culprit complaints window).mode := by
  induction window with
  | nil => trivial
  | cons token more ih =>
      unfold resumeAtEnd
      split
      · exact resume_low culprit complaints low (.inl ends) later
      · cases more with
        | nil => trivial
        | cons next more =>
            refine ih (atEnd_cons ends) ?_
            rw [List.length_cons] at later
            omega

theorem skip_low (low : stack.potential ≤ 4 + 7 * before)
    (tried : trial.potential ≤ 11 + 7 * before) (short : window.length ≤ windowSize)
    (later : before + window.length ≤ count) :
    Low count (skip σ limit stack trial culprit window complaints).mode := by
  unfold skip
  split
  · rename_i ends
    exact resumeAtEnd_low culprit complaints low ends later
  split
  · rename_i shorter
    exact ⟨shorter, before, later, low, tried⟩
  · rename_i long
    split
    · exact resume_low culprit complaints low (.inr (Nat.le_of_not_lt long)) later
    · have shorter : window.tail.length < windowSize := by
        rw [List.length_tail]
        unfold windowSize at short ⊢
        omega
      refine ⟨shorter, before, ?_, low, tried⟩
      rw [List.length_tail]
      omega

variable (enough : limit ≤ larger)

include enough

theorem readable_limit (room : trial.potential + 7 * window.length < limit) :
    readable larger trial window = readable limit trial window := by
  rw [readable, readable, Stack.shiftAll_limit enough window room]

theorem resume_limit (room : stack.potential + 7 + 7 * window.length < limit) :
    resume σ larger stack culprit window complaints =
      resume σ limit stack culprit window complaints := by
  rw [resume, resume, Stack.shift_limit enough .gap culprit (by omega)]
  cases once : Stack.shift σ limit .gap culprit stack with
  | none => rfl
  | some found =>
      obtain ⟨gapped, first⟩ := found
      have raised := Stack.shift_potential once
      simp only
      rw [Stack.shiftAll_limit enough window (by omega)]

theorem resumeAtEnd_limit (tried : trial.potential + 7 * window.length < limit)
    (room : stack.potential + 7 + 7 * window.length < limit) :
    resumeAtEnd σ larger stack trial culprit complaints window =
      resumeAtEnd σ limit stack trial culprit complaints window := by
  induction window with
  | nil => rfl
  | cons token more ih =>
      rw [resumeAtEnd, resumeAtEnd, readable_limit enough tried,
        resume_limit culprit complaints enough room]
      rw [List.length_cons] at tried room
      rw [ih (by omega) (by omega)]

theorem skip_limit (tried : trial.potential + 7 * window.length < limit)
    (room : stack.potential + 7 + 7 * window.length < limit) :
    skip σ larger stack trial culprit window complaints =
      skip σ limit stack trial culprit window complaints := by
  rw [skip, skip, resumeAtEnd_limit culprit complaints enough tried room,
    readable_limit enough tried, resume_limit culprit complaints enough room]

end Skipping

section Reading

variable {limit larger count : Nat} {stack : Stack M} (culprit : Token)
  (complaints : Array Complaint) (low : stack.potential ≤ 2 + 7 * count)

include low

theorem recover_low : Low (count + 1) (recover σ limit stack culprit complaints).mode := by
  unfold recover
  simp only
  split
  · trivial
  · rename_i trial _ once
    have deep := Stack.gapPoint_potential limit culprit stack stack.forget
    have raised := Stack.shift_potential once
    rw [Stack.potential_forget] at raised
    have tried : trial.potential ≤ 11 + 7 * count := by omega
    exact skip_low culprit _ (by omega) tried (Nat.le_add_left 1 2) (Nat.le_refl _)

theorem recover_limit (enough : limit ≤ larger) (room : 18 + 7 * count < limit) :
    recover σ larger stack culprit complaints = recover σ limit stack culprit complaints := by
  have deep := Stack.gapPoint_potential limit culprit stack stack.forget
  have light := Stack.weigh_le_potential stack
  rw [recover, recover,
    Stack.gapPoint_limit enough culprit stack stack.forget (by rw [Stack.symbols_forget]; omega),
    Stack.shift_limit enough .gap culprit (by rw [Stack.potential_forget]; omega)]
  cases once : Stack.shift .shape limit .gap culprit
      (Stack.gapPoint limit culprit stack stack.forget).forget with
  | none => rfl
  | some found =>
      obtain ⟨trial, _⟩ := found
      have raised := Stack.shift_potential once
      rw [Stack.potential_forget] at raised
      simp only
      exact skip_limit culprit _ enough (by simp; omega) (by simp; omega)

end Reading

/-- **One token** keeps the bound. -/
theorem step_low {limit count : Nat} {progress : Progress M} (next : Feed)
    (low : Low count progress.mode) : Low (count + 1) (step σ limit progress next).mode := by
  unfold step
  split
  · rename_i stack reading
    rw [reading] at low
    have sunk := Stack.seek_potential (σ := σ) next.token.kind limit stack
    have still := Nat.le_trans sunk low
    simp only
    split
    · exact recover_low next.token _ still
    · rename_i target found
      split
      · exact finish_low _ _ _
      · have pushed := Stack.push_potential (σ := σ) target next.token.kind next.token
          (Stack.seek σ next.token.kind limit stack).stack
        have settled := Stack.settle_potential (σ := σ) limit (Stack.push σ target next.token.kind
          next.token (Stack.seek σ next.token.kind limit stack).stack)
        show Stack.potential _ ≤ _
        omega
  · rename_i stack trial culprit window skipping
    rw [skipping] at low
    obtain ⟨short, before, later, low, tried⟩ := low
    refine skip_low culprit _ low tried ?_ ?_
    · rw [List.length_append]
      exact short
    · rw [List.length_append, List.length_singleton]
      omega
  · trivial
  · trivial

/-- **One token under the bound**: a larger limit changes nothing. -/
theorem step_limit {limit larger count : Nat} {progress : Progress M} (next : Feed)
    (enough : limit ≤ larger) (room : 18 + 7 * count < limit) (low : Low count progress.mode) :
    step σ larger progress next = step σ limit progress next := by
  unfold step
  cases mode : progress.mode with
  | reading stack =>
      rw [mode] at low
      have low : stack.potential ≤ 2 + 7 * count := low
      have sunk := Stack.seek_potential (σ := σ) next.token.kind limit stack
      simp only
      rw [Stack.seek_limit enough next.token.kind (by omega)]
      cases (Stack.seek σ next.token.kind limit stack).target with
      | none => exact recover_limit next.token _ (Nat.le_trans sunk low) enough room
      | some target =>
          have pushed := Stack.push_potential (σ := σ) target next.token.kind next.token
            (Stack.seek σ next.token.kind limit stack).stack
          simp only
          rw [Stack.settle_limit enough (by omega)]
  | skipping stack trial culprit window =>
      rw [mode] at low
      obtain ⟨short, before, later, low, tried⟩ := low
      have length : (window ++ [next.token]).length = window.length + 1 := List.length_append
      exact skip_limit culprit _ enough (by omega) (by omega)
  | accepted value => rfl
  | lost => rfl

/-- **All tokens of a text**: a larger limit changes nothing. -/
theorem steps_limit {limit larger : Nat} (tokens : List Feed) (enough : limit ≤ larger)
    {count : Nat} (room : 11 + 7 * (count + tokens.length) < limit) {progress : Progress M}
    (low : Low count progress.mode) :
    tokens.foldl (step σ larger) progress = tokens.foldl (step σ limit) progress := by
  induction tokens generalizing progress count with
  | nil => rfl
  | cons next more ih =>
      rw [List.length_cons] at room
      rw [List.foldl_cons, List.foldl_cons, step_limit next enough (by omega) low]
      exact ih (by omega) (step_low next low)

end Progress

/-- **The limit is never reached**: reading a text with a larger one comes to the same. -/
theorem read_limit (σ : Semantics M) (tokens : List Feed) {larger : Nat}
    (enough : reductionLimit tokens.length ≤ larger) :
    tokens.foldl (Progress.step σ larger) ⟨.reading [], #[]⟩ =
      tokens.foldl (Progress.step σ (reductionLimit tokens.length)) ⟨.reading [], #[]⟩ := by
  have start : Progress.Low (M := M) 0 (.reading []) := Nat.le_refl _
  refine Progress.steps_limit tokens enough ?_ start
  unfold reductionLimit
  omega

end Lox
