/-
**Reading a text.** What holds of the automaton however far it has come.

* `Progress.Sound` is the invariant: the stack holds the values of derivations that read tokens of
  the text in their order. As long as nothing has been objected to they have read all of them.
* `step_sound` keeps it token by token, `steps_sound` over a whole text.
* `readProgram_sound`: the program that is read has a derivation; `readProgram_clean`: if nothing is
  objected to there is one, and it reads the whole text.

The states matter at one point only: at the end of a text without errors nothing but a program is
left on the stack (`Stack.Rooted`).
-/

import Lox.Proofs.Derivation

namespace Lox

/-! ### The first and the last state -/

namespace State

/-- A state that is neither the first nor the last one. -/
def Inner (state : State) : Prop :=
  state ≠ .start ∧ state ≠ .accept

variable {kind : Terminal} {target : State}

@[grind →]
theorem operandShift_inner {ending : Ending} (leads : operandShift ending kind = some target) :
    target.Inner := by
  unfold operandShift at leads
  split at leads <;> cases leads <;> simp [Inner]

@[grind →]
theorem postfixShift_inner (leads : postfixShift kind = some target) : target.Inner := by
  unfold postfixShift at leads
  split at leads <;> cases leads <;> simp [Inner]

@[grind →]
theorem expressionShift_inner {ending : Ending}
    (leads : expressionShift ending kind = some target) : target.Inner := by
  unfold expressionShift at leads
  split at leads
  · cases leads
    simp [Inner]
  · exact postfixShift_inner leads

@[grind →]
theorem statementShift_inner {place : Place} (leads : statementShift place kind = some target) :
    target.Inner := by
  unfold statementShift at leads
  split at leads
  case h_7 => exact operandShift_inner leads
  all_goals
    cases leads
    simp [Inner]

@[grind →]
theorem declarationShift_inner {nest : Nest} (leads : declarationShift nest kind = some target) :
    target.Inner := by
  unfold declarationShift at leads
  split at leads
  case h_5 => exact statementShift_inner leads
  all_goals
    cases leads
    simp [Inner]

@[grind =]
theorem shifting_eq_shift {leads : Option State} :
    shifting leads = some (.shift target) ↔ leads = some target := by
  simp [shifting]

@[grind →]
theorem afterArgument_inner {rule : Rule} (leads : afterArgument rule kind = some (.shift target)) :
    target.Inner := by
  unfold afterArgument at leads
  split at leads
  · cases leads
  · exact expressionShift_inner (shifting_eq_shift.mp leads)

@[grind →]
theorem afterOperand_inner {ending : Ending} {op : Operator}
    (leads : afterOperand ending op kind = some (.shift target)) : target.Inner := by
  unfold afterOperand at leads
  split at leads
  · split at leads <;> cases leads
    simp [Inner]
  · split at leads
    · cases leads
    · exact postfixShift_inner (shifting_eq_shift.mp leads)

@[grind →]
theorem afterSigned_inner {ending : Ending} {sign : Sign}
    (leads : afterSigned ending sign kind = some (.shift target)) : target.Inner := by
  unfold afterSigned at leads
  split at leads
  · cases leads
  · exact postfixShift_inner (shifting_eq_shift.mp leads)

/-- A token inside the text leads to an inner state. -/
theorem action_inner {state : State} (leads : state.action kind = some (.shift target))
    (inside : kind ≠ .eof) : target.Inner := by
  unfold action at leads
  split at leads
  all_goals grind [Inner, only, afterValue]

/-- Only a whole program is followed by the end of the text. -/
theorem action_eof {state : State} (closing : kind = .eof)
    (leads : state.action kind = some (.shift target)) : state = .accept := by
  subst closing
  unfold action at leads
  split at leads
  all_goals grind [only, afterValue, operandShift, postfixShift, expressionShift, statementShift,
    declarationShift, afterArgument, afterOperand, afterSigned, Operator.ofTerminal?]

@[grind →]
theorem valueGoto_eq {next : State} {phrase : Nonterminal}
    (leads : valueGoto next phrase = some target) : target = next := by
  cases phrase <;> cases leads
  rfl

@[grind →]
theorem statementGoto_eq {next : State} {phrase : Nonterminal}
    (leads : statementGoto next phrase = some target) :
    target = next ∨ target = done .ofBlock ∨ target = expression := by
  cases phrase <;> cases leads <;> simp

@[grind →]
theorem declarationGoto_inner {phrase : Nonterminal}
    (leads : declarationGoto phrase = some target) : target.Inner := by
  cases phrase <;> cases leads <;> simp [Inner]

/-- A phrase leads to an inner state, except for the program on an empty stack. -/
theorem goto_inner {state : State} {phrase : Nonterminal}
    (leads : state.goto? phrase = some target) :
    target.Inner ∨ (state = .start ∧ phrase = .program ∧ target = .accept) := by
  unfold goto? at leads
  split at leads
  all_goals grind [Inner]

end State

variable {M : Symbol → Type} {σ : Semantics M}

namespace Stack

/-- A stack with inner states only, or with a program alone. -/
def Rooted : Stack M → Prop
  | [] => True
  | entry :: rest => Rooted rest ∧ (entry.state.Inner ∨
      rest = [] ∧ entry.state = .accept ∧ entry.symbol = .nonterminal .program)

theorem Rooted.suffix {stack deeper : Stack M} (rooted : Rooted stack) (part : deeper <:+ stack) :
    Rooted deeper := by
  induction stack with
  | nil => rwa [List.suffix_nil.mp part]
  | cons entry rest ih =>
      rcases List.suffix_cons_iff.mp part with rfl | inner
      · exact rooted
      · exact ih rooted.1 inner

theorem Rooted.empty {stack : Stack M} (rooted : Rooted stack) (first : state stack = .start) :
    stack = [] := by
  match stack, rooted with
  | [], _ => rfl
  | entry :: rest, ⟨_, inner⟩ =>
      have first : entry.state = .start := first
      rcases inner with inner | ⟨_, accepting, _⟩
      · exact absurd first inner.1
      · rw [first] at accepting
        cases accepting

theorem Rooted.program {stack : Stack M} (rooted : Rooted stack) (last : state stack = .accept) :
    ∃ value, stack = [⟨.accept, .nonterminal .program, value⟩] := by
  match stack, rooted with
  | ⟨_, symbol, value⟩ :: rest, ⟨_, inner⟩ =>
      cases last
      rcases inner with inner | ⟨alone, _, named⟩
      · exact absurd rfl inner.2
      · cases named
        rw [alone]
        exact ⟨value, rfl⟩

theorem pop_suffix (shape : List Symbol) {stack rest : Stack M} {values : Values M shape}
    (popped : pop shape stack = some (values, rest)) : rest <:+ stack := by
  induction shape generalizing rest with
  | nil =>
      cases popped
      exact List.suffix_rfl
  | cons symbol more ih =>
      unfold pop at popped
      split at popped
      · cases popped
      · cases popped
      · rename_i others entry deeper inner
        split at popped
        · cases popped
          exact (List.suffix_cons entry _).trans (ih inner)
        · cases popped

theorem reduce_rooted {stack reduced : Stack M} (rooted : Rooted stack) {rule : Rule}
    {complaints : List Complaint} (made : reduce σ rule stack = some (reduced, complaints)) :
    Rooted reduced := by
  unfold reduce at made
  split at made
  · cases made
  · rename_i values rest popped
    have below := rooted.suffix (pop_suffix rule.rhs popped)
    split at made
    · cases made
    · rename_i target leads
      cases made
      refine ⟨below, ?_⟩
      rcases State.goto_inner leads with inner | ⟨first, phrase, last⟩
      · exact Or.inl inner
      · exact Or.inr ⟨below.empty first, last, congrArg Symbol.nonterminal phrase⟩

theorem seek_rooted (kind : Terminal) (limit : Nat) {stack : Stack M} (rooted : Rooted stack) :
    Rooted (seek σ kind limit stack).stack := by
  induction limit generalizing stack with
  | zero => exact rooted
  | succ limit ih =>
      unfold seek
      split
      · exact rooted
      · exact rooted
      · split
        · exact rooted
        · rename_i made
          exact ih (reduce_rooted rooted made)

theorem settle_rooted (limit : Nat) {stack : Stack M} (rooted : Rooted stack) :
    Rooted (settle σ limit stack).1 := by
  induction limit generalizing stack with
  | zero => exact rooted
  | succ limit ih =>
      unfold settle
      split
      · exact rooted
      · split
        · exact rooted
        · rename_i made
          exact ih (reduce_rooted rooted made)

/-- Where a shift was found, it is one of the state that was come to. -/
theorem seek_target (kind : Terminal) (limit : Nat) {stack : Stack M} {target : State}
    (found : (seek σ kind limit stack).target = some target) :
    (state (seek σ kind limit stack).stack).action kind = some (.shift target) := by
  induction limit generalizing stack with
  | zero => cases found
  | succ limit ih =>
      unfold seek at found ⊢
      split at found
      · cases found
      · rename_i action
        cases found
        exact action
      · split at found
        · cases found
        · exact ih found

end Stack

/-! ### The invariant -/

/-- Complaints that follow others leave none only if there are none of either. -/
theorem append_eq_empty {complaints : Array Complaint} {more : List Complaint} :
    complaints ++ more = #[] ↔ complaints = #[] ∧ more = [] := by
  rw [← Array.toList_inj, Array.toList_appendList, List.append_eq_nil_iff, Array.toList_eq_nil_iff]

namespace Progress

/-- A stack with a window of tokens to be read on top of it accounts for tokens of a text, in their
order. -/
def Covers (σ : Semantics M) (stack : Stack M) (window fed : List Token) : Prop :=
  ∃ read, stack.Backed σ False read ∧ (read ++ window).Sublist fed

/-- What the automaton has come to after the given tokens is accounted for by derivations. As long
as nothing has been objected to, all tokens have been read. -/
def Sound (σ : Semantics M) (fed : List Token) (progress : Progress M) : Prop :=
  match progress.mode with
  | .reading stack =>
      ∃ read, stack.Backed σ (progress.complaints = #[]) read ∧ read.Sublist fed ∧
        (progress.complaints = #[] → read = fed ∧ stack.Rooted ∧ ∀ token ∈ fed, token.kind ≠ .eof)
  | .skipping stack _ _ window =>
      progress.complaints ≠ #[] ∧ Covers σ stack window fed ∧ ∀ token ∈ window, token.kind ≠ .gap
  | .accepted value =>
      ∃ derivation : Derivation (.nonterminal .program), derivation.value σ = value ∧
        derivation.Accounted σ (progress.complaints = #[]) ∧ derivation.yield.Sublist fed ∧
        (progress.complaints = #[] →
          ∃ last rest, last.kind = .eof ∧ fed = derivation.yield ++ last :: rest)
  | .lost => progress.complaints ≠ #[]

/-- A stack from which a program is taken holds a derivation of it. If nothing else lies on it, the
derivation has read everything. -/
theorem program?_backed {clean : Prop} {stack : Stack M} {read : List Token}
    (backed : stack.Backed σ clean read) {value : M (.nonterminal .program)}
    (found : stack.program? = some value) :
    ∃ derivation : Derivation (.nonterminal .program), derivation.value σ = value ∧
      derivation.Accounted σ clean ∧ derivation.yield <+: read ∧
      (stack.length = 1 → derivation.yield = read) := by
  unfold Stack.program? at found
  split at found
  · cases found
    cases backed with
    | cons below state derivation accounted =>
        cases below
        exact ⟨derivation, rfl, accounted, List.prefix_rfl, fun _ => rfl⟩
  · cases found
    cases backed with
    | cons below state derivation accounted =>
        cases below with
        | cons below state derivation accounted =>
            cases below
            exact ⟨derivation, rfl, accounted, List.prefix_append _ _, fun alone => by cases alone⟩
  · cases found

/-- Behind the closing token there is a program or nothing; if nothing was objected to, there has to
be one. -/
theorem finish_sound {stack : Stack M} {read fed : List Token} {complaints : Array Complaint}
    (backed : stack.Backed σ (complaints = #[]) read) (part : read.Sublist fed)
    (whole : complaints = #[] → stack.Rooted ∧ stack.state = .accept ∧
      ∃ last, last.kind = .eof ∧ fed = read ++ [last]) :
    Sound σ fed (finish stack complaints) := by
  unfold finish
  cases found : stack.program? with
  | some value =>
      obtain ⟨derivation, same, accounted, first, all⟩ := program?_backed backed found
      refine ⟨derivation, same, accounted, first.sublist.trans part, fun clean => ?_⟩
      obtain ⟨rooted, accepting, last, closing, rfl⟩ := whole clean
      obtain ⟨_, alone⟩ := rooted.program accepting
      exact ⟨last, [], closing, by rw [all (by rw [alone]; rfl)]⟩
  | none =>
      intro clean
      obtain ⟨rooted, accepting, _⟩ := whole clean
      obtain ⟨value, rfl⟩ := rooted.program accepting
      cases found

/-! ### After an error -/

section Skipping

variable (limit : Nat) {stack : Stack M} {window fed : List Token} {complaints : Array Complaint}
  (culprit : Token) (objected : complaints ≠ #[])

include objected

theorem resume_sound (covers : Covers σ stack window fed)
    (inside : ∀ token ∈ window, token.kind ≠ .gap) :
    Sound σ fed (resume σ limit stack culprit window complaints) := by
  obtain ⟨read, backed, part⟩ := covers
  have stays : ∀ more : List Complaint, complaints ++ more ≠ #[] := fun more empty =>
    objected (append_eq_empty.mp empty).1
  unfold resume
  split
  · exact objected
  · rename_i gapped first shifted
    split
    · exact stays first
    · rename_i resumed more read_on
      unfold Stack.shift at shifted
      obtain ⟨target, _, pushed⟩ := Option.map_eq_some_iff.mp shifted
      cases pushed
      have sought := Stack.seek_backed .gap limit backed fun never => never.elim
      have withGap := Stack.push_gap_backed sought id target culprit
      have finished := Stack.shiftAll_backed id limit window inside withGap read_on
      have objectedStill : complaints ++ (Stack.seek σ .gap limit stack).complaints ++ more ≠ #[] :=
        fun empty => stays _ (append_eq_empty.mp empty).1
      have backedStill := finished.weaken objectedStill
      split
      · exact finish_sound backedStill part fun clean => absurd clean objectedStill
      · exact ⟨_, backedStill, part, fun clean => absurd clean objectedStill⟩

theorem resumeAtEnd_sound (trial : Stack Shape) (covers : Covers σ stack window fed)
    (inside : ∀ token ∈ window, token.kind ≠ .gap) :
    Sound σ fed (resumeAtEnd σ limit stack trial culprit complaints window) := by
  induction window with
  | nil => exact objected
  | cons token more ih =>
      unfold resumeAtEnd
      split
      · exact resume_sound limit culprit objected covers inside
      · obtain ⟨read, backed, part⟩ := covers
        have fewer : (read ++ more).Sublist (read ++ token :: more) :=
          (List.sublist_cons_self token more).append_left read
        exact ih ⟨read, backed, fewer.trans part⟩ (List.forall_mem_cons.mp inside).2

theorem skip_sound (trial : Stack Shape) (covers : Covers σ stack window fed)
    (inside : ∀ token ∈ window, token.kind ≠ .gap) :
    Sound σ fed (skip σ limit stack trial culprit window complaints) := by
  unfold skip
  split
  · exact resumeAtEnd_sound limit culprit objected trial covers inside
  split
  · exact ⟨objected, covers, inside⟩
  split
  · exact resume_sound limit culprit objected covers inside
  · obtain ⟨read, backed, part⟩ := covers
    have fewer : (read ++ window.tail).Sublist (read ++ window) :=
      (List.tail_sublist window).append_left read
    exact ⟨objected, ⟨read, backed, fewer.trans part⟩,
      fun token member => inside token (List.mem_of_mem_tail member)⟩

end Skipping

theorem recover_sound (limit : Nat) {stack : Stack M} {read fed : List Token} {clean : Prop}
    (backed : stack.Backed σ clean read) (culprit : Token) (inside : culprit.kind ≠ .gap)
    (part : read.Sublist fed) (complaints : Array Complaint) :
    Sound σ (fed ++ [culprit]) (recover σ limit stack culprit complaints) := by
  unfold recover
  simp only
  split
  · exact Array.push_ne_empty
  · obtain ⟨before, below, first⟩ :=
      backed.suffix (Stack.gapPoint_suffix limit culprit stack stack.forget)
    refine skip_sound limit culprit Array.push_ne_empty _ ⟨before, below.weaken False.elim, ?_⟩ ?_
    · exact (first.sublist.trans part).append (List.Sublist.refl [culprit])
    · simpa using inside

/-! ### Token by token -/

/-- **One token** keeps the invariant. -/
theorem step_sound (limit : Nat) {progress : Progress M} {fed : List Token} (next : Feed)
    (inside : next.token.kind ≠ .gap) (sound : Sound σ fed progress) :
    Sound σ (fed ++ [next.token]) (step σ limit progress next) := by
  obtain ⟨mode, complaints⟩ := progress
  have more : ∀ {read : List Token}, read.Sublist fed → read.Sublist (fed ++ [next.token]) :=
    fun part => part.trans (List.sublist_append_left _ _)
  cases mode with
  | reading stack =>
      obtain ⟨read, backed, part, whole⟩ := sound
      unfold step
      simp only
      cases found : (Stack.seek σ next.token.kind limit stack).target with
      | none =>
          have unclean : stack.Backed σ False read := backed.weaken False.elim
          exact recover_sound limit (Stack.seek_backed _ limit unclean False.elim) next.token inside
            part _
      | some target =>
          have leads := Stack.seek_target next.token.kind limit found
          simp only
          split
          · rename_i closing
            refine finish_sound (Stack.seek_backed _ limit (backed.weaken fun clean => ?_)
              fun clean => (append_eq_empty.mp clean).2) (more part) fun clean => ?_
            · exact (append_eq_empty.mp (append_eq_empty.mp clean).1).1
            · obtain ⟨rfl, rooted, _⟩ :=
                whole (append_eq_empty.mp (append_eq_empty.mp clean).1).1
              exact ⟨Stack.seek_rooted _ limit rooted, State.action_eof closing leads,
                next.token, closing, rfl⟩
          · rename_i inner
            refine ⟨read ++ [next.token], ?_, part.append (List.Sublist.refl _), fun clean => ?_⟩
            · refine Stack.settle_backed limit (Stack.push_backed (Stack.seek_backed _ limit
                (backed.weaken fun clean => ?_) fun clean => ?_) target rfl inside)
                fun clean => (append_eq_empty.mp clean).2
              · exact (append_eq_empty.mp (append_eq_empty.mp (append_eq_empty.mp clean).1).1).1
              · exact (append_eq_empty.mp (append_eq_empty.mp clean).1).2
            · obtain ⟨rfl, rooted, unclosed⟩ :=
                whole (append_eq_empty.mp (append_eq_empty.mp (append_eq_empty.mp clean).1).1).1
              refine ⟨rfl, Stack.settle_rooted limit
                ⟨Stack.seek_rooted _ limit rooted, Or.inl (State.action_inner leads inner)⟩, ?_⟩
              intro token member
              rcases List.mem_append.mp member with earlier | last
              · exact unclosed token earlier
              · rwa [List.mem_singleton.mp last]
  | skipping stack trial culprit window =>
      obtain ⟨objected, ⟨read, backed, part⟩, insideWindow⟩ := sound
      refine skip_sound limit culprit (fun empty => objected (append_eq_empty.mp empty).1) trial
        ⟨read, backed, ?_⟩ ?_
      · rw [← List.append_assoc]
        exact part.append (List.Sublist.refl [next.token])
      · intro token member
        rcases List.mem_append.mp member with earlier | last
        · exact insideWindow token earlier
        · rwa [List.mem_singleton.mp last]
  | accepted value =>
      obtain ⟨derivation, same, accounted, part, whole⟩ := sound
      refine ⟨derivation, same, accounted.weaken fun clean => (append_eq_empty.mp clean).1,
        more part, fun clean => ?_⟩
      obtain ⟨last, rest, closing, split⟩ := whole (append_eq_empty.mp clean).1
      exact ⟨last, rest ++ [next.token], closing, by rw [split]; simp⟩
  | lost => exact fun empty => sound (append_eq_empty.mp empty).1

/-- **All tokens of a text** keep the invariant. -/
theorem steps_sound (limit : Nat) (tokens : List Feed)
    (inside : ∀ next ∈ tokens, next.token.kind ≠ .gap) {progress : Progress M} {fed : List Token}
    (sound : Sound σ fed progress) :
    Sound σ (fed ++ tokens.map Feed.token) (tokens.foldl (step σ limit) progress) := by
  induction tokens generalizing progress fed with
  | nil => rwa [List.map_nil, List.append_nil]
  | cons next more ih =>
      obtain ⟨first, others⟩ := List.forall_mem_cons.mp inside
      have sound := ih others (step_sound limit next first sound)
      rwa [List.append_assoc, List.singleton_append] at sound

end Progress

/-! ### Whole texts -/

/-- Nothing follows the token that closes a text: it would stand in front of the last one. -/
theorem eq_nil_of_closed {front read rest : List Token} {closing last : Token}
    (inner : ∀ token ∈ front, token.kind ≠ .eof) (ending : last.kind = .eof)
    (whole : front ++ [closing] = read ++ last :: rest) : rest = [] := by
  rcases List.eq_nil_or_concat rest with none | ⟨more, final, rfl⟩
  · exact none
  · have same : front ++ [closing] = (read ++ last :: more) ++ [final] := by
      rw [whole, List.append_assoc, List.cons_append, List.concat_eq_append]
    have member : last ∈ front := by
      rw [(List.append_inj' same rfl).1]
      simp
    exact absurd ending (inner last member)

section Texts

variable (tokens : List Feed) (inside : ∀ next ∈ tokens, next.token.kind ≠ .gap)

include inside

theorem readProgram_invariant :
    ∃ final : Progress M, final.Sound σ (tokens.map Feed.token) ∧
      final.complaints.toList = (readProgram σ tokens).2 ∧
      ∀ value, (readProgram σ tokens).1 = some value ↔ final.mode = .accepted value := by
  have start : Progress.Sound σ [] ⟨.reading [], #[]⟩ :=
    ⟨[], .nil, List.Sublist.refl [], fun _ => ⟨rfl, trivial, by simp⟩⟩
  refine ⟨_, Progress.steps_sound (reductionLimit tokens.length) tokens inside start, ?_⟩
  unfold readProgram
  simp only
  split
  · rename_i value accepted
    exact ⟨rfl, fun other => by rw [accepted]; simp⟩
  · rename_i other
    refine ⟨rfl, fun value => ⟨nofun, fun accepted => absurd accepted (other value)⟩⟩

/-- **A program that is read has a derivation**, which reads tokens of the text in their order. -/
theorem readProgram_sound {value : M (.nonterminal .program)}
    (found : (readProgram σ tokens).1 = some value) :
    ∃ derivation : Derivation (.nonterminal .program), derivation.value σ = value ∧
      derivation.Accounted σ False ∧ derivation.yield.Sublist (tokens.map Feed.token) := by
  obtain ⟨final, sound, _, accepted⟩ := readProgram_invariant (σ := σ) tokens inside
  unfold Progress.Sound at sound
  rw [(accepted value).mp found] at sound
  obtain ⟨derivation, same, accounted, part, _⟩ := sound
  exact ⟨derivation, same, accounted.weaken False.elim, part⟩

/-- **Where nothing is objected to, the whole text has a derivation.** -/
theorem readProgram_clean (closed : ∃ front last, tokens.map Feed.token = front ++ [last] ∧
      last.kind = .eof ∧ ∀ token ∈ front, token.kind ≠ .eof)
    (clean : (readProgram σ tokens).2 = []) :
    ∃ (derivation : Derivation (.nonterminal .program)) (last : Token),
      (readProgram σ tokens).1 = some (derivation.value σ) ∧ derivation.Accounted σ True ∧
      last.kind = .eof ∧ tokens.map Feed.token = derivation.yield ++ [last] := by
  obtain ⟨final, sound, same, accepted⟩ := readProgram_invariant (σ := σ) tokens inside
  have quiet : final.complaints = #[] := Array.toList_eq_nil_iff.mp (same.trans clean)
  obtain ⟨front, closing, whole, _, inner⟩ := closed
  unfold Progress.Sound at sound
  split at sound
  · obtain ⟨_, _, _, reading⟩ := sound
    obtain ⟨_, _, unclosed⟩ := reading quiet
    exact absurd ‹closing.kind = .eof› (unclosed closing (by rw [whole]; simp))
  · exact absurd quiet sound.1
  · rename_i value mode
    obtain ⟨derivation, rfl, accounted, _, all⟩ := sound
    obtain ⟨last, rest, ending, split⟩ := all quiet
    cases eq_nil_of_closed inner ending (whole.symm.trans split)
    exact ⟨derivation, last, (accepted _).mpr mode, accounted.weaken fun _ => quiet, ending, split⟩
  · exact absurd quiet sound

end Texts

end Lox
