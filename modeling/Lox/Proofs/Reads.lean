/-
**Reading to the end.** Runs of the automaton in which nothing goes wrong.

* `Stack.Reads` says that the automaton, left to itself, reads tokens to the end of a text and makes
  a value, without objections.
* `Reads.step`, `Reads.steps` and `Reads.finish`: so it does as part of a run, token by token, where
  phrases that are whole are made early and the number of reductions is limited.
* `readProgram_of_reads`: then the text is read into that value.
-/

import Lox.Proofs.Reductions

set_option linter.unusedSectionVars false

namespace Lox

variable {M : Symbol → Type} {σ : Semantics M}

namespace Stack

/-! ### Reading to the end -/

/-- The automaton reads tokens to the end of a text, and makes a value, without objections. -/
inductive Reads (σ : Semantics M) : Stack M → List Token → M (.nonterminal .program) → Prop
  | reduce {stack reduced : Stack M} {token : Token} {more : List Token}
      {value : M (.nonterminal .program)} {rule : Rule}
      (leads : (state stack).action token.kind = some (.reduce rule))
      (made : Stack.reduce σ rule stack = some (reduced, []))
      (rest : Reads σ reduced (token :: more) value) : Reads σ stack (token :: more) value
  | shift {stack : Stack M} {token : Token} {more : List Token}
      {value : M (.nonterminal .program)} {target : State}
      (leads : (state stack).action token.kind = some (.shift target))
      (inner : token.kind ≠ .eof)
      (rest : Reads σ (push σ target token.kind token stack) more value) :
      Reads σ stack (token :: more) value
  | accept {stack : Stack M} {token : Token} {value : M (.nonterminal .program)} {target : State}
      (leads : (state stack).action token.kind = some (.shift target))
      (closing : token.kind = .eof) (found : program? stack = some value) :
      Reads σ stack [token] value

namespace Reads

variable {stack : Stack M} {token : Token} {more : List Token} {value : M (.nonterminal .program)}

/-- Phrases that are whole may be made before the next token is looked at. -/
theorem settle {tokens : List Token} (reads : Reads σ stack tokens value) (limit : Nat) :
    (Stack.settle σ limit stack).2 = [] ∧ Reads σ (Stack.settle σ limit stack).1 tokens value := by
  induction limit generalizing stack with
  | zero => exact ⟨rfl, reads⟩
  | succ limit ih =>
      unfold Stack.settle
      cases settled : (state stack).settled? with
      | none => exact ⟨rfl, reads⟩
      | some rule =>
          have always := State.action_of_settled settled
          cases reads with
          | reduce leads made rest =>
              rw [always] at leads
              cases leads
              obtain ⟨quiet, further⟩ := ih rest
              simp only [made]
              exact ⟨quiet, further⟩
          | shift leads _ _ => cases (always _).symm.trans leads
          | accept leads _ _ => cases (always _).symm.trans leads

/-- Where the automaton reads to the end, it finds a shift for the next token. -/
theorem seek (reads : Reads σ stack (token :: more) value) {limit : Nat}
    (room : potential stack < limit) :
    ∃ (found : Stack M) (target : State),
      Stack.seek σ token.kind limit stack = ⟨found, some target, []⟩ ∧
      potential found ≤ potential stack ∧
      ((token.kind = .eof ∧ more = [] ∧ program? found = some value) ∨
        (token.kind ≠ .eof ∧ Reads σ (push σ target token.kind token found) more value)) := by
  induction limit generalizing stack with
  | zero => exact absurd room (Nat.not_lt_zero _)
  | succ limit ih =>
      cases reads with
      | reduce leads made rest =>
          have lower := reduce_potential (State.completed_of_action leads) made
          obtain ⟨found, target, same, bound, after⟩ := ih rest (by omega)
          refine ⟨found, target, ?_, by omega, after⟩
          simp only [Stack.seek, leads, made, same, List.nil_append]
      | shift leads inner rest =>
          refine ⟨stack, _, ?_, Nat.le_refl _, Or.inr ⟨inner, rest⟩⟩
          simp only [Stack.seek, leads]
      | @accept _ _ _ target leads closing found =>
          refine ⟨stack, target, ?_, Nat.le_refl _, Or.inl ⟨closing, rfl, found⟩⟩
          simp only [Stack.seek, leads]

/-- **One token** of a text that is read to the end. -/
theorem step {limit : Nat} (reads : Reads σ stack (token :: more) value) (later : more ≠ [])
    (room : potential stack < limit) (complaints : Array Complaint) :
    ∃ next : Stack M,
      Progress.step σ limit ⟨.reading stack, complaints⟩ ⟨[], token⟩ =
        ⟨.reading next, complaints⟩ ∧
      Reads σ next more value ∧ potential next ≤ potential stack + 7 := by
  obtain ⟨found, target, same, bound, after⟩ := reads.seek room
  rcases after with ⟨_, none, _⟩ | ⟨inner, rest⟩
  · exact absurd none later
  · obtain ⟨quiet, further⟩ := rest.settle limit
    have pushed := push_potential (σ := σ) target token.kind token found
    have settled := settle_potential (σ := σ) limit (push σ target token.kind token found)
    refine ⟨_, ?_, further, by omega⟩
    simp only [Progress.step, same, if_neg inner, quiet]
    simp

/-- **The token that closes a text** which is read to the end. -/
theorem finish {limit : Nat} (reads : Reads σ stack [token] value)
    (room : potential stack < limit) (complaints : Array Complaint) :
    Progress.step σ limit ⟨.reading stack, complaints⟩ ⟨[], token⟩ =
      ⟨.accepted value, complaints⟩ := by
  obtain ⟨found, target, same, _, after⟩ := reads.seek room
  rcases after with ⟨closing, _, program⟩ | ⟨_, rest⟩
  · simp only [Progress.step, same, if_pos closing, Progress.finish, program]
    simp
  · cases rest

/-- **The first tokens** of a text that is read to the end. -/
theorem steps {limit : Nat} (front : List Token) {rest : List Token}
    (reads : Reads σ stack (front ++ rest) value) (later : rest ≠ [])
    (room : potential stack + 7 * front.length < limit) (complaints : Array Complaint) :
    ∃ next : Stack M,
      (front.map (Feed.mk [])).foldl (Progress.step σ limit) ⟨.reading stack, complaints⟩ =
        ⟨.reading next, complaints⟩ ∧
      Reads σ next rest value ∧ potential next ≤ potential stack + 7 * front.length := by
  induction front generalizing stack with
  | nil => exact ⟨stack, rfl, reads, Nat.le_refl _⟩
  | cons token front ih =>
      rw [List.length_cons] at room
      have more : front ++ rest ≠ [] := List.append_ne_nil_of_right_ne_nil front later
      have now : potential stack < limit := by omega
      obtain ⟨next, moved, further, raised⟩ := reads.step more now complaints
      obtain ⟨last, same, ended, bound⟩ := ih further (by omega)
      refine ⟨last, ?_, ended, by rw [List.length_cons]; omega⟩
      rw [List.map_cons, List.foldl_cons, moved, same]

end Reads

end Stack

/-- **A text that the automaton reads to the end** is read into the value that it makes. -/
theorem readProgram_of_reads {front : List Token} {closing : Token}
    {value : M (.nonterminal .program)} (reads : Stack.Reads σ [] (front ++ [closing]) value) :
    readProgram σ ((front ++ [closing]).map (Feed.mk [])) = (some value, []) := by
  have empty : Stack.potential ([] : Stack M) = 2 := rfl
  have length : ((front ++ [closing]).map (Feed.mk [])).length = front.length + 1 := by simp
  have room :
      Stack.potential ([] : Stack M) + 7 * front.length < reductionLimit (front.length + 1) := by
    rw [empty, reductionLimit]
    omega
  obtain ⟨last, same, ended, bound⟩ := reads.steps front (by simp) room #[]
  have final := ended.finish (Nat.lt_of_le_of_lt bound room) #[]
  have whole : ((front ++ [closing]).map (Feed.mk [])).foldl (Progress.step σ
      (reductionLimit ((front ++ [closing]).map (Feed.mk [])).length)) ⟨.reading [], #[]⟩ =
      ⟨.accepted value, #[]⟩ := by
    rw [length, List.map_append, List.foldl_append, same]
    exact final
  simp only [readProgram, whole]

end Lox
