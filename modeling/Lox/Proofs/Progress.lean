/-
**Progress.** What reading a text comes upon, all of it, and what it gives.

Reading goes on after every complaint, so that the complaints of a text are there whether or not
there is a report that gets full on the way.

* `Feed` is a token with the faults in front of it.
* `Progress.step` reads one token and notes what is objected to.
* `readProgram` reads a whole text: it is a fold of `Progress.step` over the tokens.
* `parse` is the tree of a text with all complaints.
* `Stack.forget` drops the values of a stack. What the automaton does to a stack does not depend on
  them: `seek_forget`, `settle_forget`, `shift_forget`.
-/

import Lox.Parse

namespace Lox

/-- A token with the faults between it and the token before it. -/
structure Feed where
  faults : List Fault
  token : Token
deriving DecidableEq

/-- A scan grouped by its tokens; `pending` are the faults since the last one. -/
def feedFrom (pending : List Fault) : List Scanned → List Feed
  | [] => []
  | .fault fault :: more => feedFrom (pending ++ [fault]) more
  | .token token :: more => ⟨pending, token⟩ :: feedFrom [] more

/-- The tokens of a text, each with the faults in front of it. -/
def feed (text : String) : List Feed :=
  feedFrom [] (scan text)

variable {M : Symbol → Type}

/-- Reduces phrases, at most `limit` of them, that are whole whatever comes next. -/
def Stack.settle (σ : Semantics M) : Nat → Stack M → Stack M × List Complaint
  | 0, stack => (stack, [])
  | limit + 1, stack =>
    match (Stack.state stack).settled? with
    | none => (stack, [])
    | some rule =>
      match Stack.reduce σ rule stack with
      | none => (stack, [])
      | some (reduced, complaints) =>
        let (settled, more) := Stack.settle σ limit reduced
        (settled, complaints ++ more)

/-- How far the automaton has come, and what was objected to so far. -/
structure Progress (M : Symbol → Type) where
  mode : Mode M
  complaints : Array Complaint

namespace Progress

open Mode

variable (σ : Semantics M) (limit : Nat)

/-- Where the automaton stands once it has read the token that closes the text. -/
def finish (stack : Stack M) (complaints : Array Complaint) : Progress M :=
  match Stack.program? stack with
  | some value => ⟨.accepted value, complaints⟩
  | none => ⟨.lost, complaints⟩

/-- Goes on with the tokens of a window behind a gap. -/
def resume (stack : Stack M) (culprit : Token) (window : List Token)
    (complaints : Array Complaint) : Progress M :=
  match Stack.shift σ limit .gap culprit stack with
  | none => ⟨.lost, complaints⟩
  | some (gapped, first) =>
    match Stack.shiftAll σ limit window gapped with
    | none => ⟨.lost, complaints ++ first⟩
    | some (resumed, more) =>
      if atEnd window then finish resumed (complaints ++ first ++ more)
      else ⟨.reading resumed, complaints ++ first ++ more⟩

/-- Goes on with the longest end of the text that can be read behind the gap. -/
def resumeAtEnd (stack : Stack M) (trial : Stack Shape) (culprit : Token)
    (complaints : Array Complaint) : List Token → Progress M
  | [] => ⟨.lost, complaints⟩
  | token :: more =>
    if readable limit trial (token :: more) then
      resume σ limit stack culprit (token :: more) complaints
    else resumeAtEnd stack trial culprit complaints more

/-- Goes on if the window is full and can be read behind the gap, or if the text is at its end. -/
def skip (stack : Stack M) (trial : Stack Shape) (culprit : Token) (window : List Token)
    (complaints : Array Complaint) : Progress M :=
  if atEnd window then resumeAtEnd σ limit stack trial culprit complaints window
  else if window.length < windowSize then ⟨.skipping stack trial culprit window, complaints⟩
  else if readable limit trial window then resume σ limit stack culprit window complaints
  else ⟨.skipping stack trial culprit window.tail, complaints⟩

/-- Notes an error at a token, and begins to skip. -/
def recover (stack : Stack M) (culprit : Token) (complaints : Array Complaint) : Progress M :=
  let expectation := Stack.expectation culprit.kind stack
  let complaints := complaints.push (.syntactic culprit (.expected expectation))
  let point := Stack.gapPoint limit culprit stack (Stack.forget stack)
  match Stack.shift .shape limit .gap culprit (Stack.forget point) with
  | none => ⟨.lost, complaints⟩
  | some (trial, _) => skip σ limit point trial culprit [culprit] complaints

/-- Reads one token. -/
def step (progress : Progress M) (next : Feed) : Progress M :=
  let complaints : Array Complaint := progress.complaints ++ next.faults.map Complaint.lexical
  let token := next.token
  match progress.mode with
  | .reading stack =>
    let sought := Stack.seek σ token.kind limit stack
    let complaints := complaints ++ sought.complaints
    match sought.target with
    | none => recover σ limit sought.stack token complaints
    | some target =>
      if token.kind = .eof then finish sought.stack complaints
      else
        let (settled, more) :=
          Stack.settle σ limit (Stack.push σ target token.kind token sought.stack)
        ⟨.reading settled, complaints ++ more⟩
  | .skipping stack trial culprit window =>
    skip σ limit stack trial culprit (window ++ [token]) complaints
  | .accepted value => ⟨.accepted value, complaints⟩
  | .lost => ⟨.lost, complaints⟩

end Progress

/-- Reads the tokens of a text: the value of the program, if its end was reached, and all
complaints in order. -/
def readProgram (σ : Semantics M) (tokens : List Feed) :
    Option (M (.nonterminal .program)) × List Complaint :=
  let limit := reductionLimit tokens.length
  let final := tokens.foldl (Progress.step σ limit) ⟨.reading [], #[]⟩
  match final.mode with
  | .accepted value => (some value, final.complaints.toList)
  | _ => (none, final.complaints.toList)

/-- What came of reading a text. -/
structure Parsed where
  tree : List (Stmt Unit)
  complaints : List Complaint

/-- Reads a text. -/
def parse (text : String) : Parsed :=
  let (program, complaints) := readProgram trees (feed text)
  ⟨program.getD [], complaints⟩

/-! ### Without values

What the automaton does to a stack does not depend on the values there. -/

section Forgetting

variable (σ : Semantics M)

namespace Stack

theorem state_forget (stack : Stack M) : state (forget stack) = state stack := by
  cases stack <;> rfl

theorem pop_forget (shape : List Symbol) (stack : Stack M) :
    (pop shape (forget stack)).map Prod.snd =
      (pop shape stack).map fun found => forget found.2 := by
  induction shape with
  | nil => rfl
  | cons symbol more ih =>
      rw [pop, pop]
      cases popped : pop more stack with
      | none =>
          rw [popped, Option.map_none, Option.map_eq_none_iff] at ih
          rw [ih]
          rfl
      | some found =>
          obtain ⟨values, rest⟩ := found
          rw [popped, Option.map_some, Option.map_eq_some_iff] at ih
          obtain ⟨⟨others, deeper⟩, same, rfl⟩ := ih
          rw [same]
          cases rest with
          | nil => rfl
          | cons entry rest =>
              simp only [forget, List.map_cons]
              split <;> rfl

theorem reduce_forget (rule : Rule) (stack : Stack M) :
    reduce .shape rule (forget stack) =
      (reduce σ rule stack).map fun made => (forget made.1, []) := by
  have same := pop_forget rule.rhs stack
  rw [reduce, reduce]
  cases popped : pop rule.rhs stack with
  | none =>
      rw [popped, Option.map_none, Option.map_eq_none_iff] at same
      rw [same]
      rfl
  | some found =>
      obtain ⟨values, rest⟩ := found
      rw [popped, Option.map_some, Option.map_eq_some_iff] at same
      obtain ⟨⟨others, deeper⟩, same, rfl⟩ := same
      rw [same]
      simp only [state_forget]
      cases (state rest).goto? rule.lhs <;> rfl

theorem seek_forget (kind : Terminal) (limit : Nat) (stack : Stack M) :
    seek .shape kind limit (forget stack) =
      ⟨forget (seek σ kind limit stack).stack, (seek σ kind limit stack).target, []⟩ := by
  induction limit generalizing stack with
  | zero => rfl
  | succ limit ih =>
      rw [seek, seek, state_forget]
      cases (state stack).action kind with
      | none => rfl
      | some action =>
          cases action with
          | shift target => rfl
          | reduce rule =>
              simp only [reduce_forget σ]
              cases reduce σ rule stack with
              | none => rfl
              | some made => simp [ih]

theorem settle_forget (limit : Nat) (stack : Stack M) :
    settle .shape limit (forget stack) = (forget (settle σ limit stack).1, []) := by
  induction limit generalizing stack with
  | zero => rfl
  | succ limit ih =>
      rw [settle, settle, state_forget]
      cases (state stack).settled? with
      | none => rfl
      | some rule =>
          simp only [reduce_forget σ]
          cases reduce σ rule stack with
          | none => rfl
          | some made => simp [ih]

theorem shift_forget {limit : Nat} (kind : Terminal) (token : Token) (stack : Stack M) :
    shift .shape limit kind token (forget stack) =
      (shift σ limit kind token stack).map fun shifted => (forget shifted.1, []) := by
  rw [shift, shift, seek_forget σ]
  cases (seek σ kind limit stack).target <;> rfl

theorem shiftAll_forget {limit : Nat} (tokens : List Token) (stack : Stack M) :
    shiftAll .shape limit tokens (forget stack) =
      (shiftAll σ limit tokens stack).map fun shifted => (forget shifted.1, []) := by
  induction tokens generalizing stack with
  | nil => rfl
  | cons token more ih =>
      rw [shiftAll, shiftAll, shift_forget σ]
      cases shift σ limit token.kind token stack with
      | none => rfl
      | some first =>
          simp only [Option.map_some, ih]
          cases shiftAll σ limit more first.1 <;> rfl

end Stack

/-- What can be read without values can be read with them. -/
theorem Progress.resume_reads {limit : Nat} {point : Stack M} {trial : Stack Shape}
    {culprit : Token} {window : List Token} {objections : List Complaint}
    (gapped : Stack.shift .shape limit .gap culprit point.forget = some (trial, objections))
    (reads : Mode.readable limit trial window) : ∃ start first resumed more,
      Stack.shift σ limit .gap culprit point = some (start, first) ∧
      Stack.shiftAll σ limit window start = some (resumed, more) := by
  rw [Stack.shift_forget σ] at gapped
  obtain ⟨⟨start, first⟩, once, same⟩ := Option.map_eq_some_iff.mp gapped
  cases same
  rw [Mode.readable, Stack.shiftAll_forget σ, Option.isSome_map] at reads
  obtain ⟨⟨resumed, more⟩, rest⟩ := Option.isSome_iff_exists.mp reads
  exact ⟨start, first, resumed, more, once, rest⟩

end Forgetting

end Lox
