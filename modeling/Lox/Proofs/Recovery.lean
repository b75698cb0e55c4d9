/-
**Going on after an error.** Where syntax errors stand, and when a text is given up.

* `Stack.resumes`: whether tokens can be read behind a gap, once the automaton has gone back after
  an error. The first of them has to be a semicolon (`resumes_semicolon`).
* `Progress.Invariant` is the invariant. Successive errors stand apart (`Apart`). While the
  automaton reads on, it has resumed behind the last one; while it skips, no three tokens in a row
  from the last one on can be resumed at (`Resumed`).
* `step_invariant` keeps it up to the last token, and `step_closes` says what the last one makes of
  it.
-/

import Lox.Proofs.Limits
import Mathlib.Data.List.Chain

namespace Lox

/-! ### Reading behind a gap -/

namespace Stack

variable {M : Symbol → Type} {σ : Semantics M} {limit : Nat}

/-- Whether tokens can be read behind a gap after an error at a token. The gap is put on the part of
the stack, as long as possible, on which it can be read. -/
def resumes (limit : Nat) (culprit : Token) (stack : Stack M) (window : List Token) : Bool :=
  (shift .shape limit .gap culprit (forget (gapPoint limit culprit stack (forget stack)))).any
    fun gapped => Mode.readable limit gapped.1 window

/-- A gap can be read before anything else has been read. -/
theorem shift_gap_nil (culprit : Token) (room : 1 < limit) :
    (shift .shape limit .gap culprit []).isSome := by
  obtain ⟨limit, rfl⟩ := Nat.exists_eq_add_of_le' room
  rfl

/-- **There is always a place for a gap.** -/
theorem gapPoint_shift (culprit : Token) (room : 1 < limit) (stack : Stack M) :
    (shift .shape limit .gap culprit
      (forget (gapPoint limit culprit stack (forget stack)))).isSome := by
  induction stack with
  | nil => exact shift_gap_nil culprit room
  | cons entry rest ih =>
      unfold gapPoint
      split
      · rename_i fits
        exact fits
      · exact ih

theorem readable_semicolon {culprit token : Token} {base : Stack Shape} {more : List Token}
    (reads : Mode.readable limit (push .shape .gap .gap culprit base) (token :: more)) :
    token.kind = .semicolon := by
  obtain ⟨⟨shifted, complaints⟩, read⟩ := Option.isSome_iff_exists.mp reads
  obtain ⟨_, _, _, once, _⟩ := shiftAll_cons read
  exact (shift_behind_gap once).1

/-- **It is at a semicolon that the automaton goes on.** -/
theorem resumes_semicolon {culprit token : Token} {stack : Stack M} {more : List Token}
    (resumes : resumes limit culprit stack (token :: more)) : token.kind = .semicolon := by
  obtain ⟨⟨gapped, _⟩, once, reads⟩ := (Option.any_eq_true _ _).mp resumes
  obtain ⟨base, rfl, _⟩ := shift_gap once
  exact readable_semicolon reads

theorem shift_rooted {kind : Terminal} {token : Token} {stack shifted : Stack M}
    {complaints : List Complaint} (rooted : Rooted stack) (inner : kind ≠ .eof)
    (read : shift σ limit kind token stack = some (shifted, complaints)) : Rooted shifted := by
  obtain ⟨target, found, rfl⟩ := shift_eq_some read
  exact ⟨seek_rooted kind limit rooted,
    Or.inl (State.action_inner (seek_target kind limit found) inner)⟩

theorem shiftAll_rooted {tokens : List Token} {stack shifted : Stack M}
    {complaints : List Complaint} (rooted : Rooted stack)
    (inner : ∀ token ∈ tokens, token.kind ≠ .eof)
    (read : shiftAll σ limit tokens stack = some (shifted, complaints)) : Rooted shifted := by
  induction tokens generalizing stack complaints with
  | nil =>
      cases read
      exact rooted
  | cons token more ih =>
      obtain ⟨between, _, _, once, rest⟩ := shiftAll_cons read
      obtain ⟨first, others⟩ := List.forall_mem_cons.mp inner
      exact ih (shift_rooted rooted first once) others rest

/-- The token that closes a text is read behind a whole program only. -/
theorem program?_of_shiftAll {inner : List Token} {closing : Token} {stack shifted : Stack M}
    {complaints : List Complaint} (rooted : Rooted stack)
    (inside : ∀ token ∈ inner, token.kind ≠ .eof) (closes : closing.kind = .eof)
    (read : shiftAll σ limit (inner ++ [closing]) stack = some (shifted, complaints)) :
    ∃ value, program? shifted = some value := by
  induction inner generalizing stack complaints with
  | nil =>
      obtain ⟨between, _, _, once, rest⟩ := shiftAll_cons read
      cases rest
      obtain ⟨target, found, rfl⟩ := shift_eq_some once
      have accepts := State.action_eof closes (seek_target closing.kind limit found)
      obtain ⟨value, alone⟩ := (seek_rooted (σ := σ) closing.kind limit rooted).program accepts
      rw [push, alone, closes]
      exact ⟨value, rfl⟩
  | cons token more ih =>
      obtain ⟨between, _, _, once, rest⟩ := shiftAll_cons read
      obtain ⟨first, others⟩ := List.forall_mem_cons.mp inside
      exact ih (shift_rooted rooted first once) others rest

theorem shift_plain {kind : Terminal} {token : Token} {stack shifted : Stack Symbol.Tree}
    {complaints : List Complaint}
    (read : shift trees limit kind token stack = some (shifted, complaints)) :
    syntaxErrors complaints = [] := by
  obtain ⟨target, _, same⟩ := Option.map_eq_some_iff.mp read
  rw [← (Prod.mk.inj same).2]
  exact seek_plain kind limit stack

theorem shiftAll_plain {tokens : List Token} {stack shifted : Stack Symbol.Tree}
    {complaints : List Complaint}
    (read : shiftAll trees limit tokens stack = some (shifted, complaints)) :
    syntaxErrors complaints = [] := by
  induction tokens generalizing stack complaints with
  | nil =>
      cases read
      rfl
  | cons token more ih =>
      unfold shiftAll at read
      split at read
      · cases read
      · rename_i once
        split at read
        · cases read
        · rename_i rest
          cases read
          rw [syntaxErrors_append, shift_plain once, ih rest]
          rfl

end Stack

/-- A semicolon stands at the first of two tokens or between them. -/
def Apart (tokens : List Token) (first second : Token) : Prop :=
  ∃ semi ∈ tokens, semi.kind = .semicolon ∧ first.offset ≤ semi.offset ∧
    semi.offset < second.offset

theorem Apart.later {tokens more : List Token} {first second : Token}
    (apart : Apart tokens first second) : Apart (tokens ++ more) first second := by
  obtain ⟨semi, member, kind, behind, before⟩ := apart
  exact ⟨semi, List.mem_append_left more member, kind, behind, before⟩

namespace Progress

open Mode

variable {limit : Nat}

/-- The tokens of the syntax errors noted so far. -/
def errors (progress : Progress Symbol.Tree) : List Token :=
  syntaxErrors progress.complaints.toList

theorem errors_append (mode : Mode Symbol.Tree) (complaints : Array Complaint)
    (more : List Complaint) :
    errors ⟨mode, complaints ++ more⟩ = syntaxErrors complaints.toList ++ syntaxErrors more := by
  rw [errors, Array.toList_appendList, syntaxErrors_append]

theorem finish_errors (stack : Stack Symbol.Tree) (complaints : Array Complaint) :
    (finish stack complaints).errors = syntaxErrors complaints.toList := by
  unfold finish
  split <;> rfl

/-! ### Where the automaton was held up -/

/-- Behind the tokens of `front` the automaton cannot read a token. The stack is what it has made of
them by then. -/
def Stops (limit : Nat) (front : List Feed) (culprit : Token) (stack : Stack Symbol.Tree) : Prop :=
  ∃ before complaints,
    front.foldl (step trees limit) ⟨.reading [], #[]⟩ = ⟨.reading before, complaints⟩ ∧
    (Stack.seek trees culprit.kind limit before).target = none ∧
    (Stack.seek trees culprit.kind limit before).stack = stack

/-- The automaton has been held up by a token, from which on it was given the tokens `behind`. -/
def HeldUp (limit : Nat) (fed : List Feed) (culprit : Token) (stack : Stack Symbol.Tree)
    (behind : List Token) : Prop :=
  ∃ front rest, fed = front ++ rest ∧ rest.map Feed.token = behind ∧
    behind.head? = some culprit ∧ Stops limit front culprit stack

theorem HeldUp.later {fed : List Feed} {culprit : Token} {stack : Stack Symbol.Tree}
    {behind : List Token} (held : HeldUp limit fed culprit stack behind) (next : Feed) :
    HeldUp limit (fed ++ [next]) culprit stack (behind ++ [next.token]) := by
  obtain ⟨front, rest, rfl, rfl, first, stops⟩ := held
  refine ⟨front, rest ++ [next], List.append_assoc _ _ _, List.map_append, ?_, stops⟩
  rw [List.head?_append, first]
  rfl

/-- Three tokens in a row can be read behind a gap. -/
def Resumed (limit : Nat) (culprit : Token) (stack : Stack Symbol.Tree) (behind : List Token) :
    Prop :=
  ∃ skipped first second third more, behind = skipped ++ first :: second :: third :: more ∧
    stack.resumes limit culprit [first, second, third]

section Resumed

variable {culprit next : Token} {stack : Stack Symbol.Tree} {behind window : List Token}

theorem Resumed.later (resumed : Resumed limit culprit stack behind) :
    Resumed limit culprit stack (behind ++ [next]) := by
  obtain ⟨skipped, first, second, third, more, rfl, resumes⟩ := resumed
  exact ⟨skipped, first, second, third, more ++ [next], by simp, resumes⟩

/-- Behind one more token there is one more window to look at. -/
theorem Resumed.of_concat (resumed : Resumed limit culprit stack (behind ++ [next])) :
    Resumed limit culprit stack behind ∨
      ∃ skipped window, behind ++ [next] = skipped ++ window ∧ window.length = windowSize ∧
        stack.resumes limit culprit window := by
  obtain ⟨skipped, first, second, third, more, same, resumes⟩ := resumed
  rcases List.eq_nil_or_concat more with rfl | ⟨others, last, rfl⟩
  · exact .inr ⟨skipped, [first, second, third], same, rfl, resumes⟩
  · rw [List.concat_eq_append] at same
    have split : behind ++ [next] =
        (skipped ++ first :: second :: third :: others) ++ [last] := by
      rw [same]
      simp
    exact .inl ⟨skipped, first, second, third, others, (List.append_inj' split rfl).1, resumes⟩

theorem Resumed.of_window {skipped : List Token} (split : behind = skipped ++ window)
    (full : window.length = windowSize) (resumes : stack.resumes limit culprit window) :
    Resumed limit culprit stack behind := by
  obtain ⟨first, second, third, rfl⟩ := List.length_eq_three.mp full
  exact ⟨skipped, first, second, third, [], split, resumes⟩

end Resumed

/-! ### The invariant -/

/-- Where the automaton stands before the end of a text. While it reads on it has resumed behind the
last error; while it skips it has not, and the window holds the last tokens. -/
def Stands (limit : Nat) (fed : List Feed) (errors : List Token) : Mode Symbol.Tree → Prop
  | .reading stack =>
      stack.Rooted ∧ ∀ culprit ∈ errors.getLast?, ∃ stack behind,
        HeldUp limit fed culprit stack behind ∧ Resumed limit culprit stack behind
  | .skipping point trial culprit window =>
      culprit ∈ errors.getLast? ∧ point.Rooted ∧ ∃ stack behind,
        HeldUp limit fed culprit stack behind ∧ ¬ Resumed limit culprit stack behind ∧
        (window = behind ∨ window.length = 2) ∧ window.length < windowSize ∧ window <:+ behind ∧
        stack.gapPoint limit culprit stack.forget = point ∧
        ∃ complaints, Stack.shift .shape limit .gap culprit point.forget = some (trial, complaints)
  | .accepted _ | .lost => False

/-- What holds however many tokens have been read, up to the one that closes the text. -/
structure Invariant (limit : Nat) (fed : List Feed) (progress : Progress Symbol.Tree) : Prop where
  run : fed.foldl (step trees limit) ⟨.reading [], #[]⟩ = progress
  apart : progress.errors.IsChain (Apart (fed.map Feed.token))
  stands : Stands limit fed progress.errors progress.mode

/-- What has become of a text when its last token has been read: it was given up if and only if
nowhere behind the last error the automaton could resume. -/
structure Closed (limit : Nat) (fed : List Feed) (progress : Progress Symbol.Tree) : Prop where
  apart : progress.errors.IsChain (Apart (fed.map Feed.token))
  clean : progress.errors = [] → ∃ value, progress.mode = .accepted value
  resumed : ∀ culprit ∈ progress.errors.getLast?, ∃ stack behind,
    HeldUp limit fed culprit stack behind ∧
    ((∃ value, progress.mode = .accepted value) ↔ ∃ skipped semi after,
      behind = skipped ++ semi :: after ∧ semi.kind = .semicolon ∧
        stack.resumes limit culprit (semi :: after.take 2))

/-- The tokens from the one on that held the automaton up are tokens of the text behind it. -/
theorem HeldUp.le {fed : List Feed} {culprit : Token} {stack : Stack Symbol.Tree}
    {behind : List Token} (held : HeldUp limit fed culprit stack behind)
    (increasing : (fed.map Feed.token).Pairwise (·.offset < ·.offset)) :
    ∀ token ∈ behind, token ∈ fed.map Feed.token ∧ culprit.offset ≤ token.offset := by
  obtain ⟨front, rest, rfl, rfl, first, _⟩ := held
  rw [List.map_append] at increasing ⊢
  intro token member
  refine ⟨List.mem_append_right _ member, ?_⟩
  have ordered := (List.pairwise_append.mp increasing).2.1
  obtain ⟨others, same⟩ := List.head?_eq_some_iff.mp first
  rw [same] at member ordered
  rcases List.mem_cons.mp member with rfl | later
  · exact Nat.le_refl _
  · exact Nat.le_of_lt ((List.pairwise_cons.mp ordered).1 token later)

/-- Where the automaton reads on, a semicolon stands behind the last error. -/
theorem Stands.semicolon {fed : List Feed} {errors : List Token} {stack : Stack Symbol.Tree}
    (stands : Stands limit fed errors (.reading stack))
    (increasing : (fed.map Feed.token).Pairwise (·.offset < ·.offset)) :
    ∀ culprit ∈ errors.getLast?, ∃ semi ∈ fed.map Feed.token, semi.kind = .semicolon ∧
      culprit.offset ≤ semi.offset := by
  intro culprit last
  obtain ⟨_, behind, held, skipped, semi, second, third, more, rfl, resumes⟩ :=
    stands.2 culprit last
  have member : semi ∈ skipped ++ semi :: second :: third :: more := by simp
  obtain ⟨inside, after⟩ := held.le increasing semi member
  exact ⟨semi, inside, Stack.resumes_semicolon resumes, after⟩

/-! ### Resuming -/

section Resuming

variable {point : Stack Symbol.Tree} {trial : Stack Shape} {culprit : Token} {window : List Token}
  (complaints : Array Complaint)

theorem atEnd_of_inner (inner : ∀ token ∈ window, token.kind ≠ .eof) : atEnd window = false := by
  rw [atEnd]
  cases last : window.getLast? with
  | none => rfl
  | some token => simpa using inner token (List.mem_of_getLast? last)

theorem atEnd_concat {inner : List Token} {closing : Token} (closes : closing.kind = .eof) :
    atEnd (inner ++ [closing]) = true := by
  rw [atEnd, List.getLast?_concat, Option.any_some, closes]
  rfl

theorem resume_errors : (resume trees limit point culprit window complaints).errors =
    syntaxErrors complaints.toList := by
  unfold resume
  split
  · rfl
  · rename_i first once
    split
    · rw [errors_append, Stack.shift_plain once, List.append_nil]
    · rename_i more rest
      have quiet : syntaxErrors (complaints ++ first ++ more).toList =
          syntaxErrors complaints.toList := by
        rw [Array.toList_appendList, Array.toList_appendList, syntaxErrors_append,
          syntaxErrors_append, Stack.shift_plain once, Stack.shiftAll_plain rest, List.append_nil,
          List.append_nil]
      split
      · exact (finish_errors _ _).trans quiet
      · exact quiet

theorem resumeAtEnd_errors :
    (resumeAtEnd trees limit point trial culprit complaints window).errors =
      syntaxErrors complaints.toList := by
  induction window with
  | nil => rfl
  | cons token more ih =>
      unfold resumeAtEnd
      split
      · exact resume_errors complaints
      · exact ih

theorem skip_errors : (skip trees limit point trial culprit window complaints).errors =
    syntaxErrors complaints.toList := by
  unfold skip
  split
  · exact resumeAtEnd_errors complaints
  split
  · rfl
  split
  · exact resume_errors complaints
  · rfl

theorem resumes_eq {stack : Stack Symbol.Tree} {objections : List Complaint}
    (back : stack.gapPoint limit culprit stack.forget = point)
    (gapped : Stack.shift .shape limit .gap culprit point.forget = some (trial, objections))
    (window : List Token) : stack.resumes limit culprit window = readable limit trial window := by
  rw [Stack.resumes, back, gapped]
  rfl

variable {objections : List Complaint}
  (gapped : Stack.shift .shape limit .gap culprit point.forget = some (trial, objections))
  (reads : readable limit trial window)

include gapped reads

variable (rooted : point.Rooted)

include rooted

/-- Inside a text the automaton reads on. -/
theorem resume_inner (inner : ∀ token ∈ window, token.kind ≠ .eof) : ∃ resumed,
    (resume trees limit point culprit window complaints).mode = .reading resumed ∧
      resumed.Rooted := by
  obtain ⟨start, first, resumed, more, once, rest⟩ := resume_reads trees gapped reads
  have grown := Stack.shift_rooted rooted (by decide) once
  refine ⟨resumed, ?_, Stack.shiftAll_rooted grown inner rest⟩
  simp only [resume, once, rest, atEnd_of_inner inner, Bool.false_eq_true, if_false]

/-- At the end of a text the automaton has read a program. -/
theorem resume_closing {inner : List Token} {closing : Token} (split : window = inner ++ [closing])
    (inside : ∀ token ∈ inner, token.kind ≠ .eof) (closes : closing.kind = .eof) :
    ∃ value, (resume trees limit point culprit window complaints).mode = .accepted value := by
  obtain ⟨start, first, resumed, more, once, rest⟩ := resume_reads trees gapped reads
  have grown := Stack.shift_rooted rooted (by decide) once
  subst split
  obtain ⟨value, found⟩ := Stack.program?_of_shiftAll grown inside closes rest
  refine ⟨value, ?_⟩
  simp only [resume, once, rest, atEnd_concat closes, if_true, finish, found]

end Resuming

/-- **At the end of a text** a program is read if an end of the window can be read behind the gap,
and the text is lost otherwise. -/
theorem resumeAtEnd_closing {point : Stack Symbol.Tree} {trial : Stack Shape} {culprit : Token}
    {objections : List Complaint} (complaints : Array Complaint)
    (gapped : Stack.shift .shape limit .gap culprit point.forget = some (trial, objections))
    (rooted : point.Rooted) {inner : List Token} {closing : Token}
    (inside : ∀ token ∈ inner, token.kind ≠ .eof) (closes : closing.kind = .eof) :
    (∃ value, (resumeAtEnd trees limit point trial culprit complaints
        (inner ++ [closing])).mode = .accepted value) ↔
      ∃ window, window ≠ [] ∧ window <:+ inner ++ [closing] ∧ readable limit trial window := by
  induction inner with
  | nil =>
      rw [List.nil_append, resumeAtEnd]
      by_cases reads : readable limit trial [closing]
      · rw [if_pos reads]
        exact ⟨fun _ => ⟨_, List.cons_ne_nil _ _, List.suffix_rfl, reads⟩,
          fun _ => resume_closing complaints gapped reads rooted rfl inside closes⟩
      · rw [if_neg reads, resumeAtEnd]
        constructor
        · rintro ⟨_, ⟨⟩⟩
        · rintro ⟨window, some_, part, reads'⟩
          rcases List.suffix_cons_iff.mp part with rfl | nothing
          · exact absurd reads' reads
          · exact absurd (List.suffix_nil.mp nothing) some_
  | cons token more ih =>
      obtain ⟨_, others⟩ := List.forall_mem_cons.mp inside
      rw [List.cons_append, resumeAtEnd]
      by_cases reads : readable limit trial (token :: (more ++ [closing]))
      · rw [if_pos reads]
        exact ⟨fun _ => ⟨_, List.cons_ne_nil _ _, List.suffix_rfl, reads⟩,
          fun _ => resume_closing complaints gapped reads rooted rfl inside closes⟩
      · rw [if_neg reads, ih others]
        constructor
        · rintro ⟨window, some_, part, reads'⟩
          exact ⟨window, some_, part.trans (List.suffix_cons _ _), reads'⟩
        · rintro ⟨window, some_, part, reads'⟩
          rcases List.suffix_cons_iff.mp part with rfl | inner
          · exact absurd reads' reads
          · exact ⟨window, some_, inner, reads'⟩

/-! ### Token by token -/

/-- An error is noted, and the automaton goes back to a place for a gap. -/
theorem recover_eq (room : 1 < limit) (stack : Stack Symbol.Tree) (culprit : Token)
    (complaints : Array Complaint) : ∃ trial objections expectation,
    Stack.shift .shape limit .gap culprit (stack.gapPoint limit culprit stack.forget).forget =
      some (trial, objections) ∧
    recover trees limit stack culprit complaints =
      skip trees limit (stack.gapPoint limit culprit stack.forget) trial culprit [culprit]
        (complaints.push (.syntactic culprit (.expected expectation))) := by
  obtain ⟨⟨trial, objections⟩, gapped⟩ :=
    Option.isSome_iff_exists.mp (Stack.gapPoint_shift culprit room stack)
  refine ⟨trial, objections, stack.expectation culprit.kind, gapped, ?_⟩
  simp only [recover, gapped]

theorem skip_first {point : Stack Symbol.Tree} {trial : Stack Shape} {culprit : Token}
    (inner : culprit.kind ≠ .eof) (complaints : Array Complaint) :
    skip trees limit point trial culprit [culprit] complaints =
      ⟨.skipping point trial culprit [culprit], complaints⟩ := by
  have inside : atEnd [culprit] = false := atEnd_of_inner (by simpa using inner)
  rw [skip, inside]
  rfl

theorem recover_errors (room : 1 < limit) (stack : Stack Symbol.Tree) (culprit : Token)
    (complaints : Array Complaint) : (recover trees limit stack culprit complaints).errors =
      syntaxErrors complaints.toList ++ [culprit] := by
  obtain ⟨trial, _, expectation, _, same⟩ := recover_eq room stack culprit complaints
  rw [same, skip_errors, Array.toList_push, syntaxErrors_append]
  rfl

section Stepping

variable {fed : List Feed} {progress : Progress Symbol.Tree} {next : Feed} (room : 1 < limit)
  (invariant : Invariant limit fed progress)
  (increasing : ((fed ++ [next]).map Feed.token).Pairwise (·.offset < ·.offset))

include invariant increasing in
/-- The next token stands apart from the last error, where the automaton reads on. -/
theorem Invariant.apart_next {stack : Stack Symbol.Tree}
    (reading : progress.mode = .reading stack) :
    (progress.errors ++ [next.token]).IsChain (Apart ((fed ++ [next]).map Feed.token)) := by
  rw [List.map_append] at increasing ⊢
  obtain ⟨before, _, between⟩ := List.pairwise_append.mp increasing
  have earlier : progress.errors.IsChain
      (Apart (fed.map Feed.token ++ [next].map Feed.token)) :=
    invariant.apart.imp fun _ _ => Apart.later
  refine List.isChain_append.mpr ⟨earlier, List.isChain_singleton _, ?_⟩
  rintro culprit last _ ⟨⟩
  have stands := invariant.stands
  rw [reading] at stands
  obtain ⟨semi, member, kind, after⟩ := stands.semicolon before culprit last
  exact ⟨semi, List.mem_append_left _ member, kind, after,
    between semi member next.token List.mem_cons_self⟩

include invariant in
theorem Invariant.apart_later :
    progress.errors.IsChain (Apart ((fed ++ [next]).map Feed.token)) := by
  rw [List.map_append]
  exact invariant.apart.imp fun _ _ => Apart.later

include invariant in
/-- A token that cannot be read holds the automaton up. -/
theorem Invariant.held {stack : Stack Symbol.Tree} (reading : progress.mode = .reading stack)
    (stuck : (Stack.seek trees next.token.kind limit stack).target = none) :
    HeldUp limit (fed ++ [next]) next.token (Stack.seek trees next.token.kind limit stack).stack
      [next.token] := by
  refine ⟨fed, [next], rfl, rfl, rfl, stack, progress.complaints, ?_, stuck, rfl⟩
  rw [invariant.run, ← reading]

/-- What has been objected to before a token is looked at. -/
def heard (progress : Progress Symbol.Tree) (next : Feed) : Array Complaint :=
  progress.complaints ++ next.faults.map Complaint.lexical

theorem errors_heard : syntaxErrors (heard progress next).toList = progress.errors := by
  rw [heard, Array.toList_appendList, syntaxErrors_append, syntaxErrors_lexical, List.append_nil]
  rfl

/-- A step while the automaton skips. -/
theorem step_skipping {point : Stack Symbol.Tree} {trial : Stack Shape} {culprit : Token}
    {window : List Token} (skipping : progress.mode = .skipping point trial culprit window) :
    step trees limit progress next =
      skip trees limit point trial culprit (window ++ [next.token]) (heard progress next) := by
  unfold step heard
  rw [skipping]

theorem errors_sought (stack : Stack Symbol.Tree) :
    syntaxErrors (heard progress next ++
      (Stack.seek trees next.token.kind limit stack).complaints).toList = progress.errors := by
  rw [Array.toList_appendList, syntaxErrors_append, errors_heard, Stack.seek_plain, List.append_nil]

section Reading

variable {stack : Stack Symbol.Tree} (reading : progress.mode = .reading stack)

include reading

/-- A token that cannot be read. -/
theorem step_stuck (stuck : (Stack.seek trees next.token.kind limit stack).target = none) :
    step trees limit progress next =
      recover trees limit (Stack.seek trees next.token.kind limit stack).stack next.token
        (heard progress next ++ (Stack.seek trees next.token.kind limit stack).complaints) := by
  simp only [step, reading, stuck, heard]

variable {target : State}
  (found : (Stack.seek trees next.token.kind limit stack).target = some target)

include found

/-- The token that closes the text. -/
theorem step_finish (closes : next.token.kind = .eof) : step trees limit progress next =
    finish (Stack.seek trees next.token.kind limit stack).stack
      (heard progress next ++ (Stack.seek trees next.token.kind limit stack).complaints) := by
  simp only [step, reading, found, if_pos closes, heard]

/-- A token inside the text. -/
theorem step_shift (inner : next.token.kind ≠ .eof) :
    (step trees limit progress next).mode = .reading (Stack.settle trees limit
        (Stack.push trees target next.token.kind next.token
          (Stack.seek trees next.token.kind limit stack).stack)).1 ∧
      (step trees limit progress next).errors = progress.errors := by
  have quiet : syntaxErrors (heard progress next ++
      (Stack.seek trees next.token.kind limit stack).complaints).toList = progress.errors :=
    errors_sought stack
  simp only [step, reading, found, if_neg inner, true_and]
  rw [errors_append, Stack.settle_plain, List.append_nil]
  exact quiet

end Reading

/-- Too few tokens for a window cannot be resumed at. -/
theorem not_resumed_of_short {culprit : Token} {stack : Stack Symbol.Tree} {behind : List Token}
    (short : behind.length < windowSize) : ¬ Resumed limit culprit stack behind := by
  rintro ⟨skipped, first, second, third, more, rfl, _⟩
  simp only [List.length_append, List.length_cons, windowSize] at short
  omega

/-- A token that cannot be read begins a stretch that is skipped. -/
theorem Invariant.stuck (invariant : Invariant limit fed progress) (room : 1 < limit)
    {stack : Stack Symbol.Tree}
    (reading : progress.mode = .reading stack) (inner : next.token.kind ≠ .eof)
    (stuck : (Stack.seek trees next.token.kind limit stack).target = none) :
    Stands limit (fed ++ [next]) (progress.errors ++ [next.token])
      (step trees limit progress next).mode := by
  have stands := invariant.stands
  rw [reading] at stands
  obtain ⟨trial, objections, _, gapped, skipped⟩ := recover_eq room
    (Stack.seek trees next.token.kind limit stack).stack next.token
    (heard progress next ++ (Stack.seek trees next.token.kind limit stack).complaints)
  rw [step_stuck reading stuck, skipped, skip_first inner]
  have below := (Stack.seek_rooted (σ := trees) next.token.kind limit stands.1).suffix
    (Stack.gapPoint_suffix limit next.token _
      (Stack.seek trees next.token.kind limit stack).stack.forget)
  exact ⟨by simp, below, _, [next.token], invariant.held reading stuck,
    not_resumed_of_short (Nat.le_add_left 2 1), .inl rfl, Nat.le_add_left 2 1, List.suffix_rfl, rfl,
    objections, gapped⟩

/-- A token that is read keeps what the automaton has resumed behind. -/
theorem Invariant.shifted (invariant : Invariant limit fed progress) {stack : Stack Symbol.Tree}
    (reading : progress.mode = .reading stack) (inner : next.token.kind ≠ .eof) {target : State}
    (found : (Stack.seek trees next.token.kind limit stack).target = some target) :
    Stands limit (fed ++ [next]) progress.errors (step trees limit progress next).mode := by
  have stands := invariant.stands
  rw [reading] at stands
  obtain ⟨rooted, resumed⟩ := stands
  have leads := Stack.seek_target next.token.kind limit found
  rw [(step_shift reading found inner).1]
  refine ⟨Stack.settle_rooted limit ⟨Stack.seek_rooted _ limit rooted,
    Or.inl (State.action_inner leads inner)⟩, fun culprit last => ?_⟩
  obtain ⟨stack, behind, held, resumed⟩ := resumed culprit last
  exact ⟨stack, _, held.later next, resumed.later⟩

/-- A token in a stretch that is skipped ends the stretch or makes it longer. -/
theorem Invariant.skipped (invariant : Invariant limit fed progress) {point : Stack Symbol.Tree}
    {trial : Stack Shape} {culprit : Token} {window : List Token}
    (skipping : progress.mode = .skipping point trial culprit window)
    (inner : ∀ token ∈ (fed ++ [next]).map Feed.token, token.kind ≠ .eof) :
    Stands limit (fed ++ [next]) progress.errors (step trees limit progress next).mode := by
  have stands := invariant.stands
  rw [skipping] at stands
  obtain ⟨last, rooted, stack, behind, held, futile, fills, short, ⟨ahead, part⟩, back, objections,
    gapped⟩ := stands
  have later := held.later next
  have split : behind ++ [next.token] = ahead ++ (window ++ [next.token]) := by
    rw [← part, List.append_assoc]
  have inside : ∀ token ∈ window ++ [next.token], token.kind ≠ .eof := by
    obtain ⟨front, rest, same, tokens, _⟩ := later
    intro token member
    refine inner token ?_
    rw [same, List.map_append, tokens, split]
    exact List.mem_append_right _ (List.mem_append_right _ member)
  have length : (window ++ [next.token]).length = window.length + 1 := List.length_append
  rw [step_skipping skipping, skip, atEnd_of_inner inside, if_neg Bool.false_ne_true]
  by_cases few : (window ++ [next.token]).length < windowSize
  · -- the window is all that there is behind the error so far
    rw [if_pos few]
    have all : window = behind := by
      refine fills.resolve_right fun two => ?_
      rw [length, two] at few
      exact absurd few (Nat.lt_irrefl 3)
    subst all
    exact ⟨last, rooted, stack, _, later, not_resumed_of_short few, .inl rfl, few, List.suffix_rfl,
      back, objections, gapped⟩
  · have full : (window ++ [next.token]).length = windowSize := by omega
    rw [if_neg few]
    by_cases reads : readable limit trial (window ++ [next.token])
    · rw [if_pos reads]
      obtain ⟨resumed, mode, grown⟩ :=
        resume_inner (heard progress next) gapped reads rooted inside
      rw [mode]
      refine ⟨grown, fun other same => ?_⟩
      cases Option.mem_unique last same
      exact ⟨stack, _, later, .of_window split full (by rwa [resumes_eq back gapped])⟩
    · rw [if_neg reads]
      have two : (window ++ [next.token]).tail.length = 2 := by
        rw [List.length_tail, full]
        rfl
      have tail : (window ++ [next.token]).tail <:+ behind ++ [next.token] :=
        (List.tail_suffix _).trans ⟨ahead, split.symm⟩
      refine ⟨last, rooted, stack, _, later, fun resumed => ?_, .inr two, by rw [two]; decide, tail,
        back, objections, gapped⟩
      rcases resumed.of_concat with before | ⟨others, found, same, long, resumes⟩
      · exact futile before
      · -- the only new window is the one that has just been tried
        have equal : found = window ++ [next.token] :=
          (List.append_inj' (same.symm.trans split) (long.trans full.symm)).2
        rw [equal, resumes_eq back gapped] at resumes
        exact reads resumes

/-- **One token inside a text** keeps the invariant. -/
theorem step_invariant (room : 1 < limit) (invariant : Invariant limit fed progress)
    (inner : ∀ token ∈ (fed ++ [next]).map Feed.token, token.kind ≠ .eof)
    (increasing : ((fed ++ [next]).map Feed.token).Pairwise (·.offset < ·.offset)) :
    Invariant limit (fed ++ [next]) (step trees limit progress next) := by
  have run : (fed ++ [next]).foldl (step trees limit) ⟨.reading [], #[]⟩ =
      step trees limit progress next := by
    rw [List.foldl_append, invariant.run]
    rfl
  have inside : next.token.kind ≠ .eof := inner next.token (by simp)
  cases mode : progress.mode with
  | reading stack =>
      cases found : (Stack.seek trees next.token.kind limit stack).target with
      | none =>
          have errors : (step trees limit progress next).errors =
              progress.errors ++ [next.token] := by
            rw [step_stuck mode found, recover_errors room, errors_sought]
          refine ⟨run, ?_, ?_⟩ <;> rw [errors]
          · exact invariant.apart_next increasing mode
          · exact invariant.stuck room mode inside found
      | some target =>
          refine ⟨run, ?_, ?_⟩ <;> rw [(step_shift mode found inside).2]
          · exact invariant.apart_later
          · exact invariant.shifted mode inside found
  | skipping point trial culprit window =>
      have errors : (step trees limit progress next).errors = progress.errors := by
        rw [step_skipping mode, skip_errors, errors_heard]
      refine ⟨run, ?_, ?_⟩ <;> rw [errors]
      · exact invariant.apart_later
      · exact invariant.skipped mode inner
  | accepted value | lost =>
      have stands := invariant.stands
      rw [mode] at stands
      exact stands.elim

/-! ### The end of a text -/

/-- A text at whose end the automaton cannot read on is lost. -/
theorem Invariant.stuck_closing (invariant : Invariant limit fed progress) (room : 1 < limit)
    {stack : Stack Symbol.Tree} (reading : progress.mode = .reading stack)
    (closes : next.token.kind = .eof)
    (stuck : (Stack.seek trees next.token.kind limit stack).target = none)
    (increasing : ((fed ++ [next]).map Feed.token).Pairwise (·.offset < ·.offset)) :
    Closed limit (fed ++ [next]) (step trees limit progress next) := by
  have errors : (step trees limit progress next).errors = progress.errors ++ [next.token] := by
    rw [step_stuck reading stuck, recover_errors room, errors_sought]
  refine ⟨by rw [errors]; exact invariant.apart_next increasing reading, fun none => ?_, ?_⟩
  · rw [errors] at none
    exact absurd none (by simp)
  · rw [errors, List.getLast?_concat]
    rintro culprit ⟨⟩
    refine ⟨_, _, invariant.held reading stuck, ?_⟩
    constructor
    · rintro ⟨value, accepted⟩
      obtain ⟨trial, objections, _, gapped, skipped⟩ := recover_eq room
        (Stack.seek trees next.token.kind limit stack).stack next.token
        (heard progress next ++ (Stack.seek trees next.token.kind limit stack).complaints)
      have unread : readable limit trial [next.token] = false := by
        obtain ⟨base, rfl, _⟩ := Stack.shift_gap gapped
        refine Bool.eq_false_iff.mpr fun reads => ?_
        cases closes.symm.trans (Stack.readable_semicolon reads)
      have ends : atEnd [next.token] = true := @atEnd_concat [] _ closes
      rw [step_stuck reading stuck, skipped, skip, if_pos ends, resumeAtEnd, unread,
        if_neg Bool.false_ne_true, resumeAtEnd] at accepted
      cases accepted
    · rintro ⟨skipped, semi, after, split, kind, _⟩
      have member : semi ∈ [next.token] := by
        rw [split]
        simp
      rw [List.mem_singleton.mp member, closes] at kind
      cases kind

/-- A text at whose end the automaton reads on has been read to its end. -/
theorem Invariant.finished (invariant : Invariant limit fed progress) {stack : Stack Symbol.Tree}
    (reading : progress.mode = .reading stack) (closes : next.token.kind = .eof) {target : State}
    (found : (Stack.seek trees next.token.kind limit stack).target = some target) :
    Closed limit (fed ++ [next]) (step trees limit progress next) := by
  have stands := invariant.stands
  rw [reading] at stands
  obtain ⟨rooted, resumed⟩ := stands
  have accepts := State.action_eof closes (Stack.seek_target next.token.kind limit found)
  obtain ⟨value, alone⟩ :=
    (Stack.seek_rooted (σ := trees) next.token.kind limit rooted).program accepts
  have errors : (step trees limit progress next).errors = progress.errors := by
    rw [step_finish reading found closes, finish_errors, errors_sought]
  have accepted : ∃ value, (step trees limit progress next).mode = .accepted value := by
    rw [step_finish reading found closes, finish, alone]
    exact ⟨value, rfl⟩
  refine ⟨by rw [errors]; exact invariant.apart_later, fun _ => accepted, fun culprit last => ?_⟩
  rw [errors] at last
  obtain ⟨stack, behind, held, skipped, semi, second, third, more, rfl, resumes⟩ :=
    resumed culprit last
  refine ⟨stack, _, held.later next, fun _ => ?_, fun _ => accepted⟩
  exact ⟨skipped, semi, second :: third :: (more ++ [next.token]), by simp,
    Stack.resumes_semicolon resumes, resumes⟩

/-- A text at whose end the automaton skips is given up unless an end of it can be read. -/
theorem Invariant.skipped_closing (invariant : Invariant limit fed progress)
    {point : Stack Symbol.Tree}
    {trial : Stack Shape} {culprit : Token} {window : List Token}
    (skipping : progress.mode = .skipping point trial culprit window)
    (inner : ∀ token ∈ fed.map Feed.token, token.kind ≠ .eof) (closes : next.token.kind = .eof) :
    Closed limit (fed ++ [next]) (step trees limit progress next) := by
  have stands := invariant.stands
  rw [skipping] at stands
  obtain ⟨last, rooted, stack, behind, held, futile, fills, short, part, back, objections,
    gapped⟩ := stands
  have errors : (step trees limit progress next).errors = progress.errors := by
    rw [step_skipping skipping, skip_errors, errors_heard]
  have inside : ∀ token ∈ window, token.kind ≠ .eof := by
    obtain ⟨front, rest, same, tokens, _⟩ := held
    intro token member
    refine inner token ?_
    rw [same, List.map_append, tokens]
    exact List.mem_append_right _ (part.subset member)
  have ends := resumeAtEnd_closing (heard progress next) gapped rooted inside closes
  have extended : window ++ [next.token] <:+ behind ++ [next.token] := by
    obtain ⟨ahead, rfl⟩ := part
    exact ⟨ahead, (List.append_assoc _ _ _).symm⟩
  refine ⟨by rw [errors]; exact invariant.apart_later, fun none => ?_, fun other same => ?_⟩
  · rw [errors] at none
    rw [none] at last
    cases last
  rw [errors] at same
  cases Option.mem_unique last same
  refine ⟨stack, _, held.later next, ?_⟩
  rw [step_skipping skipping, skip, if_pos (atEnd_concat closes), ends]
  constructor
  · rintro ⟨found, some_, end_, reads⟩
    cases found with
    | nil => exact absurd rfl some_
    | cons semi after =>
        rw [← resumes_eq back gapped] at reads
        obtain ⟨skipped, split⟩ := end_.trans extended
        have few : after.length ≤ 2 := by
          have bound := end_.length_le
          rw [List.length_append, List.length_cons, List.length_singleton] at bound
          unfold windowSize at short
          omega
        refine ⟨skipped, semi, after, split.symm, Stack.resumes_semicolon reads, ?_⟩
        rwa [List.take_of_length_le few]
  · rintro ⟨skipped, semi, after, split, _, resumes⟩
    -- a window of three tokens has been tried before, or it ends with the text as shorter ones do
    suffices tried : ∃ found, found ≠ [] ∧ found <:+ behind ++ [next.token] ∧
        found.length ≤ windowSize ∧ stack.resumes limit culprit found by
      obtain ⟨found, some_, end_, few, reads⟩ := tried
      rw [resumes_eq back gapped] at reads
      refine ⟨found, some_, ?_, reads⟩
      rcases fills with rfl | two
      · exact end_
      · refine List.suffix_of_suffix_length_le end_ extended ?_
        rw [List.length_append, two]
        exact few
    by_cases few : after.length < 2
    · rw [List.take_of_length_le (Nat.le_of_lt few)] at resumes
      exact ⟨semi :: after, List.cons_ne_nil _ _, ⟨skipped, split.symm⟩,
        by simp [windowSize]; omega, resumes⟩
    · have full : (semi :: after.take 2).length = windowSize := by
        rw [List.length_cons, List.length_take, Nat.min_eq_left (Nat.le_of_not_lt few)]
        rfl
      have resumed : Resumed limit culprit stack (behind ++ [next.token]) := by
        obtain ⟨first, second, third, same⟩ := List.length_eq_three.mp full
        rw [same] at resumes
        refine ⟨skipped, first, second, third, after.drop 2, ?_, resumes⟩
        rw [split, ← List.take_append_drop 2 after, ← List.cons_append, same]
        simp
      rcases resumed.of_concat with before | ⟨others, found, same, long, reads⟩
      · exact absurd before futile
      · refine ⟨found, ?_, ⟨others, same.symm⟩, Nat.le_of_eq long, reads⟩
        rintro rfl
        cases long

/-- **The token that closes a text** settles whether it is given up. -/
theorem step_closes (room : 1 < limit) (invariant : Invariant limit fed progress)
    (inner : ∀ token ∈ fed.map Feed.token, token.kind ≠ .eof) (closes : next.token.kind = .eof)
    (increasing : ((fed ++ [next]).map Feed.token).Pairwise (·.offset < ·.offset)) :
    Closed limit (fed ++ [next]) (step trees limit progress next) := by
  cases mode : progress.mode with
  | reading stack =>
      cases found : (Stack.seek trees next.token.kind limit stack).target with
      | none => exact invariant.stuck_closing room mode closes found increasing
      | some target => exact invariant.finished mode closes found
  | skipping point trial culprit window => exact invariant.skipped_closing mode inner closes
  | accepted value | lost =>
      have stands := invariant.stands
      rw [mode] at stands
      exact stands.elim

end Stepping

/-- **All tokens inside a text** keep the invariant. -/
theorem steps_invariant (room : 1 < limit) (tokens : List Feed) {fed : List Feed}
    {progress : Progress Symbol.Tree} (invariant : Invariant limit fed progress)
    (inner : ∀ token ∈ (fed ++ tokens).map Feed.token, token.kind ≠ .eof)
    (increasing : ((fed ++ tokens).map Feed.token).Pairwise (·.offset < ·.offset)) :
    Invariant limit (fed ++ tokens) (tokens.foldl (step trees limit) progress) := by
  induction tokens generalizing fed progress with
  | nil =>
      rw [List.append_nil]
      exact invariant
  | cons next more ih =>
      rw [List.append_cons] at inner increasing ⊢
      rw [List.map_append] at inner increasing
      have now := step_invariant room invariant
        (fun token member => inner token (List.mem_append_left _ member))
        (List.pairwise_append.mp increasing).1
      rw [← List.map_append] at inner increasing
      exact ih now inner increasing

end Progress

/-! ### Whole texts -/

/-- Whether reading a text ends with nothing. -/
def givesUp (text : String) : Bool :=
  (readProgram trees (feed text)).1.isNone

/-- The automaton's last word on a text. -/
def finalProgress (text : String) : Progress Symbol.Tree :=
  (feed text).foldl (Progress.step trees (reductionLimit (feed text).length)) ⟨.reading [], #[]⟩

theorem readProgram_final (text : String) :
    ((readProgram trees (feed text)).2 = (finalProgress text).complaints.toList) ∧
      (givesUp text = false ↔ ∃ value, (finalProgress text).mode = .accepted value) := by
  unfold givesUp readProgram finalProgress
  simp only
  split
  · rename_i value accepted
    exact ⟨rfl, fun _ => ⟨value, accepted⟩, fun _ => rfl⟩
  · rename_i other
    refine ⟨rfl, fun never => Bool.noConfusion never, ?_⟩
    rintro ⟨value, accepted⟩
    exact absurd accepted (other value)

theorem final_errors (text : String) :
    (finalProgress text).errors = syntaxErrors (parse text).complaints :=
  congrArg syntaxErrors (readProgram_final text).1.symm

/-- A feed is closed by its last token. -/
theorem feed_closed (text : String) : ∃ inner closing, feed text = inner ++ [closing] ∧
    closing.token.kind = .eof ∧ ∀ token ∈ inner.map Feed.token, token.kind ≠ .eof := by
  obtain ⟨front, last, whole, closes, inside⟩ := scan_closed text
  rw [← feed_tokens] at whole
  obtain ⟨inner, rest, split, same, single⟩ := List.map_eq_append_iff.mp whole
  obtain ⟨closing, rfl, rfl⟩ := List.map_eq_singleton_iff.mp single
  exact ⟨inner, closing, split, closes, by rwa [same]⟩

theorem final_closed (text : String) :
    Progress.Closed (reductionLimit (feed text).length) (feed text) (finalProgress text) := by
  have room : 1 < reductionLimit (feed text).length :=
    Nat.lt_of_lt_of_le (by decide) (Nat.le_add_left 16 _)
  have increasing := scan_increasing text
  rw [← feed_tokens] at increasing
  unfold finalProgress
  generalize reductionLimit (feed text).length = limit at room ⊢
  obtain ⟨inner, closing, split, closes, inside⟩ := feed_closed text
  rw [split] at increasing ⊢
  have start : Progress.Invariant limit [] ⟨.reading [], #[]⟩ :=
    ⟨rfl, List.isChain_nil, trivial, fun _ none => by cases none⟩
  have ordered : (inner.map Feed.token).Pairwise (·.offset < ·.offset) := by
    rw [List.map_append] at increasing
    exact (List.pairwise_append.mp increasing).1
  have invariant := Progress.steps_invariant room inner start inside ordered
  rw [List.foldl_append]
  exact Progress.step_closes room invariant inside closes increasing

/-- Whether a token is a semicolon at or behind another token. -/
def endsBehind (first token : Token) : Bool :=
  token.kind == .semicolon && decide (first.offset ≤ token.offset)

/-- Between tokens that stand apart there is one semicolon less to come. -/
theorem Apart.countP_lt {tokens : List Token} {first second : Token}
    (apart : Apart tokens first second) :
    tokens.countP (endsBehind second) < tokens.countP (endsBehind first) := by
  obtain ⟨semi, member, kind, after, before⟩ := apart
  obtain ⟨front, rest, rfl⟩ := List.append_of_mem member
  have fewer : ∀ tokens : List Token,
      tokens.countP (endsBehind second) ≤ tokens.countP (endsBehind first) := fun tokens =>
    List.countP_mono_left fun token _ ends => by
      simp only [endsBehind, Bool.and_eq_true, decide_eq_true_eq] at ends ⊢
      exact ⟨ends.1, by omega⟩
  have here : endsBehind first semi = true := by simp [endsBehind, kind, after]
  have gone : ¬ endsBehind second semi = true := by simp [endsBehind, Nat.not_le_of_lt before]
  rw [List.countP_append, List.countP_append, List.countP_cons_of_pos here,
    List.countP_cons_of_neg gone]
  have ahead := fewer front
  have behind := fewer rest
  omega

/-- Tokens that stand apart are at most one more than the semicolons behind the first of them. -/
theorem length_le_of_apart {tokens errors : List Token} {first : Token}
    (apart : (first :: errors).IsChain (Apart tokens)) :
    errors.length ≤ tokens.countP (endsBehind first) := by
  induction errors generalizing first with
  | nil => exact Nat.zero_le _
  | cons second more ih =>
      obtain ⟨between, rest⟩ := List.isChain_cons_cons.mp apart
      exact Nat.lt_of_le_of_lt (ih rest) between.countP_lt

theorem Apart.offset_lt {tokens : List Token} {first second : Token}
    (apart : Apart tokens first second) : first.offset < second.offset := by
  obtain ⟨semi, _, _, after, before⟩ := apart
  exact Nat.lt_of_le_of_lt after before

/-- **Going on after errors makes progress and ends.** Reductions end on every stack, and a larger
limit on their number changes nothing. Syntax errors stand at growing offsets with a semicolon at
the first of two or between them, so there is at most one more of them than there are semicolons. A
text without syntax errors is not given up. One with syntax errors is given up, and comes back
empty, exactly if at no semicolon at or behind the last of them that semicolon and the next two
tokens, or what is left of the text, can be read behind a gap. -/
theorem parse_recovers (text : String) :
    (∀ kind, WellFounded (Stack.Reduces trees kind)) ∧
    (∀ kind, WellFounded (Stack.Reduces .shape kind)) ∧
    (∀ limit, reductionLimit (feed text).length ≤ limit →
      (feed text).foldl (Progress.step trees limit) ⟨.reading [], #[]⟩ = finalProgress text) ∧
    (syntaxErrors (parse text).complaints).Pairwise (·.offset < ·.offset) ∧
    (syntaxErrors (parse text).complaints).IsChain (Apart (tokensOf (scan text))) ∧
    (syntaxErrors (parse text).complaints).length ≤
      (tokensOf (scan text)).countP (·.kind == .semicolon) + 1 ∧
    (givesUp text → (parse text).tree = []) ∧
    (givesUp text → syntaxErrors (parse text).complaints ≠ []) ∧
    ∀ culprit ∈ (syntaxErrors (parse text).complaints).getLast?, ∃ stack behind,
      Progress.HeldUp (reductionLimit (feed text).length) (feed text) culprit stack behind ∧
      (givesUp text ↔ ∀ skipped semi after, behind = skipped ++ semi :: after →
        semi.kind = .semicolon →
        stack.resumes (reductionLimit (feed text).length) culprit (semi :: after.take 2) = false) ∧
      ((∀ semi ∈ tokensOf (scan text), semi.kind = .semicolon → semi.offset < culprit.offset) →
        givesUp text) := by
  have closed := final_closed text
  have apart := closed.apart
  have accepted := (readProgram_final text).2
  rw [final_errors, feed_tokens] at apart
  refine ⟨Stack.reduces_wellFounded trees, Stack.reduces_wellFounded .shape,
    fun limit => read_limit trees (feed text), ?_, apart, ?_, fun lost => ?_,
    fun lost none => ?_, ?_⟩
  · exact (apart.imp fun _ _ => Apart.offset_lt).pairwise
  · cases errors : syntaxErrors (parse text).complaints with
    | nil => exact Nat.zero_le _
    | cons first more =>
        rw [errors] at apart
        refine Nat.succ_le_succ (Nat.le_trans (length_le_of_apart apart) ?_)
        exact List.countP_mono_left fun token _ ends => (Bool.and_eq_true_iff.mp ends).1
  · have none : (readProgram trees (feed text)).1 = none := Option.isNone_iff_eq_none.mp lost
    unfold parse
    simp only [none]
    rfl
  · rw [accepted.mpr (closed.clean (by rw [final_errors, none]))] at lost
    cases lost
  · intro culprit last
    obtain ⟨stack, behind, held, resumes⟩ := closed.resumed culprit (by rwa [final_errors])
    have given : givesUp text ↔ ∀ skipped semi after, behind = skipped ++ semi :: after →
        semi.kind = .semicolon → stack.resumes (reductionLimit (feed text).length) culprit
          (semi :: after.take 2) = false := by
      rw [← Bool.not_eq_false, accepted, resumes]
      constructor
      · intro never skipped semi after split kind
        exact Bool.eq_false_iff.mpr fun resumes =>
          never ⟨skipped, semi, after, split, kind, resumes⟩
      · rintro never ⟨skipped, semi, after, split, kind, resumes⟩
        rw [never skipped semi after split kind] at resumes
        cases resumes
    refine ⟨stack, behind, held, given, fun before => given.mpr ?_⟩
    intro skipped semi after split kind
    have increasing := scan_increasing text
    rw [← feed_tokens] at increasing before
    have member : semi ∈ behind := by rw [split]; simp
    obtain ⟨inside, later⟩ := held.le increasing semi member
    exact absurd (before semi inside kind) (Nat.not_lt_of_le later)

/-- A semicolon behind the last syntax error is not enough to go on. -/
theorem semicolon_not_resumed :
    (syntaxErrors (parse "print 0; 1 2; )").complaints).map Token.offset = [11] ∧
    (tokensOf (scan "print 0; 1 2; )")).any (fun token =>
      token.kind == .semicolon && decide (11 ≤ token.offset)) = true ∧
    givesUp "print 0; 1 2; )" = true := by
  decide +kernel

end Lox
