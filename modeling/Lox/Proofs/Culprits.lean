/-
**Culprits.** What is complained about stands in the text.

* `Progress.Knows` is the invariant of the automaton: the tokens that its stack holds, those in its
  window and those it has complained about are among the given ones. `Progress.step_knows` keeps it
  token by token.
* `mem_scan_of_complaint`: so every complaint at a token is at a token of the scan.
* `mem_scan_of_violation`: resolving complains only about tokens that the tree holds.
* `scan_token_stands` and `scan_fault_stands`: tokens and faults of a scan are where they say.
-/

import Lox.Proofs.Agreement
import Lox.Proofs.Complaints
import Lox.Proofs.Division

namespace Lox

/-! ### The automaton -/

section Known

variable (known : Token → Prop)

/-- Complaints at tokens are at known ones. -/
def Blames (complaints : List Complaint) : Prop :=
  ∀ token objection, .syntactic token objection ∈ complaints → known token

/-- All tokens that a stack holds are known. -/
def Stack.Holds (stack : Stack Symbol.Tree) : Prop :=
  ∀ entry ∈ stack, ∀ token ∈ entry.symbol.tokens entry.value, known token

/-- All tokens that the automaton holds, or is about to read again, are known. -/
def Mode.Holds : Mode Symbol.Tree → Prop
  | .reading stack => stack.Holds known
  | .skipping stack _ _ window => stack.Holds known ∧ ∀ token ∈ window, known token
  | .accepted _ | .lost => True

/-- All tokens that the automaton holds or has complained about are known. -/
structure Progress.Knows (progress : Progress Symbol.Tree) : Prop where
  blames : Blames known progress.complaints.toList
  holds : progress.mode.Holds known

end Known

variable {known : Token → Prop}

namespace Blames

variable {complaints more : List Complaint}

theorem nil : Blames known [] :=
  fun _ _ member => absurd member List.not_mem_nil

theorem append (first : Blames known complaints) (second : Blames known more) :
    Blames known (complaints ++ more) :=
  fun token objection member => (List.mem_append.mp member).elim (first token objection)
    (second token objection)

theorem lexical (faults : List Fault) : Blames known (faults.map Complaint.lexical) := by
  intro token objection member
  obtain ⟨_, _, same⟩ := List.mem_map.mp member
  cases same

theorem appendList {complaints : Array Complaint} (first : Blames known complaints.toList)
    (second : Blames known more) : Blames known (complaints ++ more).toList := by
  rw [Array.toList_appendList]
  exact first.append second

theorem push {complaints : Array Complaint} (first : Blames known complaints.toList)
    {culprit : Token} (knows : known culprit) (objection : Objection) :
    Blames known (complaints.push (.syntactic culprit objection)).toList := by
  rw [Array.toList_push]
  refine first.append fun token other member => ?_
  cases List.mem_singleton.mp member
  exact knows

end Blames

namespace Stack

variable {stack : Stack Symbol.Tree}

theorem Holds.suffix {deeper : Stack Symbol.Tree} (holds : Holds known stack)
    (part : deeper <:+ stack) : Holds known deeper :=
  fun entry member => holds entry (part.subset member)

theorem Holds.pop (holds : Holds known stack) (shape : List Symbol) {rest : Stack Symbol.Tree}
    {values : Values Symbol.Tree shape} (popped : pop shape stack = some (values, rest)) :
    ∀ token ∈ Values.tokens shape values, known token := by
  induction shape generalizing rest with
  | nil => exact List.forall_mem_nil _
  | cons symbol more ih =>
      unfold Stack.pop at popped
      split at popped
      · cases popped
      · cases popped
      · rename_i others entry deeper inner
        split at popped
        · rename_i same
          cases popped
          subst same
          have here := holds.suffix (pop_suffix more inner) entry List.mem_cons_self
          exact List.forall_mem_append.mpr ⟨here, ih inner⟩
        · cases popped

theorem Holds.reduce (holds : Holds known stack) {rule : Rule} {reduced : Stack Symbol.Tree}
    {complaints : List Complaint}
    (made : Stack.reduce trees rule stack = some (reduced, complaints)) :
    Holds known reduced ∧ Blames known complaints := by
  unfold Stack.reduce at made
  split at made
  · cases made
  · rename_i values rest popped
    have parts := holds.pop rule.rhs popped
    split at made
    · cases made
    · cases made
      refine ⟨List.forall_mem_cons.mpr ⟨fun token member => parts token ?_,
        holds.suffix (pop_suffix rule.rhs popped)⟩, fun token objection member => ?_⟩
      · exact (rule.tokens_subperm values).subset member
      · obtain ⟨objected, inside, same⟩ := List.mem_map.mp member
        cases same
        exact parts _ (Tree.objections_spec rule values objected inside).1

theorem Holds.seek (holds : Holds known stack) (kind : Terminal) (limit : Nat) :
    Holds known (Stack.seek trees kind limit stack).stack ∧
      Blames known (Stack.seek trees kind limit stack).complaints := by
  fun_induction Stack.seek trees kind limit stack with
  | case5 limit stack rule _ reduced complaints made sought ih =>
      obtain ⟨below, first⟩ := holds.reduce made
      exact ⟨(ih below).1, first.append (ih below).2⟩
  | _ => exact ⟨holds, .nil⟩

theorem Holds.settle (holds : Holds known stack) (limit : Nat) :
    Holds known (Stack.settle trees limit stack).1 ∧
      Blames known (Stack.settle trees limit stack).2 := by
  fun_induction Stack.settle trees limit stack with
  | case4 limit stack rule _ reduced complaints made settled more found ih =>
      rw [found] at ih
      obtain ⟨below, first⟩ := holds.reduce made
      exact ⟨(ih below).1, first.append (ih below).2⟩
  | _ => exact ⟨holds, .nil⟩

/-- A gap holds no token. -/
theorem Holds.push (holds : Holds known stack) (target : State) {kind : Terminal} {token : Token}
    (knows : kind ≠ .gap → known token) :
    Holds known (Stack.push trees target kind token stack) := by
  refine List.forall_mem_cons.mpr ⟨fun other member => ?_, holds⟩
  have member : other ∈ if kind = .gap then [] else [token] := member
  split at member
  · cases member
  · rename_i inside
    rw [List.mem_singleton.mp member]
    exact knows inside

theorem Holds.shift (holds : Holds known stack) {limit : Nat} {kind : Terminal} {token : Token}
    (knows : kind ≠ .gap → known token) {shifted : Stack Symbol.Tree} {complaints : List Complaint}
    (read : Stack.shift trees limit kind token stack = some (shifted, complaints)) :
    Holds known shifted ∧ Blames known complaints := by
  obtain ⟨target, _, same⟩ := Option.map_eq_some_iff.mp read
  cases same
  obtain ⟨below, first⟩ := holds.seek kind limit
  exact ⟨below.push target knows, first⟩

theorem Holds.shiftAll {limit : Nat} {tokens : List Token} (knows : ∀ token ∈ tokens, known token)
    (holds : Holds known stack) {shifted : Stack Symbol.Tree} {complaints : List Complaint}
    (read : Stack.shiftAll trees limit tokens stack = some (shifted, complaints)) :
    Holds known shifted ∧ Blames known complaints := by
  fun_induction Stack.shiftAll trees limit tokens stack generalizing shifted complaints with
  | case1 =>
      cases read
      exact ⟨holds, .nil⟩
  | case2 | case3 => cases read
  | case4 stack token more middle first one finished further rest ih =>
      cases read
      obtain ⟨here, others⟩ := List.forall_mem_cons.mp knows
      obtain ⟨below, before⟩ := holds.shift (fun _ => here) one
      obtain ⟨above, behind⟩ := ih others below rest
      exact ⟨above, before.append behind⟩

end Stack

namespace Progress

open Mode

variable (limit : Nat) {stack : Stack Symbol.Tree} {complaints : Array Complaint}

theorem finish_knows (blames : Blames known complaints.toList) :
    Knows known (finish stack complaints) := by
  unfold finish
  split
  · exact ⟨blames, trivial⟩
  · exact ⟨blames, trivial⟩

section Skipping

variable (blames : Blames known complaints.toList) (holds : stack.Holds known) (culprit : Token)
  {window : List Token}

include blames holds

theorem resume_knows (knows : ∀ token ∈ window, known token) :
    Knows known (resume trees limit stack culprit window complaints) := by
  fun_cases resume trees limit stack culprit window complaints with
  | case1 => exact ⟨blames, trivial⟩
  | case2 gapped first gap =>
      exact ⟨blames.appendList (holds.shift (fun inside => absurd rfl inside) gap).2, trivial⟩
  | case3 gapped first gap resumed more rest =>
      obtain ⟨below, before⟩ := holds.shift (fun inside => absurd rfl inside) gap
      exact finish_knows ((blames.appendList before).appendList (below.shiftAll knows rest).2)
  | case4 gapped first gap resumed more rest =>
      obtain ⟨below, before⟩ := holds.shift (fun inside => absurd rfl inside) gap
      obtain ⟨above, behind⟩ := below.shiftAll knows rest
      exact ⟨(blames.appendList before).appendList behind, above⟩

theorem resumeAtEnd_knows (trial : Stack Shape) (knows : ∀ token ∈ window, known token) :
    Knows known (resumeAtEnd trees limit stack trial culprit complaints window) := by
  induction window with
  | nil => exact ⟨blames, trivial⟩
  | cons token more ih =>
      rw [resumeAtEnd]
      split
      · exact resume_knows limit blames holds culprit knows
      · exact ih (List.forall_mem_cons.mp knows).2

theorem skip_knows (trial : Stack Shape) (knows : ∀ token ∈ window, known token) :
    Knows known (skip trees limit stack trial culprit window complaints) := by
  unfold skip
  split
  · exact resumeAtEnd_knows limit blames holds culprit trial knows
  split
  · exact ⟨blames, holds, knows⟩
  split
  · exact resume_knows limit blames holds culprit knows
  · exact ⟨blames, holds, fun token member => knows token (List.mem_of_mem_tail member)⟩

theorem recover_knows (knows : known culprit) :
    Knows known (recover trees limit stack culprit complaints) := by
  have point := holds.suffix (Stack.gapPoint_suffix limit culprit stack stack.forget)
  unfold recover
  simp only
  split
  · exact ⟨blames.push knows _, trivial⟩
  · exact skip_knows limit (blames.push knows _) point culprit _
      (List.forall_mem_singleton.mpr knows)

end Skipping

/-- **One token** that is known keeps what is known. -/
theorem step_knows {progress : Progress Symbol.Tree} (knows : progress.Knows known) {next : Feed}
    (here : known next.token) : Knows known (step trees limit progress next) := by
  obtain ⟨mode, complaints⟩ := progress
  have heard := knows.blames.appendList (.lexical next.faults)
  unfold step
  cases mode with
  | reading stack =>
      obtain ⟨sought, objected⟩ := Stack.Holds.seek knows.holds next.token.kind limit
      have blames := heard.appendList objected
      simp only
      split
      · exact recover_knows limit blames sought next.token here
      · rename_i target _
        split
        · exact finish_knows blames
        · obtain ⟨settled, more⟩ :=
            (sought.push target (fun _ : next.token.kind ≠ .gap => here)).settle limit
          exact ⟨blames.appendList more, settled⟩
  | skipping stack trial culprit window =>
      obtain ⟨holds, inside⟩ := knows.holds
      exact skip_knows limit heard holds culprit trial
        (List.forall_mem_append.mpr ⟨inside, List.forall_mem_singleton.mpr here⟩)
  | accepted value => exact ⟨heard, trivial⟩
  | lost => exact ⟨heard, trivial⟩

/-- **All tokens of a text** keep it. -/
theorem steps_knows {tokens : List Feed} (known_tokens : ∀ next ∈ tokens, known next.token)
    {progress : Progress Symbol.Tree} (knows : progress.Knows known) :
    Knows known (tokens.foldl (step trees limit) progress) := by
  induction tokens generalizing progress with
  | nil => exact knows
  | cons next more ih =>
      obtain ⟨here, others⟩ := List.forall_mem_cons.mp known_tokens
      exact ih others (step_knows limit knows here)

end Progress

/-! ### Places -/

/-- Where a segment of a division stands. -/
theorem mem_placed {segment : Segment} {offset start : Nat} {division : List Segment}
    (member : (segment, offset) ∈ placed start division) :
    ∃ front back, division = front ++ segment :: back ∧
      offset = start + (front.flatMap (·.chars)).length := by
  induction division generalizing start with
  | nil => exact absurd member List.not_mem_nil
  | cons first more ih =>
      rcases List.mem_cons.mp member with here | later
      · cases here
        exact ⟨[], more, rfl, rfl⟩
      · obtain ⟨front, back, rfl, same⟩ := ih later
        refine ⟨first :: front, back, rfl, ?_⟩
        rw [same, List.flatMap_cons, List.length_append, Nat.add_assoc]

/-- A segment of a text stands at its offset. -/
theorem segments_stand {text : List Char} {segment : Segment} {offset : Nat}
    (member : (segment, offset) ∈ placed 0 (segments text)) :
    offset < text.length ∧ (text.drop offset).take segment.chars.length = segment.chars := by
  obtain ⟨front, back, split, rfl⟩ := mem_placed member
  have divides := divides_segments text
  have nonempty : 0 < segment.chars.length :=
    List.length_pos_iff.mpr (divides.nonempty segment (by rw [split]; simp))
  have whole := divides.whole
  rw [split, List.flatMap_append, List.flatMap_cons] at whole
  rw [← whole, Nat.zero_add]
  refine ⟨?_, by rw [List.drop_left, List.take_left]⟩
  rw [List.length_append, List.length_append]
  omega

/-- Characters stand at an offset of a text, which is in the given line. -/
structure Stands (text chars : List Char) (line offset : Nat) : Prop where
  inside : offset ≤ text.length
  here : (text.drop offset).take chars.length = chars
  line_eq : line = lineAt text offset

/-- **The lexemes of a scan stand where their tokens say.** The one that closes the text is
empty. -/
theorem scan_token_stands {text : String} {token : Token} (member : token ∈ tokensOf (scan text)) :
    Stands text.toList token.lexeme.toList token.line token.offset := by
  rw [(scan_placed text).1, tokensAt] at member
  rcases List.mem_append.mp member with inner | last
  · obtain ⟨⟨segment, offset⟩, place, made⟩ := List.mem_filterMap.mp inner
    obtain ⟨inside, here⟩ := segments_stand place
    unfold Segment.token? at made
    simp only at made
    split at made
    · cases made
      exact ⟨Nat.le_of_lt inside, by rw [String.toList_ofList]; exact here, rfl⟩
    · cases made
  · cases List.mem_singleton.mp last
    exact ⟨Nat.le_refl _, rfl, rfl⟩

/-- Faults are where they say. -/
theorem scan_fault_stands {text : String} {fault : Fault} (member : fault ∈ faultsOf (scan text)) :
    Stands text.toList [] fault.line fault.offset := by
  rw [(scan_placed text).2, faultsAt] at member
  obtain ⟨⟨segment, offset⟩, place, made⟩ := List.mem_filterMap.mp member
  have inside := Nat.le_of_lt (segments_stand place).1
  unfold Segment.fault? at made
  simp only at made
  split at made
  · cases made
    exact ⟨inside, rfl, rfl⟩
  · cases made
    exact ⟨inside, rfl, rfl⟩
  · cases made

/-! ### Texts -/

/-- **Complaints at tokens are at tokens of the scan.** -/
theorem mem_scan_of_complaint {text : String} {token : Token} {objection : Objection}
    (member : .syntactic token objection ∈ (parse text).complaints) :
    token ∈ tokensOf (scan text) := by
  have fed : ∀ next ∈ feed text, next.token ∈ tokensOf (scan text) := by
    intro next inside
    rw [← feed_tokens]
    exact List.mem_map_of_mem inside
  have start : Progress.Knows (· ∈ tokensOf (scan text)) ⟨.reading [], #[]⟩ :=
    ⟨.nil, List.forall_mem_nil _⟩
  have final := Progress.steps_knows (reductionLimit (feed text).length) fed start
  rw [parse_complaints] at member
  exact final.blames token objection member

/-- **Violations are at tokens of the scan.** -/
theorem mem_scan_of_violation {text : String} {room : Nat} {token : Token} {violation : Violation}
    (member : (token, violation) ∈ (resolve (parse text).tree room).complaints) :
    token ∈ tokensOf (scan text) := by
  have objected : (token, violation) ∈ objectionsIn [] none (parse text).tree :=
    (resolve_reports room text).1.subset member
  have met : token ∈ marksIn (parse text).tree := by
    have often := sparse_objectionsIn [] none (parse text).tree token violation
    exact List.count_pos_iff.mp (Nat.lt_of_lt_of_le (List.count_pos_iff.mpr objected) often)
  exact (parse_tokens_subperm text).subset ((marksIn_sublist _).subset met)

end Lox
