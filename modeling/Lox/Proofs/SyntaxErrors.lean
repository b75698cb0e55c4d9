/-
**Syntax errors.** They are neither missed, nor invented, nor late.

* `Progress.Exact` is the invariant. As long as there is no syntax error, the tokens read so far
  begin a sentence, and every sentence that begins with them can be read on. The first syntax error
  is at the first token with which the tokens begin no sentence.
* `step_exact` keeps it token by token, `steps_exact` over a whole text.
-/

import Lox.Proofs.Grouping
import Lox.Proofs.Held
import Lox.Proofs.Sentences

namespace Lox

namespace Stack

variable {M : Symbol → Type} (σ : Semantics M)

theorem program?_of_forget {stack : Stack M}
    (alone : forget stack = [⟨.accept, .nonterminal .program, ()⟩]) :
    ∃ value, program? stack = some value := by
  obtain ⟨⟨state, symbol, value⟩, rfl, same⟩ := List.map_eq_singleton_iff.mp alone
  cases same
  exact ⟨value, rfl⟩

/-! ### Stacks that lead on -/

/-- A stack without values after tokens that begin a sentence: what lies on it can be completed, and
every sentence that begins with these tokens can be read on. -/
structure Viable (stack : Stack Shape) (read : List Token) : Prop where
  sensible : Sensible stack
  rooted : Rooted stack
  backed : Backed .shape True stack read
  reads : ∀ rest, rest ≠ [] → Reads .shape [] (read ++ rest) () → Reads .shape stack rest ()
  low : potential stack ≤ 2 + 7 * read.length
  unclosed : ∀ token ∈ read, token.kind ≠ .eof

theorem Viable.start : Viable [] [] where
  sensible := trivial
  rooted := trivial
  backed := .nil
  reads _ _ reads := reads
  low := Nat.le_refl _
  unclosed := List.forall_mem_nil _

end Stack

/-- What can be derived can be read. -/
theorem Sentence.reads {tokens : List Token} (sentence : Sentence tokens) :
    Stack.Reads .shape [] tokens () := by
  obtain ⟨derivation, closing, lawful, last, rfl⟩ := sentence
  obtain ⟨_, rendered⟩ := (derivation.regroups lawful).renders
  exact rendered.reads last

namespace Stack.Viable

variable {stack found next : Stack Shape} {read : List Token} {token : Token} {target : State}
  {limit : Nat} (viable : Viable stack read)

include viable

theorem begins : BeginsSentence read :=
  viable.sensible.completes viable.rooted viable.backed

/-- **A token that cannot be read begins nothing.** -/
theorem offends (room : 2 + 7 * read.length < limit)
    (stuck : (seek .shape token.kind limit stack).target = none) :
    ¬ BeginsSentence (read ++ [token]) := by
  rintro ⟨rest, sentence⟩
  have whole := sentence.reads
  rw [List.append_assoc, List.singleton_append] at whole
  have reads := viable.reads (token :: rest) (List.cons_ne_nil _ _) whole
  obtain ⟨found, target, same, _⟩ := reads.seek (Nat.lt_of_le_of_lt viable.low room)
  rw [same] at stuck
  cases stuck

section Reading

variable (sought : seek .shape token.kind limit stack = ⟨found, some target, []⟩)

include sought

theorem found_sensible : Sensible found ∧ Rooted found ∧ Backed .shape True found read ∧
    (state found).action token.kind = some (.shift target) := by
  have sensible := seek_sensible (σ := .shape) token.kind limit viable.sensible viable.rooted
  have rooted := seek_rooted (σ := .shape) token.kind limit viable.rooted
  have backed := seek_backed token.kind limit viable.backed fun _ => by rw [sought]
  have shifts : (seek .shape token.kind limit stack).target = some target := by rw [sought]
  have leads := seek_target token.kind limit shifts
  rw [sought] at sensible rooted backed leads
  exact ⟨sensible, rooted, backed, leads⟩

/-- **A token inside the text** that can be read leads on. -/
theorem step (room : 2 + 7 * read.length < limit)
    (settled : settle .shape limit (push .shape target token.kind token found) = (next, []))
    (inner : token.kind ≠ .eof) (inside : token.kind ≠ .gap) : Viable next (read ++ [token]) := by
  obtain ⟨sensible, rooted, backed, leads⟩ := viable.found_sensible sought
  have grown : Rooted (push .shape target token.kind token found) :=
    ⟨rooted, Or.inl (State.action_inner leads inner)⟩
  have next_eq : next = (settle .shape limit (push .shape target token.kind token found)).1 := by
    rw [settled]
  refine ⟨?_, ?_, ?_, fun rest later reads => ?_, ?_, ?_⟩
  · rw [next_eq]
    exact settle_sensible limit (push_sensible sensible leads) grown
  · rw [next_eq]
    exact settle_rooted limit grown
  · rw [next_eq]
    exact settle_backed limit (push_backed backed target rfl inside) fun _ => by rw [settled]
  · rw [List.append_assoc, List.singleton_append] at reads
    have further := viable.reads (token :: rest) (List.cons_ne_nil _ _) reads
    obtain ⟨_, _, same, _, after⟩ := further.seek (Nat.lt_of_le_of_lt viable.low room)
    cases sought.symm.trans same
    rcases after with ⟨closing, _⟩ | ⟨_, on⟩
    · exact absurd closing inner
    · rw [next_eq]
      exact (on.settle limit).2
  · have sunk : potential found ≤ potential stack := by
      have sunk := seek_potential (σ := .shape) token.kind limit stack
      rwa [sought] at sunk
    have raised := push_potential (σ := .shape) target token.kind token found
    have settled := settle_potential (σ := .shape) limit (push .shape target token.kind token found)
    have low := viable.low
    rw [next_eq, List.length_append, List.length_singleton]
    omega
  · intro other member
    rcases List.mem_append.mp member with earlier | last
    · exact viable.unclosed other earlier
    · rwa [List.mem_singleton.mp last]

/-- **The token that closes the text** can be read behind a whole program only. -/
theorem accepts (closing : token.kind = .eof) :
    found = [⟨.accept, .nonterminal .program, ()⟩] ∧ Sentence (read ++ [token]) := by
  obtain ⟨_, rooted, backed, leads⟩ := viable.found_sensible sought
  obtain ⟨value, rfl⟩ := rooted.program (State.action_eof closing leads)
  cases backed with
  | cons below _ derivation accounted =>
      cases below
      exact ⟨rfl, derivation, token, accounted.lawful, closing, rfl⟩

end Reading

end Stack.Viable

/-! ### Complaints -/

/-- The token of a syntax error. -/
def Complaint.unexpected? : Complaint → Option Token
  | .syntactic token (.expected _) => some token
  | _ => none

/-- The tokens of the syntax errors among complaints. -/
def syntaxErrors (complaints : List Complaint) : List Token :=
  complaints.filterMap Complaint.unexpected?

theorem syntaxErrors_append (complaints more : List Complaint) :
    syntaxErrors (complaints ++ more) = syntaxErrors complaints ++ syntaxErrors more :=
  List.filterMap_append

theorem syntaxErrors_lexical (faults : List Fault) :
    syntaxErrors (faults.map Complaint.lexical) = [] := by
  rw [syntaxErrors, List.filterMap_map]
  exact List.filterMap_eq_nil_iff.mpr fun _ _ => rfl

/-- What is objected to in a phrase is no syntax error. -/
theorem Tree.syntaxErrors_objections (rule : Rule) (values : Values Symbol.Tree rule.rhs) :
    syntaxErrors ((Tree.objections rule values).map fun (token, objection) =>
      .syntactic token objection) = [] := by
  rw [syntaxErrors, List.filterMap_map]
  refine List.filterMap_eq_nil_iff.mpr fun objected member => ?_
  have mild := (Tree.objections_spec rule values objected member).2
  obtain ⟨token, objection⟩ := objected
  cases objection with
  | expected expectation => exact absurd rfl (mild expectation)
  | _ => rfl

namespace Stack

variable {stack : Stack Symbol.Tree}

theorem reduce_plain {rule : Rule} {reduced : Stack Symbol.Tree} {complaints : List Complaint}
    (made : reduce trees rule stack = some (reduced, complaints)) :
    syntaxErrors complaints = [] := by
  unfold reduce at made
  split at made
  · cases made
  · split at made
    · cases made
    · cases made
      exact Tree.syntaxErrors_objections rule _

theorem seek_plain (kind : Terminal) (limit : Nat) (stack : Stack Symbol.Tree) :
    syntaxErrors (seek trees kind limit stack).complaints = [] := by
  induction limit generalizing stack with
  | zero => rfl
  | succ limit ih =>
      unfold seek
      split
      · rfl
      · rfl
      · split
        · rfl
        · rename_i made
          rw [syntaxErrors_append, reduce_plain made, ih]
          rfl

theorem settle_plain (limit : Nat) (stack : Stack Symbol.Tree) :
    syntaxErrors (settle trees limit stack).2 = [] := by
  induction limit generalizing stack with
  | zero => rfl
  | succ limit ih =>
      unfold settle
      split
      · rfl
      · split
        · rfl
        · rename_i made
          rw [syntaxErrors_append, reduce_plain made, ih]
          rfl

end Stack

/-! ### The invariant -/

/-- A token is the first one up to which tokens begin no sentence. -/
def FirstOffence (tokens : List Token) (token : Token) : Prop :=
  ∃ front rest, tokens = front ++ token :: rest ∧ BeginsSentence front ∧
    ¬ BeginsSentence (front ++ [token])

theorem FirstOffence.later {tokens : List Token} {token : Token}
    (first : FirstOffence tokens token) (next : Token) : FirstOffence (tokens ++ [next]) token := by
  obtain ⟨front, rest, rfl, begins, offends⟩ := first
  exact ⟨front, rest ++ [next], by simp, begins, offends⟩

theorem FirstOffence.no_sentence {tokens : List Token} {token : Token}
    (first : FirstOffence tokens token) : ¬ Sentence tokens := by
  obtain ⟨front, rest, rfl, _, offends⟩ := first
  exact fun sentence => offends ⟨rest, by simpa using sentence⟩

namespace Progress

/-- What the automaton is about after tokens without a syntax error: it reads on, or it has read a
whole sentence. -/
def Leads (fed : List Token) : Mode Symbol.Tree → Prop
  | .reading stack => (Stack.forget stack).Viable fed
  | .accepted _ => ∃ front rest, Sentence front ∧ fed = front ++ rest
  | _ => False

/-- As long as there is no syntax error the tokens lead on, and the first syntax error is at the
first token with which they do not. -/
structure Exact (fed : List Token) (progress : Progress Symbol.Tree) : Prop where
  leads : syntaxErrors progress.complaints.toList = [] → Leads fed progress.mode
  first : ∀ token, (syntaxErrors progress.complaints.toList).head? = some token →
    FirstOffence fed token

/-! ### Complaints are kept -/

section Keeping

variable {complaints before : Array Complaint} (limit : Nat) (stack : Stack Symbol.Tree)
  (culprit : Token) (window : List Token)

/-- The complaints that there were come first. -/
def Keeps (complaints : Array Complaint) (progress : Progress Symbol.Tree) : Prop :=
  complaints.toList <+: progress.complaints.toList

theorem Keeps.after {progress : Progress Symbol.Tree} {more : List Complaint}
    (keeps : Keeps (complaints ++ more) progress) : Keeps complaints progress := by
  rw [Keeps, Array.toList_appendList] at keeps
  exact (List.prefix_append _ _).trans keeps

theorem Keeps.append (complaints : Array Complaint) (more : List Complaint)
    (mode : Mode Symbol.Tree) : Keeps complaints ⟨mode, complaints ++ more⟩ := by
  rw [Keeps, Array.toList_appendList]
  exact List.prefix_append _ _

theorem finish_keeps : Keeps complaints (finish stack complaints) := by
  unfold finish
  split <;> exact List.prefix_rfl

theorem resume_keeps : Keeps complaints (resume trees limit stack culprit window complaints) := by
  unfold resume
  split
  · exact List.prefix_rfl
  · rename_i gapped first _
    suffices kept : Keeps (complaints ++ first) _ from kept.after
    split
    · exact List.prefix_rfl
    · rename_i resumed more _
      suffices kept : Keeps (complaints ++ first ++ more) _ from kept.after
      split
      · exact finish_keeps resumed
      · exact List.prefix_rfl

theorem resumeAtEnd_keeps (trial : Stack Shape) :
    Keeps complaints (resumeAtEnd trees limit stack trial culprit complaints window) := by
  induction window with
  | nil => exact List.prefix_rfl
  | cons token more ih =>
      unfold resumeAtEnd
      split
      · exact resume_keeps limit stack culprit (token :: more)
      · exact ih

theorem skip_keeps (trial : Stack Shape) :
    Keeps complaints (skip trees limit stack trial culprit window complaints) := by
  unfold skip
  split
  · exact resumeAtEnd_keeps limit stack culprit window trial
  split
  · exact List.prefix_rfl
  split
  · exact resume_keeps limit stack culprit window
  · exact List.prefix_rfl

/-- The syntax error that is noted at a token comes right behind the complaints that there were. -/
theorem recover_keeps : ∃ expectation,
    Keeps (complaints.push (.syntactic culprit (.expected expectation)))
      (recover trees limit stack culprit complaints) := by
  refine ⟨Stack.expectation culprit.kind stack, ?_⟩
  unfold recover
  simp only
  split
  · exact List.prefix_rfl
  · exact skip_keeps limit _ culprit [culprit] _

end Keeping

/-- Whatever is read, the complaints that there were come first. -/
theorem step_keeps (limit : Nat) (progress : Progress Symbol.Tree) (next : Feed) :
    Keeps progress.complaints (step trees limit progress next) := by
  suffices kept : Keeps (progress.complaints ++ next.faults.map Complaint.lexical)
    (step trees limit progress next) from kept.after
  unfold step
  cases progress.mode with
  | reading stack =>
      simp only
      suffices kept : Keeps (progress.complaints ++ next.faults.map Complaint.lexical ++
        (Stack.seek trees next.token.kind limit stack).complaints) _ from kept.after
      split
      · obtain ⟨expectation, kept⟩ := recover_keeps limit
          (Stack.seek trees next.token.kind limit stack).stack next.token
        rw [Keeps, Array.toList_push] at kept
        exact (List.prefix_append _ _).trans kept
      · split
        · exact finish_keeps _
        · exact Keeps.append _ _ _
  | skipping stack trial culprit window => exact skip_keeps limit stack culprit _ trial
  | accepted value => exact List.prefix_rfl
  | lost => exact List.prefix_rfl

/-! ### Token by token -/

theorem Keeps.head {complaints : Array Complaint} {progress : Progress Symbol.Tree}
    (keeps : Keeps complaints progress) {token : Token}
    (first : (syntaxErrors complaints.toList).head? = some token) :
    (syntaxErrors progress.complaints.toList).head? = some token := by
  obtain ⟨more, same⟩ := keeps
  rw [← same, syntaxErrors_append, List.head?_append, first]
  rfl

theorem Exact.of_head {fed : List Token} {progress : Progress Symbol.Tree} {token : Token}
    (first : (syntaxErrors progress.complaints.toList).head? = some token)
    (offence : FirstOffence fed token) : Exact fed progress where
  leads none := by
    rw [none] at first
    cases first
  first other found := by
    rw [first] at found
    cases found
    exact offence

theorem Exact.of_none {fed : List Token} {progress : Progress Symbol.Tree}
    (none : syntaxErrors progress.complaints.toList = []) (leads : Leads fed progress.mode) :
    Exact fed progress where
  leads _ := leads
  first token found := by
    rw [none] at found
    cases found

/-- A token that is read, or not, where there was no syntax error. -/
theorem reading_exact {limit : Nat} {stack : Stack Symbol.Tree} {complaints : Array Complaint}
    {fed : List Token} (next : Feed) (inside : next.token.kind ≠ .gap)
    (room : 2 + 7 * fed.length < limit) (viable : (Stack.forget stack).Viable fed)
    (quiet : syntaxErrors (complaints ++ next.faults.map Complaint.lexical).toList = []) :
    Exact (fed ++ [next.token]) (step trees limit ⟨.reading stack, complaints⟩ next) := by
  have sought := Stack.seek_forget trees next.token.kind limit stack
  have plain := Stack.seek_plain next.token.kind limit stack
  have before : syntaxErrors (complaints ++ next.faults.map Complaint.lexical ++
      (Stack.seek trees next.token.kind limit stack).complaints).toList = [] := by
    rw [Array.toList_appendList, syntaxErrors_append, quiet, plain]
    rfl
  unfold step
  cases found : (Stack.seek trees next.token.kind limit stack).target with
  | none =>
      simp only [found]
      obtain ⟨expectation, kept⟩ := recover_keeps limit
        (Stack.seek trees next.token.kind limit stack).stack next.token
      have stuck :
          (Stack.seek .shape next.token.kind limit (Stack.forget stack)).target = none := by
        rw [sought, found]
      refine .of_head (kept.head ?_) ⟨fed, [], rfl, viable.begins, viable.offends room stuck⟩
      rw [Array.toList_push, syntaxErrors_append, before]
      rfl
  | some target =>
      rw [found] at sought
      simp only [found]
      by_cases closing : next.token.kind = .eof
      · obtain ⟨alone, sentence⟩ := viable.accepts sought closing
        obtain ⟨value, program⟩ := Stack.program?_of_forget alone
        rw [if_pos closing, finish, program]
        exact .of_none before ⟨_, [], sentence, (List.append_nil _).symm⟩
      · have settled := Stack.settle_forget trees limit
          (Stack.push trees target next.token.kind next.token
            (Stack.seek trees next.token.kind limit stack).stack)
        rw [if_neg closing]
        refine .of_none ?_ (viable.step sought room settled closing inside)
        rw [Array.toList_appendList, syntaxErrors_append, before, Stack.settle_plain]
        rfl

/-- **One token** keeps the invariant. -/
theorem step_exact {limit : Nat} {progress : Progress Symbol.Tree} {fed : List Token} (next : Feed)
    (inside : next.token.kind ≠ .gap) (room : 2 + 7 * fed.length < limit)
    (exact : Exact fed progress) :
    Exact (fed ++ [next.token]) (step trees limit progress next) := by
  cases errors : syntaxErrors progress.complaints.toList with
  | cons first more =>
      have head : (syntaxErrors progress.complaints.toList).head? = some first := by
        rw [errors]
        rfl
      exact .of_head ((step_keeps limit progress next).head head) ((exact.first first head).later _)
  | nil =>
      have leads := exact.leads errors
      obtain ⟨mode, complaints⟩ := progress
      have quiet : syntaxErrors (complaints ++ next.faults.map Complaint.lexical).toList = [] := by
        rw [Array.toList_appendList, syntaxErrors_append, errors, syntaxErrors_lexical]
        rfl
      cases mode with
      | reading stack => exact reading_exact next inside room leads quiet
      | accepted value =>
          obtain ⟨front, rest, sentence, rfl⟩ := leads
          exact .of_none quiet ⟨front, rest ++ [next.token], sentence, List.append_assoc _ _ _⟩
      | skipping _ _ _ _ => exact leads.elim
      | lost => exact leads.elim

/-- **All tokens of a text** keep the invariant. -/
theorem steps_exact {limit : Nat} (tokens : List Feed)
    (inside : ∀ next ∈ tokens, next.token.kind ≠ .gap) {progress : Progress Symbol.Tree}
    {fed : List Token} (room : 2 + 7 * (fed.length + tokens.length) < limit)
    (exact : Exact fed progress) :
    Exact (fed ++ tokens.map Feed.token) (tokens.foldl (step trees limit) progress) := by
  induction tokens generalizing progress fed with
  | nil => rwa [List.map_nil, List.append_nil]
  | cons next more ih =>
      obtain ⟨first, others⟩ := List.forall_mem_cons.mp inside
      rw [List.length_cons] at room
      have now : 2 + 7 * fed.length < limit := by omega
      have later := ih others (by rw [List.length_append, List.length_singleton]; omega)
        (step_exact next first now exact)
      rwa [List.append_assoc, List.singleton_append] at later

end Progress

/-! ### Whole texts -/

theorem parse_exact (text : String) : ∃ final : Progress Symbol.Tree,
    final.Exact (tokensOf (scan text)) ∧ final.complaints.toList = (parse text).complaints := by
  have start : Progress.Exact [] ⟨.reading [], #[]⟩ := .of_none rfl Stack.Viable.start
  have room : 2 + 7 * (([] : List Token).length + (feed text).length) <
      reductionLimit (feed text).length := by
    rw [reductionLimit, List.length_nil]
    omega
  have exact := Progress.steps_exact (feed text) (feed_inside text) room start
  rw [feed_tokens, List.nil_append] at exact
  refine ⟨_, exact, ?_⟩
  unfold parse readProgram
  simp only
  split <;> rfl

/-- **There are no syntax errors exactly in sentences**, and the first one is at the first token
with which the text begins no sentence. -/
theorem parse_syntaxErrors (text : String) :
    (syntaxErrors (parse text).complaints = [] ↔ Sentence (tokensOf (scan text))) ∧
    ∀ token, (syntaxErrors (parse text).complaints).head? = some token →
      FirstOffence (tokensOf (scan text)) token := by
  obtain ⟨final, exact, same⟩ := parse_exact text
  rw [← same]
  refine ⟨⟨fun none => ?_, fun sentence => ?_⟩, exact.first⟩
  · obtain ⟨front, closing, whole, ending, inner⟩ := scan_closed text
    have leads := exact.leads none
    cases found : final.mode with
    | reading stack =>
        rw [found] at leads
        exact absurd ending (leads.unclosed closing (by rw [whole]; simp))
    | accepted value =>
        rw [found] at leads
        obtain ⟨_, rest, ⟨derivation, last, lawful, closes, rfl⟩, split⟩ := leads
        rw [List.append_assoc, List.singleton_append] at split
        cases eq_nil_of_closed inner closes (whole.symm.trans split)
        exact ⟨derivation, last, lawful, closes, split⟩
    | skipping _ _ _ _ | lost =>
        rw [found] at leads
        exact leads.elim
  · cases errors : (syntaxErrors final.complaints.toList).head? with
    | none => exact List.head?_eq_none_iff.mp errors
    | some token => exact absurd sentence (exact.first token errors).no_sentence

/-! ### Reports -/

namespace Report

/-- Issues are filed from the first one on, and all of them unless the report gets full. -/
theorem fileAll_issues (report : Report) (issues : List Issue) : ∃ count,
    (report.fileAll issues).1.issues.toList = report.issues.toList ++ issues.take count ∧
    count ≤ issues.length ∧ ((report.fileAll issues).2 = false → count = issues.length) := by
  rcases report.fileAll_cases issues with ⟨count, _, bound, _, full, filed⟩ | ⟨_, _, filed⟩
  · refine ⟨count, filed, bound, fun open_ => ?_⟩
    rw [full] at open_
    exact Bool.noConfusion open_
  · exact ⟨issues.length, by rw [filed, List.take_length], Nat.le_refl _, fun _ => rfl⟩

/-- The complaints about a text that are filed as issues when it is parsed. -/
def heard (report : Report) (text : String) : List Complaint :=
  (parse text).complaints.take ((report.parseText text).1.issues.size - report.issues.size)

/-- A report that yields a tree did not get full. -/
theorem fileAll_of_parseText {report : Report} {text : String}
    (whole : (report.parseText text).2.isSome) : ((report.setSource text).fileAll
      ((parse text).complaints.map (Issue.ofComplaint (report.setSource text).source))).2 =
      false := by
  rw [parseText_conclude, conclude] at whole
  split at whole
  · cases whole
  · rename_i filed
    exact Bool.eq_false_iff.mpr filed

/-- **What is heard is what is filed**, and it is everything unless the report gets full. -/
theorem heard_filed (report : Report) (text : String) :
    (report.parseText text).1.issues.toList = report.issues.toList ++
      (report.heard text).map (Issue.ofComplaint (report.setSource text).source) ∧
    ((report.parseText text).2.isSome → report.heard text = (parse text).complaints) := by
  obtain ⟨count, same, bound, whole⟩ := fileAll_issues (report.setSource text)
    ((parse text).complaints.map (Issue.ofComplaint (report.setSource text).source))
  rw [← parseText_report] at same
  rw [List.length_map] at bound whole
  have size : (report.parseText text).1.issues.size = report.issues.size + count := by
    rw [← Array.length_toList, same, List.length_append, List.length_take, List.length_map,
      Nat.min_eq_left bound]
    rfl
  rw [heard, size, Nat.add_sub_cancel_left, List.map_take]
  refine ⟨same, fun read => ?_⟩
  rw [whole (fileAll_of_parseText read), List.take_length]

end Report

/-- **Syntax errors are neither missed, nor invented, nor late.** Where a report does not get full,
it hears of no syntax error exactly if the text is a sentence. Of a sentence it never hears one, and
the first one that it hears of is at the first token with which the text begins no sentence. -/
theorem heard_syntaxErrors (report : Report) (text : String) :
    (report.parseText text).1.issues.toList = report.issues.toList ++
      (report.heard text).map (Issue.ofComplaint (report.setSource text).source) ∧
    ((report.parseText text).2.isSome →
      (syntaxErrors (report.heard text) = [] ↔ Sentence (tokensOf (scan text)))) ∧
    (Sentence (tokensOf (scan text)) → syntaxErrors (report.heard text) = []) ∧
    ∀ token, (syntaxErrors (report.heard text)).head? = some token →
      FirstOffence (tokensOf (scan text)) token := by
  obtain ⟨filed, whole⟩ := report.heard_filed text
  obtain ⟨none, first⟩ := parse_syntaxErrors text
  have part : syntaxErrors (report.heard text) <+: syntaxErrors (parse text).complaints :=
    (List.take_prefix _ _).filterMap _
  refine ⟨filed, fun read => ?_, fun sentence => ?_, fun token found => first token ?_⟩
  · rw [whole read]
    exact none
  · rw [none.mpr sentence] at part
    exact List.prefix_nil.mp part
  · obtain ⟨more, same⟩ := part
    rw [← same, List.head?_append, found]
    rfl

/-- A text in which fifty assignments without a target stand in front of a syntax error. -/
def crowded : String :=
  String.join (List.replicate 50 "1=1;") ++ ")"

/-- A report that is full does not hear of the syntax errors to come. -/
theorem crowded_unheard : syntaxErrors (({} : Report).heard crowded) = [] ∧
    ¬ Sentence (tokensOf (scan crowded)) := by
  have errors : syntaxErrors (({} : Report).heard crowded) = [] ∧
      syntaxErrors (parse crowded).complaints ≠ [] := by
    decide +kernel
  exact ⟨errors.1, fun sentence => errors.2 ((parse_syntaxErrors crowded).1.mpr sentence)⟩

end Lox
