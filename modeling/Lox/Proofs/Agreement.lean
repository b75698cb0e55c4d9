/-
**Scanning and parsing agree.** Both see the same tokens, and the same faults between them.

* The automaton complains about faults when it is fed the token behind them, in whatever mode it is,
  and else only about tokens (`Progress.step_faults`). So its complaints about a text are, but for
  those at tokens, the faults of the scan in their order (`parse_faults`): no error, no stretch that
  is skipped and no giving up comes between.
* `parseText_agrees`: a report that does not get full while a text is parsed gets from parsing the
  issues at characters that it gets from scanning, and a tree that holds tokens of the scan.
-/

import Lox.Proofs.Filing
import Lox.Proofs.Held

namespace Lox

/-- The fault that a complaint is about, if it is not about a token. -/
def Complaint.fault? : Complaint → Option Fault
  | .lexical fault => some fault
  | .syntactic _ _ => none

/-- The faults among complaints. -/
def faultsIn (complaints : List Complaint) : List Fault :=
  complaints.filterMap Complaint.fault?

theorem faultsIn_append (complaints more : List Complaint) :
    faultsIn (complaints ++ more) = faultsIn complaints ++ faultsIn more :=
  List.filterMap_append

@[simp]
theorem faultsIn_lexical (faults : List Fault) :
    faultsIn (faults.map Complaint.lexical) = faults := by
  rw [faultsIn, List.filterMap_map]
  exact List.filterMap_some

/-- Complaints at tokens do not count. -/
theorem faultsIn_silent (complaints : Array Complaint) {more : List Complaint}
    (silent : faultsIn more = []) :
    faultsIn (complaints ++ more).toList = faultsIn complaints.toList := by
  rw [Array.toList_appendList, faultsIn_append, silent, List.append_nil]

/-! ### The automaton -/

variable {M : Symbol → Type} (σ : Semantics M) (limit : Nat)

namespace Stack

theorem reduce_silent {rule : Rule} {stack reduced : Stack M} {complaints : List Complaint}
    (made : reduce σ rule stack = some (reduced, complaints)) : faultsIn complaints = [] := by
  unfold reduce at made
  split at made
  · cases made
  · split at made
    · cases made
    · cases made
      rw [faultsIn, List.filterMap_map]
      exact List.filterMap_eq_nil_iff.mpr fun objected _ => rfl

theorem seek_silent (kind : Terminal) (stack : Stack M) :
    faultsIn (seek σ kind limit stack).complaints = [] := by
  fun_induction seek σ kind limit stack with
  | case5 limit stack rule _ reduced complaints made sought ih =>
      rw [faultsIn_append, reduce_silent σ made, ih]
      rfl
  | _ => rfl

theorem settle_silent (stack : Stack M) : faultsIn (settle σ limit stack).2 = [] := by
  fun_induction settle σ limit stack with
  | case4 limit stack rule _ reduced complaints made settled more found ih =>
      rw [found] at ih
      rw [faultsIn_append, reduce_silent σ made, ih]
      rfl
  | _ => rfl

theorem shift_silent {kind : Terminal} {token : Token} {stack shifted : Stack M}
    {complaints : List Complaint}
    (read : shift σ limit kind token stack = some (shifted, complaints)) :
    faultsIn complaints = [] := by
  obtain ⟨target, _, same⟩ := Option.map_eq_some_iff.mp read
  rw [← (Prod.mk.inj same).2]
  exact seek_silent σ limit kind stack

theorem shiftAll_silent {tokens : List Token} {stack shifted : Stack M}
    {complaints : List Complaint}
    (read : shiftAll σ limit tokens stack = some (shifted, complaints)) :
    faultsIn complaints = [] := by
  fun_induction shiftAll σ limit tokens stack generalizing shifted complaints with
  | case1 => cases read; rfl
  | case2 | case3 => cases read
  | case4 stack token more middle first one finished further rest ih =>
      cases read
      rw [faultsIn_append, shift_silent σ limit one, ih rest]
      rfl

end Stack

namespace Progress

variable (stack : Stack M) (culprit : Token) (window : List Token) {complaints : Array Complaint}

theorem finish_faults :
    faultsIn (finish stack complaints).complaints.toList = faultsIn complaints.toList := by
  unfold finish
  split <;> rfl

theorem resume_faults :
    faultsIn (resume σ limit stack culprit window complaints).complaints.toList =
      faultsIn complaints.toList := by
  fun_cases resume σ limit stack culprit window complaints with
  | case1 => rfl
  | case2 gapped first gap => exact faultsIn_silent complaints (Stack.shift_silent σ limit gap)
  | case3 gapped first gap resumed more rest =>
      rw [finish_faults, faultsIn_silent _ (Stack.shiftAll_silent σ limit rest),
        faultsIn_silent _ (Stack.shift_silent σ limit gap)]
  | case4 gapped first gap resumed more rest =>
      rw [faultsIn_silent _ (Stack.shiftAll_silent σ limit rest),
        faultsIn_silent _ (Stack.shift_silent σ limit gap)]

theorem resumeAtEnd_faults (trial : Stack Shape) :
    faultsIn (resumeAtEnd σ limit stack trial culprit complaints window).complaints.toList =
      faultsIn complaints.toList := by
  induction window with
  | nil => rfl
  | cons token more ih =>
      rw [resumeAtEnd]
      split
      · exact resume_faults σ limit stack culprit _
      · exact ih

theorem skip_faults (trial : Stack Shape) :
    faultsIn (skip σ limit stack trial culprit window complaints).complaints.toList =
      faultsIn complaints.toList := by
  unfold skip
  split
  · exact resumeAtEnd_faults σ limit stack culprit window trial
  split
  · rfl
  split
  · exact resume_faults σ limit stack culprit window
  · rfl

theorem recover_faults :
    faultsIn (recover σ limit stack culprit complaints).complaints.toList =
      faultsIn complaints.toList := by
  have noted : ∀ objection, faultsIn (complaints.push (.syntactic culprit objection)).toList =
      faultsIn complaints.toList := by
    intro objection
    rw [Array.toList_push, faultsIn_append]
    exact List.append_nil _
  unfold recover
  simp only
  split
  · exact noted _
  · rw [skip_faults, noted]

/-- **One token** brings the faults in front of it, whatever the automaton is about. -/
theorem step_faults (progress : Progress M) (next : Feed) :
    faultsIn (step σ limit progress next).complaints.toList =
      faultsIn progress.complaints.toList ++ next.faults := by
  have heard : faultsIn (progress.complaints ++ next.faults.map Complaint.lexical).toList =
      faultsIn progress.complaints.toList ++ next.faults := by
    rw [Array.toList_appendList, faultsIn_append, faultsIn_lexical]
  rw [← heard]
  unfold step
  cases progress.mode with
  | reading stack =>
      have sought := faultsIn_silent (progress.complaints ++ next.faults.map Complaint.lexical)
        (Stack.seek_silent σ limit next.token.kind stack)
      simp only
      split
      · exact (recover_faults σ limit _ _).trans sought
      · split
        · exact (finish_faults _).trans sought
        · exact (faultsIn_silent _ (Stack.settle_silent σ limit _)).trans sought
  | skipping stack trial culprit window => exact skip_faults σ limit stack culprit _ trial
  | accepted value => rfl
  | lost => rfl

/-- **All tokens of a text** bring all faults in front of them. -/
theorem steps_faults (tokens : List Feed) (progress : Progress M) :
    faultsIn (tokens.foldl (step σ limit) progress).complaints.toList =
      faultsIn progress.complaints.toList ++ tokens.flatMap Feed.faults := by
  induction tokens generalizing progress with
  | nil => exact (List.append_nil _).symm
  | cons next more ih =>
      rw [List.foldl_cons, ih, step_faults, List.flatMap_cons, List.append_assoc]

end Progress

/-! ### Texts -/

/-- Grouping a scan by its tokens loses no fault, since a token closes the text. -/
theorem feedFrom_faults (pending : List Fault) (segments : List Segment) (line offset : Nat) :
    (feedFrom pending (Scan.ofSegments segments line offset)).flatMap Feed.faults =
      pending ++ faultsOf (Scan.ofSegments segments line offset) := by
  induction segments generalizing pending line offset with
  | nil => simp [Scan.ofSegments, feedFrom, faultsOf]
  | cons segment more ih =>
      rw [Scan.ofSegments]
      cases Scan.ofSegment segment line offset with
      | none => exact ih _ _ _
      | some scanned =>
          cases scanned with
          | token token =>
              simp only [feedFrom, List.flatMap_cons, ih]
              rfl
          | fault fault =>
              simp only [feedFrom, ih]
              exact List.append_assoc _ _ _

theorem parse_complaints (text : String) :
    (parse text).complaints =
      ((feed text).foldl (Progress.step trees (reductionLimit (feed text).length))
        ⟨.reading [], #[]⟩).complaints.toList := by
  unfold parse readProgram
  simp only
  split <;> rfl

/-- **Parsing meets the faults of the scan**, in their order, whatever else is wrong. -/
theorem parse_faults (text : String) : faultsIn (parse text).complaints = faultsOf (scan text) := by
  rw [parse_complaints, Progress.steps_faults, feed, scan, feedFrom_faults]
  rfl

/-! ### Reports -/

/-- Whether an issue is at a character, and not at a token. -/
def Issue.isLexical (issue : Issue) : Bool :=
  issue.place = .unnamed

/-- Issues at tokens name the token. -/
theorem Issue.isLexical_ofToken (source : Option String) (token : Token) (message : String) :
    (Issue.ofToken source token message).isLexical = false := by
  unfold isLexical ofToken
  split <;> rfl

theorem filter_isLexical (source : Option String) (complaints : List Complaint) :
    (complaints.map (Issue.ofComplaint source)).filter Issue.isLexical =
      (faultsIn complaints).map fun fault => Issue.ofComplaint source (.lexical fault) := by
  induction complaints with
  | nil => rfl
  | cons complaint more ih =>
      cases complaint with
      | lexical fault => exact congrArg (Issue.ofComplaint source (.lexical fault) :: ·) ih
      | syntactic token objection =>
          rw [List.map_cons, List.filter_cons_of_neg]
          · exact ih
          · rw [Issue.ofComplaint, Issue.isLexical_ofToken]
            exact Bool.false_ne_true

/-- **Parsing sees what scanning sees.** If a report does not get full while a text is parsed, it
does not get full when the text is scanned. Of the issues that parsing adds to it, those at
characters are the ones that scanning adds, in the same order. All tokens in the tree are tokens of
the scan, each of them in one place only. -/
theorem parseText_agrees {report : Report} {text : String} {tree : List (Stmt Unit)}
    (read : (report.parseText text).2 = some tree) :
    ∃ (tokens : List Token) (added : List Issue),
      (report.scanText text).2 = some tokens ∧
      (report.parseText text).1.issues.toList = report.issues.toList ++ added ∧
      (report.scanText text).1.issues.toList =
        report.issues.toList ++ added.filter Issue.isLexical ∧
      (tokensIn tree).Subperm tokens := by
  rw [Report.parseText_conclude] at read ⊢
  rw [Report.scanText_conclude]
  simp only [Report.conclude] at read ⊢
  split at read
  · cases read
  · rename_i open_
    cases read
    have parsed := (Bool.not_eq_true _).mp open_
    have scanned : ((report.setSource text).fileAll ((faultsOf (scan text)).map fun fault =>
        Issue.ofComplaint (report.setSource text).source (.lexical fault))).2 = false := by
      rw [Report.fileAll_open] at parsed ⊢
      intro count positive bound
      refine parsed count positive (Nat.le_trans bound ?_)
      rw [List.length_map, List.length_map, ← parse_faults]
      exact List.length_filterMap_le _ _
    refine ⟨tokensOf (scan text), _, by rw [scanned]; rfl, Report.fileAll_whole parsed, ?_,
      parse_tokens_subperm text⟩
    rw [filter_isLexical, parse_faults]
    exact Report.fileAll_whole scanned

/-- A text with strange characters around syntax errors, and a string that does not end. -/
def mangled : String :=
  "print 1 @; var = $ 2 @; print x; \x7b y \"open"

theorem parseText_agrees_mangled :
    (({} : Report).parseText mangled).1.issues.size = 6 ∧
    ∃ tree, (({} : Report).parseText mangled).2 = some tree ∧
      ∃ (tokens : List Token) (added : List Issue),
        (({} : Report).scanText mangled).2 = some tokens ∧
        (({} : Report).parseText mangled).1.issues.toList = [] ++ added ∧
        (({} : Report).scanText mangled).1.issues.toList = [] ++ added.filter Issue.isLexical ∧
        (tokensIn tree).Subperm tokens := by
  have whole : (({} : Report).parseText mangled).2.isSome = true := by decide +kernel
  obtain ⟨tree, read⟩ := Option.isSome_iff_exists.mp whole
  exact ⟨by decide +kernel, tree, read, parseText_agrees read⟩

end Lox
