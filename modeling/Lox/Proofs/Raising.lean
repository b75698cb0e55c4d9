/-
**What passes raise.** A pass with a report files what it comes upon without one, in the same order,
until the report is full.

* `Pass.filing` is a pass in its plain form: issues are filed one after the other, and then there is
  an ending. Passes in this form are joined by `filing_bind`.
* Every step of reading has it (`seek_filing`, `shift_filing`), and so has every walk over a tree
  (`resolveAll_filing`), whose verdict goes over to passes step by step (`Verdict.filed`).
* `Pass.Notes` ties a step of reading to `Progress`. Behind an error this needs that the tokens
  which were tried out can be read (`Mode.Tried`).
* `parse_filing`, `scanAll_filing` and `resolveAll_filing` sum it up.
-/

import Lox.Passes
import Lox.Proofs.Tokens
import Lox.Proofs.Verdict

namespace Lox

variable {α β ι : Type}

/-! ### Filing one part after the other -/

namespace Report

theorem fileAll_append (report : Report) (first second : List Issue) :
    report.fileAll (first ++ second) =
      match report.fileAll first with
      | (filed, true) => (filed, true)
      | (filed, false) => filed.fileAll second := by
  induction first generalizing report with
  | nil => rfl
  | cons issue more ih =>
      rw [List.cons_append, fileAll, fileAll]
      split
      · rfl
      · exact ih (report.file issue)

theorem fileAll_source (report : Report) (issues : List Issue) :
    (report.fileAll issues).1.source = report.source := by
  induction issues generalizing report with
  | nil => rfl
  | cons issue more ih =>
      rw [fileAll]
      split
      · rfl
      · exact ih (report.file issue)

end Report

namespace Pass

/-- Issues are filed one after the other, and then there is an ending, unless the report gets full
with one of them. -/
def filing (issue : Option String → ι → Issue) (items : List ι) (ending : Except Abort α) :
    Pass α := fun report =>
  match report.fileAll (items.map (issue report.source)) with
  | (filed, true) => .error .tooManyIssues filed
  | (filed, false) =>
    match ending with
    | .ok value => .ok value filed
    | .error abort => .error abort filed

section Filing

variable {issue : Option String → ι → Issue} {items more : List ι}

theorem bind_apply (pass : Pass α) (next : α → Pass β) (report : Report) :
    (pass >>= next) report =
      match pass report with
      | .ok value filed => next value filed
      | .error abort filed => .error abort filed := by
  show EStateM.bind pass next report = _
  unfold EStateM.bind
  cases pass report <;> rfl

/-- A pass that goes on after another one files its issues behind those of the other. -/
theorem filing_bind {value : α} {next : α → Pass β} {ending : Except Abort β}
    (rest : next value = filing issue more ending) :
    (filing issue items (.ok value) >>= next) = filing issue (items ++ more) ending := by
  funext report
  have same := report.fileAll_source (items.map (issue report.source))
  rw [bind_apply, filing, filing, List.map_append, Report.fileAll_append]
  generalize report.fileAll (items.map (issue report.source)) = first at same ⊢
  obtain ⟨filed, full⟩ := first
  cases full with
  | true => rfl
  | false =>
      have same : filed.source = report.source := same
      show next value filed = _
      rw [rest, filing, same]

theorem filing_then {value : α} {next : α → Pass β} {ending : Except Abort β}
    (rest : next value = filing issue [] ending) :
    (filing issue items (.ok value) >>= next) = filing issue items ending := by
  rw [filing_bind rest, List.append_nil]

/-- A pass that was given up stays so. -/
theorem filing_error_bind {abort : Abort} {next : α → Pass β} :
    (filing issue items (.error abort) >>= next) = filing issue items (.error abort) := by
  funext report
  rw [bind_apply, filing, filing]
  rcases report.fileAll (items.map (issue report.source)) with ⟨filed, full⟩
  cases full <;> rfl

/-- An issue on its own. -/
theorem filing_file (item : ι) :
    (do file (issue (← get).source item)) = filing issue [item] (.ok ()) := by
  funext report
  simp only [filing, List.map_cons, List.map_nil, Report.fileAll]
  show (if (report.file (issue report.source item)).full then throw Abort.tooManyIssues
    else pure () : Pass Unit) (report.file (issue report.source item)) = _
  split <;> rfl

end Filing

/-- Complaints are made one after the other, and then there is an ending. -/
abbrev complaining (complaints : List Complaint) (ending : Except Abort α) : Pass α :=
  filing Issue.ofComplaint complaints ending

theorem complain_filing (complaint : Complaint) :
    complain complaint = complaining [complaint] (.ok ()) :=
  filing_file complaint

theorem complainAll_filing (complaints : List Complaint) :
    complainAll complaints = complaining complaints (.ok ()) := by
  induction complaints with
  | nil => rfl
  | cons first more ih =>
      rw [complainAll, complain_filing]
      exact filing_bind ih

/-! ### Scanning -/

/-- **Scanning complains about the faults**, and keeps the tokens. -/
theorem scanAll_filing (scanned : List Scanned) :
    scanAll scanned =
      complaining ((faultsOf scanned).map .lexical) (.ok (tokensOf scanned)) := by
  induction scanned with
  | nil => rfl
  | cons item more ih =>
      cases item with
      | fault fault =>
          rw [scanAll, complain_filing]
          exact filing_bind ih
      | token token =>
          rw [scanAll, ih]
          exact filing_then rfl

/-! ### Reading on the stack -/

section Reading

variable {M : Symbol → Type} (σ : Semantics M)

theorem seek_filing (kind : Terminal) (limit : Nat) (stack : Stack M) :
    seek σ kind limit stack = complaining (Stack.seek σ kind limit stack).complaints
      (.ok ((Stack.seek σ kind limit stack).stack, (Stack.seek σ kind limit stack).target)) := by
  induction limit generalizing stack with
  | zero => rfl
  | succ limit ih =>
      rw [seek, Stack.seek]
      cases (Stack.state stack).action kind with
      | none => rfl
      | some action =>
          cases action with
          | shift target => rfl
          | reduce rule =>
              simp only
              cases Stack.reduce σ rule stack with
              | none => rfl
              | some made =>
                  obtain ⟨reduced, complaints⟩ := made
                  simp only [complainAll_filing]
                  exact filing_bind (ih reduced)

theorem settle_filing (limit : Nat) (stack : Stack M) :
    settle σ limit stack = complaining (Stack.settle σ limit stack).2
      (.ok (Stack.settle σ limit stack).1) := by
  induction limit generalizing stack with
  | zero => rfl
  | succ limit ih =>
      rw [settle, Stack.settle]
      cases (Stack.state stack).settled? with
      | none => rfl
      | some rule =>
          simp only
          cases Stack.reduce σ rule stack with
          | none => rfl
          | some made =>
              obtain ⟨reduced, complaints⟩ := made
              simp only [complainAll_filing]
              exact filing_bind (ih reduced)

variable {σ} {limit : Nat}

theorem shift_filing {kind : Terminal} {token : Token} {stack shifted : Stack M}
    {complaints : List Complaint}
    (read : Stack.shift σ limit kind token stack = some (shifted, complaints)) :
    shift σ limit kind token stack = complaining complaints (.ok shifted) := by
  obtain ⟨target, found, same⟩ := Option.map_eq_some_iff.mp read
  cases same
  rw [shift, seek_filing, found]
  exact filing_then rfl

theorem shiftAll_filing {tokens : List Token} {stack shifted : Stack M}
    {complaints : List Complaint}
    (read : Stack.shiftAll σ limit tokens stack = some (shifted, complaints)) :
    shiftAll σ limit tokens stack = complaining complaints (.ok shifted) := by
  induction tokens generalizing stack complaints with
  | nil =>
      cases read
      rfl
  | cons token more ih =>
      unfold Stack.shiftAll at read
      split at read
      · cases read
      · rename_i once
        split at read
        · cases read
        · rename_i rest
          cases read
          rw [shiftAll, shift_filing once]
          exact filing_bind (ih rest)

/-! ### Reading a text -/

/-- While the automaton skips, a gap can be read on its stack, and `trial` is what that gives. -/
def Tried (limit : Nat) : Mode M → Prop
  | .skipping stack trial culprit _ => ∃ objections,
      Stack.shift .shape limit .gap culprit (Stack.forget stack) = some (trial, objections)
  | _ => True

/-- A step of reading files what the progress notes, and comes to the same mode. -/
def Notes (limit : Nat) (pass : Pass (Mode M)) (progress : Array Complaint → Progress M) : Prop :=
  ∃ noted mode, Tried limit mode ∧ pass = complaining noted (.ok mode) ∧
    ∀ complaints, (progress complaints).mode = mode ∧
      (progress complaints).complaints.toList = complaints.toList ++ noted

theorem Notes.silent {mode : Mode M} (tried : Tried limit mode) :
    Notes limit (pure mode) (⟨mode, ·⟩) :=
  ⟨[], mode, tried, rfl, fun _ => ⟨rfl, (List.append_nil _).symm⟩⟩

theorem finish_tried (stack : Stack M) : Tried limit (finish stack) := by
  unfold finish
  split <;> trivial

theorem finish_eq (stack : Stack M) (complaints : Array Complaint) :
    Progress.finish stack complaints = ⟨finish stack, complaints⟩ := by
  unfold finish Progress.finish
  cases Stack.program? stack <;> rfl

section Resuming

variable {point : Stack M} {trial : Stack Shape} {culprit : Token} {objections : List Complaint}
  (gapped : Stack.shift .shape limit .gap culprit point.forget = some (trial, objections))

include gapped

theorem resume_notes {window : List Token} (reads : Mode.readable limit trial window) :
    Notes limit (resume σ limit point culprit window)
      (Progress.resume σ limit point culprit window) := by
  obtain ⟨start, first, resumed, more, once, rest⟩ := Progress.resume_reads σ gapped reads
  refine ⟨first ++ more, if Mode.atEnd window then finish resumed else .reading resumed, ?_, ?_,
    fun complaints => ?_⟩
  · split
    · exact finish_tried resumed
    · trivial
  · have behind : (shiftAll σ limit window start >>= fun resumed =>
        pure (if Mode.atEnd window then finish resumed else .reading resumed)) =
        complaining more
          (.ok (if Mode.atEnd window then finish resumed else .reading resumed)) := by
      rw [shiftAll_filing rest]
      exact filing_then rfl
    rw [resume, shift_filing once]
    exact filing_bind behind
  · simp only [Progress.resume, once, rest, finish_eq]
    split <;> simp

theorem resumeAtEnd_notes (window : List Token) :
    Notes limit (resumeAtEnd σ limit point trial culprit window)
      (Progress.resumeAtEnd σ limit point trial culprit · window) := by
  induction window with
  | nil => exact .silent trivial
  | cons token more ih =>
      unfold resumeAtEnd Progress.resumeAtEnd
      by_cases reads : Mode.readable limit trial (token :: more)
      · simp only [reads, if_true]
        exact resume_notes gapped reads
      · simp only [reads, Bool.false_eq_true, if_false]
        exact ih

theorem skip_notes (window : List Token) :
    Notes limit (skip σ limit point trial culprit window)
      (Progress.skip σ limit point trial culprit window) := by
  unfold skip Progress.skip
  by_cases ends : Mode.atEnd window
  · simp only [ends, if_true]
    exact resumeAtEnd_notes gapped window
  · by_cases short : window.length < Mode.windowSize
    · simp only [ends, Bool.false_eq_true, if_false, short, if_true]
      exact .silent ⟨_, gapped⟩
    · by_cases reads : Mode.readable limit trial window
      · simp only [ends, Bool.false_eq_true, if_false, short, reads, if_true]
        exact resume_notes gapped reads
      · simp only [ends, Bool.false_eq_true, if_false, short, reads]
        exact .silent ⟨_, gapped⟩

end Resuming

theorem recover_notes (stack : Stack M) (culprit : Token) :
    Notes limit (recover σ limit stack culprit) (Progress.recover σ limit stack culprit) := by
  let expected : Complaint := .syntactic culprit (.expected (Stack.expectation culprit.kind stack))
  cases gapped : Stack.shift .shape limit .gap culprit
      (Stack.forget (Stack.gapPoint limit culprit stack (Stack.forget stack))) with
  | none =>
      refine ⟨[expected], .lost, trivial, ?_, fun complaints => ?_⟩
      · rw [recover, complain_filing]
        exact filing_then (by simp only [gapped]; rfl)
      · simp [Progress.recover, gapped, expected]
  | some found =>
      obtain ⟨trial, objections⟩ := found
      obtain ⟨noted, mode, tried, filed, each⟩ := skip_notes (σ := σ) gapped [culprit]
      refine ⟨[expected] ++ noted, mode, tried, ?_, fun complaints => ?_⟩
      · rw [recover, complain_filing]
        exact filing_bind (by simp only [gapped, filed])
      · have noted := each (complaints.push expected)
        simpa [Progress.recover, gapped] using noted

/-- One token, with the faults in front of it. -/
theorem step_notes {mode : Mode M} (tried : Tried limit mode) (token : Token) :
    ∃ noted next, Tried limit next ∧ step σ limit mode token = complaining noted (.ok next) ∧
      ∀ complaints faults,
        let stepped := Progress.step σ limit ⟨mode, complaints⟩ ⟨faults, token⟩
        stepped.mode = next ∧ stepped.complaints.toList =
          complaints.toList ++ (faults.map Complaint.lexical ++ noted) := by
  cases mode with
  | reading stack =>
      have sought := seek_filing σ token.kind limit stack
      cases found : Stack.seek σ token.kind limit stack with
      | mk reduced target objections =>
      rw [found] at sought
      cases target with
      | none =>
          have held : Notes limit (recover σ limit reduced token) _ := recover_notes reduced token
          obtain ⟨noted, next, tried, filed, each⟩ := held
          refine ⟨objections ++ noted, next, tried, ?_, fun complaints faults => ?_⟩
          · rw [step, sought]
            exact filing_bind filed
          · have last := each (complaints ++ faults.map Complaint.lexical ++ objections)
            simpa [Progress.step, found] using last
      | some state =>
          by_cases closes : token.kind = .eof
          · refine ⟨objections, finish reduced, finish_tried reduced, ?_, fun _ _ => ?_⟩
            · rw [step, sought]
              exact filing_then (if_pos closes)
            · simp only [Progress.step, found, if_pos closes, finish_eq]
              simp
          · have settled := settle_filing σ limit (Stack.push σ state token.kind token reduced)
            cases settles : Stack.settle σ limit (Stack.push σ state token.kind token reduced) with
            | mk whole more =>
            rw [settles] at settled
            refine ⟨objections ++ more, .reading whole, trivial, ?_, fun _ _ => ?_⟩
            · have behind : (settle σ limit (Stack.push σ state token.kind token reduced) >>=
                  fun settled => pure (.reading settled)) =
                  complaining more (.ok (Mode.reading whole)) := by
                rw [settled]
                exact filing_then rfl
              rw [step, sought]
              exact filing_bind ((if_neg closes).trans behind)
            · simp [Progress.step, found, closes, settles]
  | skipping stack trial culprit window =>
      obtain ⟨objections, gapped⟩ := tried
      obtain ⟨noted, next, tried, filed, each⟩ := skip_notes (σ := σ) gapped (window ++ [token])
      refine ⟨noted, next, tried, filed, fun complaints faults => ?_⟩
      obtain ⟨reached, kept⟩ := each (complaints ++ faults.map Complaint.lexical)
      exact ⟨reached, kept.trans (by simp)⟩
  | accepted value =>
      exact ⟨[], .accepted value, trivial, rfl, fun _ _ => ⟨rfl, by simp [Progress.step]⟩⟩
  | lost => exact ⟨[], .lost, trivial, rfl, fun _ _ => ⟨rfl, by simp [Progress.step]⟩⟩

/-- **A whole text.** -/
theorem readAll_notes (closing : Token) (scanned : List Scanned) {mode : Mode M}
    (tried : Tried limit mode) : ∃ noted final,
      readAll σ limit mode (scanned ++ [.token closing]) = complaining noted (.ok final) ∧
      ∀ pending complaints,
        let last := (feedFrom pending (scanned ++ [.token closing])).foldl
          (Progress.step σ limit) ⟨mode, complaints⟩
        last.mode = final ∧ last.complaints.toList =
          complaints.toList ++ (pending.map Complaint.lexical ++ noted) := by
  induction scanned generalizing mode with
  | nil =>
      obtain ⟨noted, next, _, filed, each⟩ := step_notes (σ := σ) tried closing
      refine ⟨noted, next, ?_, fun pending complaints => each complaints pending⟩
      rw [List.nil_append, readAll, filed]
      exact filing_then rfl
  | cons item more ih =>
      cases item with
      | fault fault =>
          obtain ⟨noted, final, filed, each⟩ := ih tried
          refine ⟨[.lexical fault] ++ noted, final, ?_, fun pending complaints => ?_⟩
          · rw [List.cons_append, readAll, complain_filing]
            exact filing_bind filed
          · simpa [feedFrom] using each (pending ++ [fault]) complaints
      | token token =>
          obtain ⟨noted, next, tried, filed, each⟩ := step_notes (σ := σ) tried token
          obtain ⟨further, final, rest, last⟩ := ih tried
          refine ⟨noted ++ further, final, ?_, fun pending complaints => ?_⟩
          · rw [List.cons_append, readAll, filed]
            exact filing_bind rest
          · obtain ⟨reached, kept⟩ := each complaints pending
            have same := last []
              (Progress.step σ limit ⟨mode, complaints⟩ ⟨pending, token⟩).complaints
            rw [← reached, kept] at same
            simpa [feedFrom] using same

end Reading

/-- A reader that lost its way is content with nothing. -/
theorem parse_rescue {text : String} {noted : List Complaint} {ending : Except Abort _}
    (read : Pass.readProgram trees (scan text) = complaining noted ending)
    (known : ∀ abort, ending = .error abort → abort = .lost) :
    Pass.parse text = complaining noted (.ok (ending.toOption.getD [])) := by
  funext report
  show EStateM.tryCatch (Pass.readProgram trees (scan text)) _ report = _
  unfold EStateM.tryCatch
  rw [read]
  simp only [filing]
  rcases report.fileAll _ with ⟨filed, full⟩
  cases full with
  | true => rfl
  | false =>
      cases ending with
      | ok value => rfl
      | error abort =>
          cases known abort rfl
          rfl

/-- **Reading a text complains about what there is to complain about**, and gives the tree. -/
theorem parse_filing (text : String) :
    Pass.parse text = complaining (Lox.parse text).complaints (.ok (Lox.parse text).tree) := by
  obtain ⟨inner, closing, split⟩ := scan_closing text
  have count : (tokensOf (scan text)).length = (feed text).length := by
    rw [← feed_tokens, List.length_map]
  have ready : Tried (reductionLimit (feed text).length) (.reading [] : Mode Symbol.Tree) := trivial
  obtain ⟨noted, final, filed, each⟩ := readAll_notes (σ := trees) closing inner ready
  rw [← split] at filed each
  have reached : ((feed text).foldl (Progress.step trees (reductionLimit (feed text).length))
      ⟨.reading [], #[]⟩).mode = final := (each [] #[]).1
  have kept : ((feed text).foldl (Progress.step trees (reductionLimit (feed text).length))
      ⟨.reading [], #[]⟩).complaints.toList = noted := (each [] #[]).2
  have read : Pass.readProgram trees (scan text) =
      complaining noted (final.program?.elim (.error .lost) .ok) := by
    rw [Pass.readProgram, count, filed]
    refine filing_then ?_
    cases final <;> rfl
  rw [parse_rescue read (by cases final <;> simp [Mode.program?]), Lox.parse, Lox.readProgram]
  simp only [reached, kept]
  cases final <;> rfl

end Pass

/-! ### Resolving -/

namespace Verdict

open Resolver

/-- The pass that objects to what a verdict objects to, and gives what it gives. -/
def filed (verdict : Verdict α) : Pass α :=
  Pass.filing Issue.ofViolation verdict.complaints (verdict.value.elim (.error .tooDeep) .ok)

theorem filed_pure (value : α) : (Pure.pure value : Verdict α).filed = Pure.pure value :=
  rfl

theorem filed_bind (verdict : Verdict α) (next : α → Verdict β) :
    (verdict >>= next).filed = verdict.filed >>= fun value => (next value).filed := by
  obtain ⟨complaints, value⟩ := verdict
  cases value with
  | none => exact Pass.filing_error_bind.symm
  | some value =>
      symm
      show (Pass.filing _ complaints (.ok value) >>= fun value => (next value).filed) = _
      exact Pass.filing_bind rfl

theorem filed_objectIf (condition : Bool) (token : Token) (violation : Violation) :
    (objectIf condition token violation : Verdict Unit).filed =
      objectIf condition token violation := by
  cases condition with
  | false => rfl
  | true => exact (Pass.filing_file (token, violation)).symm

theorem filed_descend (calls room : Nat) (next : Nat → Verdict α) :
    (descend calls room next).filed = descend calls room fun room => (next room).filed := by
  unfold descend
  split <;> rfl

end Verdict

open Verdict

theorem Reference.read_filed (around : Enclosing) (reference : Reference Unit) :
    (reference.read around : Verdict _).filed = reference.read around := by
  simp only [Reference.read, filed_bind, filed_objectIf, filed_pure]

theorem declare_filed (around : Enclosing) (name : Token) :
    (declare around name : Verdict _).filed = declare around name := by
  simp only [declare, filed_bind, filed_objectIf, filed_pure]

theorem introduce_filed (around : Enclosing) (name : Token) :
    (introduce around name : Verdict _).filed = introduce around name := by
  simp only [introduce, filed_bind, declare_filed, filed_pure]

theorem introduceAll_filed (names : List Token) (around : Enclosing) :
    (introduceAll around names : Verdict _).filed = introduceAll around names := by
  induction names generalizing around with
  | nil => rfl
  | cons name more ih => simp only [introduceAll, filed_bind, introduce_filed, ih]

mutual

theorem Expr.resolve_filed (around : Enclosing) (room : Nat) : (expr : Expr Unit) →
    (expr.resolve around room : Verdict _).filed = expr.resolve around room
  | .assign _ value | .get value _ | .grouping value | .unary _ _ value => by
    simp only [Expr.resolve, filed_descend, filed_bind, filed_pure, value.resolve_filed around]
  | .binary left _ _ right | .logical left _ _ right | .set left _ right => by
    simp only [Expr.resolve, filed_descend, filed_bind, filed_pure, left.resolve_filed around,
      right.resolve_filed around]
  | .call callee _ args => by
    simp only [Expr.resolve, filed_descend, filed_bind, filed_pure, callee.resolve_filed around,
      resolveArguments_filed around _ args]
  | .literal _ => by simp only [Expr.resolve, filed_descend, filed_pure]
  | .super _ _ | .this _ => by
    simp only [Expr.resolve, filed_descend, filed_bind, filed_objectIf, filed_pure]
  | .var name => by
    simp only [Expr.resolve, filed_descend, filed_bind, name.read_filed, filed_pure]

theorem resolveArguments_filed (around : Enclosing) (room : Nat) : (args : List (Expr Unit)) →
    (resolveArguments around room args : Verdict _).filed = resolveArguments around room args
  | [] => rfl
  | arg :: more => by
    simp only [resolveArguments, filed_bind, filed_pure, arg.resolve_filed around,
      resolveArguments_filed around room more]

end

theorem resolveOptional_filed (around : Enclosing) (room : Nat) (value : Option (Expr Unit)) :
    (resolveOptional around room value : Verdict _).filed = resolveOptional around room value := by
  cases value with
  | none => rfl
  | some value =>
      simp only [resolveOptional, filed_bind, filed_pure, value.resolve_filed around]

theorem resolveSuperclass_filed (around : Enclosing) (name : Token)
    (superclass : Option (Reference Unit)) :
    (resolveSuperclass around name superclass : Verdict _).filed =
      resolveSuperclass around name superclass := by
  cases superclass with
  | none => rfl
  | some superclass =>
      simp only [resolveSuperclass, filed_bind, filed_objectIf, superclass.read_filed, filed_pure]

mutual

theorem Stmt.resolve_filed (around : Enclosing) (room : Nat) : (stmt : Stmt Unit) →
    (stmt.resolve around room : Verdict _).filed = stmt.resolve around room
  | .block body => by
    simp only [Stmt.resolve, filed_descend, filed_bind, filed_pure, resolveAll_filed _ _ body]
  | .function decl => by
    simp only [Stmt.resolve, filed_descend, filed_bind, filed_pure, introduce_filed,
      decl.resolve_filed]
  | .class_ _ _ methods => by
    simp only [Stmt.resolve, filed_descend, filed_bind, filed_pure, introduce_filed,
      resolveSuperclass_filed, resolveMethods_filed _ _ methods]
  | .expression value | .print _ value => by
    simp only [Stmt.resolve, filed_descend, filed_bind, filed_pure, value.resolve_filed]
  | .ifThen cond yes => by
    simp only [Stmt.resolve, filed_descend, filed_bind, filed_pure, cond.resolve_filed,
      yes.resolve_filed]
  | .ifElse cond yes no => by
    simp only [Stmt.resolve, filed_descend, filed_bind, filed_pure, cond.resolve_filed,
      yes.resolve_filed, no.resolve_filed]
  | .return_ _ value => by
    simp only [Stmt.resolve, filed_descend, filed_bind, filed_objectIf, filed_pure,
      resolveOptional_filed]
  | .var _ init => by
    simp only [Stmt.resolve, filed_descend, filed_bind, filed_pure, declare_filed,
      resolveOptional_filed]
  | .while_ cond body => by
    simp only [Stmt.resolve, filed_descend, filed_bind, filed_pure, cond.resolve_filed,
      body.resolve_filed]

/-- **Resolving objects to what there is to object to**, and gives what its verdict gives. -/
theorem resolveAll_filed (around : Enclosing) (room : Nat) : (body : List (Stmt Unit)) →
    (resolveAll around room body : Verdict _).filed = resolveAll around room body
  | [] => rfl
  | stmt :: more => by
    simp only [resolveAll, filed_bind, filed_pure, stmt.resolve_filed,
      resolveAll_filed _ room more]

theorem Function.resolve_filed (around : Enclosing) (room : Nat) : (decl : Function Unit) →
    (decl.resolve around room : Verdict _).filed = decl.resolve around room
  | .mk _ params body => by
    simp only [Function.resolve, filed_descend, filed_bind, filed_pure, introduceAll_filed,
      resolveAll_filed _ _ body]

theorem resolveMethods_filed (around : Enclosing) (room : Nat) : (methods : List (Function Unit)) →
    (resolveMethods around room methods : Verdict _).filed = resolveMethods around room methods
  | [] => rfl
  | method :: more => by
    simp only [resolveMethods, filed_bind, filed_pure, method.resolve_filed,
      resolveMethods_filed around room more]

end

/-! ### How passes end -/

namespace Report

/-- Files the issues of a pass. What the pass has found is there unless the report gets full. -/
def conclude (report : Report) (issues : List Issue) (found : α) : Report × Option α :=
  ((report.fileAll issues).1, if (report.fileAll issues).2 then none else some found)

/-- If there is something in the end, it is what the pass has found. -/
theorem conclude_found {report : Report} {issues : List Issue} {found value : α}
    (ended : (report.conclude issues found).2 = some value) : value = found := by
  unfold conclude at ended
  simp only at ended
  split at ended
  · cases ended
  · exact (Option.some.inj ended).symm

theorem outcome_filing (report : Report) (issue : Option String → ι → Issue) (items : List ι)
    (found : α) : outcome (Pass.filing issue items (.ok found) report) =
      report.conclude (items.map (issue report.source)) found := by
  unfold Pass.filing conclude
  rcases report.fileAll _ with ⟨filed, full⟩
  cases full <;> rfl

/-- **Scanning with a report.** -/
theorem scanText_conclude (report : Report) (text : String) :
    report.scanText text = (report.setSource text).conclude
      ((faultsOf (scan text)).map fun fault =>
        Issue.ofComplaint (report.setSource text).source (.lexical fault))
      (tokensOf (scan text)) := by
  rw [scanText, Pass.scanAll_filing, outcome_filing, List.map_map]
  rfl

/-- **Parsing with a report.** -/
theorem parseText_conclude (report : Report) (text : String) :
    report.parseText text = (report.setSource text).conclude
      ((parse text).complaints.map (Issue.ofComplaint (report.setSource text).source))
      (parse text).tree := by
  rw [parseText, Pass.parse_filing, outcome_filing]

/-- **Resolving with a report**, whatever the room. -/
theorem resolveTree_eq (report : Report) (tree : List (Stmt Unit)) (room : Nat) :
    let verdict := resolve tree room
    let filed := report.fileAll (verdict.complaints.map (Issue.ofViolation report.source))
    report.resolveTree tree room =
      (filed.1, if filed.2 then .full else verdict.value.elim .tooDeep .done) := by
  unfold resolve
  simp only
  rw [resolveTree, ← resolveAll_filed, Verdict.filed, Pass.filing]
  rcases report.fileAll _ with ⟨filed, full⟩
  cases full with
  | true => rfl
  | false => cases (resolveAll .topLevel room tree : Verdict (List (Stmt Hops))).value <;> rfl

theorem resolveTree_done {room : Nat} (report : Report) {tree : List (Stmt Unit)}
    {resolved : List (Stmt Hops)} (done : (report.resolveTree tree room).2 = .done resolved) :
    (resolve tree room).value = some resolved := by
  rw [resolveTree_eq] at done
  split at done
  · cases done
  · cases found : (resolve tree room).value with
    | none =>
        rw [found] at done
        cases done
    | some value =>
        rw [found] at done
        cases done
        rfl

end Report

end Lox
