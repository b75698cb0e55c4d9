/-
**Dialogues.** A line that does not compile leaves no trace.

* `Command.answers` lists what the lines of a dialogue come to, one `Answer` for each: whether its
  run ends, what it prints, what is said about it, and the globals and the number of entries after
  it. A line whose run does not end is the last one.
* What was said before does not matter for what is said next (`Session.run_after`), so a line is
  answered by what a session knows apart from that (`Session.untold`).
* A line that does not compile leaves that as it is (`Command.answerLine_broken`). So such lines may
  be left out, and the answers to all others stay (`Command.answers_filter`).
-/

import Lox.CommandLine.Command
import Lox.Proofs.Chunks

namespace Lox

/-! ### What was said before -/

namespace Report

variable (before : String) (report : Report)

/-- The report if something was said before. -/
def after : Report :=
  { report with written := before ++ report.written }

theorem say_after (line : String) :
    (report.after before).say line = (report.say line).after before := by
  simp only [after, say, String.append_assoc]

theorem info_after (words : List String) :
    (report.after before).info words = (report.info words).after before := by
  unfold info
  by_cases least : report.verbosity = 0
  · rw [if_pos least, if_pos (show (report.after before).verbosity = 0 from least)]
  · rw [if_neg least, if_neg (show ¬ (report.after before).verbosity = 0 from least), say_after]

theorem fileAll_after (issues : List Issue) :
    (report.after before).fileAll issues = Prod.map (after before) id (report.fileAll issues) := by
  induction issues generalizing report with
  | nil => rfl
  | cons issue more ih =>
      have filed := ih (report.file issue)
      unfold fileAll
      by_cases full : (report.file issue).full = true
      · rw [if_pos full, if_pos (show ((report.after before).file issue).full = true from full)]
        rfl
      · rw [if_neg full, if_neg (show ¬ ((report.after before).file issue).full = true from full)]
        exact filed

theorem parseText_after (text : String) :
    (report.after before).parseText text =
      Prod.map (after before) id (report.parseText text) := by
  rw [parseText_conclude, parseText_conclude,
    show (report.after before).setSource text = (report.setSource text).after before from rfl,
    conclude, conclude, fileAll_after, show ((report.setSource text).after before).source =
      (report.setSource text).source from rfl]
  rcases (report.setSource text).fileAll _ with ⟨next, full⟩
  cases full <;> rfl

theorem resolveTree_after (tree : List (Stmt Unit)) (room : Nat) :
    (report.after before).resolveTree tree room =
      Prod.map (after before) id (report.resolveTree tree room) := by
  rw [resolveTree_eq, resolveTree_eq, show (report.after before).source = report.source from rfl,
    fileAll_after]
  rfl

theorem foldl_say_after (texts : Issue → String) (issues : List Issue) :
    issues.foldl (fun report issue => report.say (texts issue)) (report.after before) =
      (issues.foldl (fun report issue => report.say (texts issue)) report).after before := by
  induction issues generalizing report with
  | nil => rfl
  | cons issue more ih => rw [List.foldl_cons, List.foldl_cons, say_after, ih]

theorem complain_after : (report.after before).complain = report.complain.after before := by
  unfold complain
  simp only [← Array.foldl_toList]
  by_cases loud : (report.verbosity != 0 && report.sick) = true
  · rw [if_pos loud, if_pos (show ((report.after before).verbosity != 0 &&
      (report.after before).sick) = true from loud), say_after]
    exact foldl_say_after before _ _ _
  · rw [if_neg loud, if_neg (show ¬ ((report.after before).verbosity != 0 &&
      (report.after before).sick) = true from loud)]
    exact foldl_say_after before _ _ _

end Report

namespace Session

variable (before : String) (session : Session)

/-- The session if something was said before. -/
def after : Session :=
  { session with report := session.report.after before }

theorem reject_after (report : Report) :
    (session.after before).reject (report.after before) =
      Prod.map (after before) id (session.reject report) := by
  rw [reject, reject, Report.complain_after]
  rfl

theorem explain_after (report : Report) (failure : Option Failure) :
    explain (report.after before) failure = (explain report failure).after before := by
  cases failure with
  | none => rfl
  | some failure =>
      cases failure with
      | exhausted => rfl
      | _ => exact Report.say_after before { report with crashed := true } _

theorem runTree_after (report : Report) (tree : List (Stmt Hops)) :
    (session.after before).runTree (report.after before) tree =
      Prod.map (after before) id (session.runTree report tree) := by
  unfold runTree
  simp only [explain_after]
  rfl

theorem proceed_after (report : Report) (tree : List (Stmt Hops)) :
    (session.after before).proceed (report.after before) tree =
      Prod.map (after before) id (session.proceed report tree) := by
  unfold proceed
  simp only
  rw [Report.info_after, show (session.after before).checkOnly = session.checkOnly from rfl]
  cases session.checkOnly with
  | true => rfl
  | false => exact session.runTree_after before _ tree

/-- **What was said before does not matter** for what a text comes to, nor for what is said next. -/
theorem run_after (text : String) :
    (session.after before).run text = Prod.map (after before) id (session.run text) := by
  unfold run
  rw [show (session.after before).report = session.report.after before from rfl,
    Report.parseText_after]
  rcases session.report.parseText text with ⟨report, _ | tree⟩
  · rfl
  · simp only [Prod.map, id]
    by_cases sick : report.sick = true
    · rw [if_pos sick, if_pos (show (report.after before).sick = true from sick)]
      exact session.reject_after before report
    · rw [if_neg sick, if_neg (show ¬ (report.after before).sick = true from sick),
        Report.info_after, Report.resolveTree_after]
      simp only [show (session.after before).limits = session.limits from rfl]
      rcases (report.info _).resolveTree tree session.limits.nesting with ⟨next, _ | _ | resolved⟩
      · rfl
      · simp only [Prod.map, id]
        rw [Report.fileAll_after]
        rcases next.fileAll _ with ⟨last, full⟩
        cases full with
        | true => rfl
        | false => exact session.reject_after before last
      · simp only [Prod.map, id]
        by_cases ill : next.sick = true
        · rw [if_pos ill, if_pos (show (next.after before).sick = true from ill)]
          exact session.reject_after before next
        · rw [if_neg ill, if_neg (show ¬ (next.after before).sick = true from ill)]
          exact session.proceed_after before next resolved

/-- The session as if nothing was said yet, about any text. -/
def untold : Session :=
  { session with report := { session.report with source := none, written := "" } }

/-- A text is told apart from what was said before. -/
theorem run_untold (text : String) :
    session.run text = Prod.map (after session.report.written) id (session.untold.run text) := by
  rw [← run_after]
  have whole : session.report.written ++ "" = session.report.written := String.append_empty
  unfold run Report.parseText after Report.after untold Report.setSource
  simp only [whole]
  rfl

end Session

/-! ### Texts that do not compile -/

/-- Whether a text compiles: nothing is wrong with it, and it is not nested too deeply for the
room. -/
def compiles (room : Nat) (text : String) : Bool :=
  (parse text).complaints.isEmpty && (resolve (parse text).tree room).complaints.isEmpty &&
    (resolve (parse text).tree room).value.isSome

theorem Passes.compiles {text : String} {tree : List (Stmt Hops)} {room : Nat}
    (passes : Passes text tree room) : compiles room text = true := by
  simp [Lox.compiles, passes.parsed, passes.resolved, passes.tree]

namespace Report

/-- What a report was set up with. -/
def settings (report : Report) : Nat × Int × Nat :=
  (report.verbosity, report.cap, report.luck)

theorem settings_info (report : Report) (words : List String) :
    (report.info words).settings = report.settings := by
  unfold info
  split <;> rfl

theorem settings_fileAll (report : Report) (issues : List Issue) :
    (report.fileAll issues).1.settings = report.settings := by
  induction issues generalizing report with
  | nil => rfl
  | cons issue more ih =>
      unfold fileAll
      simp only
      split
      · rfl
      · exact ih _

theorem settings_parseText (report : Report) (text : String) :
    (report.parseText text).1.settings = report.settings := by
  rw [parseText_report]
  exact settings_fileAll _ _

theorem settings_resolveTree (report : Report) (tree : List (Stmt Unit)) (room : Nat) :
    (report.resolveTree tree room).1.settings = report.settings := by
  rw [resolveTree_report]
  exact settings_fileAll _ _

theorem settings_foldl_say (texts : Issue → String) (report : Report) (issues : List Issue) :
    (issues.foldl (fun report issue => report.say (texts issue)) report).settings =
      report.settings := by
  induction issues generalizing report with
  | nil => rfl
  | cons issue more ih => exact ih _

theorem settings_complain (report : Report) : report.complain.settings = report.settings := by
  unfold complain
  simp only [← Array.foldl_toList]
  rw [settings_foldl_say]
  split <;> rfl

end Report

/-- **A text that does not compile** changes the report of a session at most, and not what that was
set up with. It is not run, so it does not run forever. -/
theorem Session.run_broken {session : Session} {text : String}
    (broken : compiles session.limits.nesting text = false) :
    ∃ (report : Report) (outcome : Option Outcome),
      session.run text = ({ session with report }, outcome) ∧ outcome ≠ some .endless ∧
        report.settings = session.report.settings := by
  have parsing := session.report.settings_parseText text
  unfold run
  rcases parsed : session.report.parseText text with ⟨report, _ | tree⟩
  · rw [parsed] at parsing
    exact ⟨report, _, rfl, nofun, parsing⟩
  · rw [parsed] at parsing
    simp only
    by_cases sick : report.sick = true
    · rw [if_pos sick]
      exact ⟨_, _, rfl, nofun, report.settings_complain.trans parsing⟩
    · obtain ⟨clean, rfl⟩ := Report.parseText_sound parsed sick
      have informing := report.settings_info
        ["Parsed " ++ toString (parse text).tree.length ++ " statement(s)."]
      have resolving := ((report.info _).settings_resolveTree (parse text).tree
        session.limits.nesting).trans (informing.trans parsing)
      rw [if_neg sick]
      rcases done : (report.info _).resolveTree (parse text).tree session.limits.nesting with
        ⟨next, _ | _ | resolved⟩
      · rw [done] at resolving
        exact ⟨next, _, rfl, nofun, resolving⟩
      · rw [done] at resolving
        have filing := (next.settings_fileAll [.nesting]).trans resolving
        simp only
        rcases filed : next.fileAll [.nesting] with ⟨last, full⟩
        rw [filed] at filing
        cases full with
        | true => exact ⟨last, _, rfl, nofun, filing⟩
        | false => exact ⟨_, _, rfl, nofun, last.settings_complain.trans filing⟩
      · rw [done] at resolving
        simp only
        by_cases ill : next.sick = true
        · rw [if_pos ill]
          exact ⟨_, _, rfl, nofun, next.settings_complain.trans resolving⟩
        · obtain ⟨quiet, found⟩ := Report.resolveTree_sound done ill
          have passes : Passes text resolved session.limits.nesting := ⟨clean, quiet, found⟩
          exact absurd passes.compiles (by simp [broken])

/-- What a session knows after a reset depends on what its report was set up with. -/
theorem Session.untold_reset {session : Session} {report : Report}
    (same : report.settings = session.report.settings) :
    { session with report }.reset.untold = session.reset.untold := by
  simp only [Report.settings, Prod.mk.injEq] at same
  obtain ⟨verbosity, cap, luck⟩ := same
  simp only [reset, untold, Report.reset, verbosity, cap, luck]

/-! ### Limits -/

theorem Session.proceed_limits (session : Session) (report : Report) (tree : List (Stmt Hops)) :
    (session.proceed report tree).1.limits = session.limits := by
  unfold proceed
  simp only
  split <;> rfl

/-- The limits of a session stay. -/
theorem Session.run_limits (session : Session) (text : String) :
    (session.run text).1.limits = session.limits := by
  unfold run
  split
  · rfl
  · split
    · rfl
    · simp only
      split
      · rfl
      · split <;> rfl
      · split
        · rfl
        · exact session.proceed_limits _ _

/-! ### Answers -/

namespace Command

/-- What a line of a dialogue comes to: what it prints, what is said about it, and after it the
globals for display and the number of references to local declarations so far. -/
structure Answer where
  line : String
  /-- Whether its run ended. -/
  ended : Bool
  printed : String
  said : String
  globals : List (String × Shown)
  entries : Nat

/-- What a line comes to. -/
def answer (session : Session) (line : String) : Answer :=
  let (next, ended) := answerLine session line
  { line
    ended
    printed := printedSince next.machine session.machine.printed.size
    said := (answerLine session.untold line).1.report.written
    globals := next.machine.globalsShown
    entries := next.resolved }

/-- What the lines of a dialogue come to. There is nothing after a line whose run does not end. -/
def answers (session : Session) : List String → List Answer
  | [] => []
  | line :: more =>
    answer session line ::
      if (answerLine session line).2 then answers (answerLine session line).1 more else []

theorem answerLine_untold (session : Session) (line : String) :
    answerLine session line =
      Prod.map (·.after session.report.written) id (answerLine session.untold line) := by
  unfold answerLine
  rw [session.run_untold]
  rcases session.untold.run line with ⟨next, _ | outcome⟩
  · simp only [Prod.map, id]
    rw [show (next.after session.report.written).report =
      next.report.after session.report.written from rfl, Report.complain_after]
    rfl
  · cases outcome <;> rfl

/-- The report is reset after each line whose run ends. -/
theorem answerLine_reset {session : Session} {line : String}
    (ended : (answerLine session line).2 = true) :
    (answerLine session line).1.reset = (answerLine session line).1 := by
  unfold answerLine at ended ⊢
  split
  · rfl
  · simp_all
  · rfl

theorem answerLine_limits (session : Session) (line : String) :
    (answerLine session line).1.limits = session.limits := by
  have same := session.run_limits line
  unfold answerLine
  split <;> rename_i ran <;> rw [ran] at same <;> exact same

/-- **A line that does not compile leaves no trace** but in what is said about it. -/
theorem answerLine_broken {session : Session} (calm : session.reset = session) {line : String}
    (broken : compiles session.limits.nesting line = false) :
    (answerLine session line).1.untold = session.untold ∧ (answerLine session line).2 = true := by
  obtain ⟨report, outcome, ran, ends, settings⟩ := session.run_broken broken
  nth_rewrite 2 [← calm]
  unfold answerLine
  rw [ran]
  cases outcome with
  | none => exact ⟨Session.untold_reset (report.settings_complain.trans settings), rfl⟩
  | some outcome =>
      cases outcome with
      | endless => exact absurd rfl ends
      | _ => exact ⟨Session.untold_reset settings, rfl⟩

theorem answer_untold (session : Session) (line : String) :
    answer session.untold line = answer session line := by
  unfold answer
  rw [answerLine_untold session]
  rfl

/-- A dialogue is about what a session knows, whatever was said before. -/
theorem answers_untold (session : Session) (lines : List String) :
    answers session.untold lines = answers session lines := by
  induction lines generalizing session with
  | nil => rfl
  | cons line more ih =>
      rw [answers, answers, answer_untold, ← ih (answerLine session line).1,
        ← ih (answerLine session.untold line).1, answerLine_untold session]
      rfl

/-- **Lines that do not compile may be left out**, any of them, and all other lines are answered as
before. -/
theorem answers_filter {room : Nat} {keep : String → Bool}
    (kept : ∀ line, compiles room line = true → keep line = true) {session : Session}
    (calm : session.reset = session) (bound : session.limits.nesting = room)
    (lines : List String) :
    answers session (lines.filter keep) =
      (answers session lines).filter fun given => keep given.line := by
  induction lines generalizing session with
  | nil => rfl
  | cons line more ih =>
      have rest (ended : (answerLine session line).2 = true) :=
        ih (answerLine_reset ended) ((congrArg _ (answerLine_limits session line)).trans bound)
      by_cases stays : keep line = true
      · rw [List.filter_cons_of_pos stays, answers, answers,
          List.filter_cons_of_pos (p := fun given => keep given.line)
            (a := answer session line) stays]
        by_cases ended : (answerLine session line).2 = true
        · rw [if_pos ended, if_pos ended, rest ended]
        · rw [if_neg ended, if_neg ended, List.filter_nil]
      · have broken : compiles session.limits.nesting line = false := by
          rw [bound]
          cases found : compiles room line with
          | true => exact absurd (kept line found) stays
          | false => rfl
        obtain ⟨untold, ended⟩ := answerLine_broken calm broken
        rw [List.filter_cons_of_neg stays, answers,
          List.filter_cons_of_neg (p := fun given => keep given.line)
            (a := answer session line) stays, if_pos ended, ← rest ended,
          ← answers_untold session, ← untold, answers_untold]

/-- What is said about a line comes after what was said before. -/
theorem answerLine_said (session : Session) (line : String) :
    (answerLine session line).1.report.written =
      session.report.written ++ (answer session line).said := by
  rw [answerLine_untold]
  rfl

/-- What is shown of answers: the prompt before each one. -/
def shown (given : List Answer) : String :=
  String.join (given.map fun answer => prompt ++ answer.printed)

/-- What is said in answers, one after the other. -/
def said (given : List Answer) : String :=
  String.join (given.map Answer.said)

/-- All lines are answered if all runs end. -/
theorem answers_line {session : Session} {lines : List String}
    (ended : ∀ given ∈ answers session lines, given.ended = true) :
    (answers session lines).map Answer.line = lines := by
  induction lines generalizing session with
  | nil => rfl
  | cons line more ih =>
      rw [answers] at ended ⊢
      obtain ⟨here, rest⟩ := List.forall_mem_cons.mp ended
      have here : (answerLine session line).2 = true := here
      rw [if_pos here] at rest ⊢
      exact congrArg (line :: ·) (ih rest)

/-- If some run does not end, then it is the last one. -/
theorem answers_last {session : Session} {lines : List String}
    (open_ : ∃ given ∈ answers session lines, given.ended = false) :
    (answers session lines).getLast?.map Answer.ended = some false := by
  induction lines generalizing session with
  | nil =>
      obtain ⟨_, member, _⟩ := open_
      cases member
  | cons line more ih =>
      have here : (answer session line).ended = (answerLine session line).2 := rfl
      rw [answers] at open_ ⊢
      by_cases ended : (answerLine session line).2 = true
      · rw [if_pos ended] at open_ ⊢
        obtain ⟨given, member, waits⟩ := open_
        rcases List.mem_cons.mp member with rfl | later
        · rw [here, ended] at waits
          cases waits
        · have rest := ih ⟨given, later, waits⟩
          rw [List.getLast?_cons]
          cases last : (answers (answerLine session line).1 more).getLast? with
          | none =>
              rw [last] at rest
              cases rest
          | some given =>
              rw [last] at rest
              exact rest
      · rw [if_neg ended]
        exact congrArg some (here.trans (Bool.not_eq_true _ ▸ ended))

/-- A dialogue goes on after a line whose run ends. -/
theorem dialogue_cons (session : Session) (out line : String) (more : List String) :
    dialogue session out (line :: more) =
      if (answerLine session line).2 then
        dialogue (answerLine session line).1 (out ++ (prompt ++ (answer session line).printed)) more
      else
        ⟨none, out ++ (prompt ++ (answer session line).printed),
          session.report.written ++ (answer session line).said⟩ := by
  rw [dialogue, ← answerLine_said]
  simp only [String.append_assoc]
  rfl

/-- **A dialogue comes to its answers.** There is one more prompt, and a status, if all runs end. -/
theorem dialogue_eq (session : Session) (out : String) (lines : List String) :
    dialogue session out lines =
      if (answers session lines).all Answer.ended then
        ⟨some 0, out ++ shown (answers session lines) ++ prompt ++ "\n",
          session.report.written ++ said (answers session lines)⟩
      else
        ⟨none, out ++ shown (answers session lines),
          session.report.written ++ said (answers session lines)⟩ := by
  induction lines generalizing session out with
  | nil =>
      simp only [answers, shown, said, List.map_nil, String.join_nil, String.append_empty]
      rfl
  | cons line more ih =>
      have here : (answer session line).ended = (answerLine session line).2 := rfl
      rw [dialogue_cons, answers, List.all_cons, here]
      by_cases ended : (answerLine session line).2 = true
      · rw [if_pos ended, if_pos ended, ih, answerLine_said, ended, Bool.true_and]
        simp only [shown, said, List.map_cons, String.join_cons, String.append_assoc]
      · rw [if_neg ended, if_neg ended, if_neg (by simp [ended])]
        simp only [shown, said, List.map_cons, List.map_nil, String.join_cons, String.join_nil,
          String.append_empty]

/-- **A line that does not compile leaves no trace in a dialogue.** If the runs of all lines end,
then a dialogue answers all its lines, with a prompt before each one and a last prompt at the end,
and its status is zero whatever the runs come to; if the run of a line does not end, then this line
is the last one and there is no status. In any case, leaving out lines that do not compile, all of
them or only some, changes no other answer: neither what is printed, nor what is said, be it about a
failed run, nor the globals, nor the number of entries after it. -/
theorem dialogue_forgets {session : Session} (calm : session.reset = session)
    (lines : List String) :
    let given := answers session lines
    let told := session.report.written ++ said given
    ((∀ answer ∈ given, answer.ended = true) → given.map Answer.line = lines ∧
      dialogue session "" lines = ⟨some 0, shown given ++ prompt ++ "\n", told⟩) ∧
    ((∃ answer ∈ given, answer.ended = false) → given.getLast?.map Answer.ended = some false ∧
      dialogue session "" lines = ⟨none, shown given, told⟩) ∧
    ∀ keep : String → Bool,
      (∀ line, compiles session.limits.nesting line = true → keep line = true) →
        answers session (lines.filter keep) = given.filter fun answer => keep answer.line := by
  intro given told
  have same := dialogue_eq session "" lines
  simp only [String.empty_append] at same
  refine ⟨fun ended => ⟨answers_line ended, ?_⟩, fun open_ => ⟨?_, ?_⟩, fun keep kept =>
    answers_filter kept calm rfl lines⟩
  · rw [same, if_pos (List.all_eq_true.mpr ended)]
  · exact answers_last open_
  · obtain ⟨answer, member, waits⟩ := open_
    rw [same, if_neg]
    intro all
    rw [List.all_eq_true.mp all answer member] at waits
    cases waits

/-- A dialogue in which lines do not compile: one that is no sentence, one that reads a variable in
its own initializer, and one with so many faults that it is given up. -/
def forgivingLines : List String :=
  ["var a = 1;", "print a", "{ var a = a; }", String.ofList (List.replicate 60 '@'),
    "{ var b = a; print b; }", "print a + nil;", "print a;"]

theorem dialogue_forgets_forgiving :
    (Session.start {} .zero false).reset = Session.start {} .zero false ∧
      forgivingLines.filter (compiles maxNesting) =
        ["var a = 1;", "{ var b = a; print b; }", "print a + nil;", "print a;"] ∧
      (∀ answer ∈ answers (Session.start {} .zero false) forgivingLines, answer.ended = true) ∧
      (dialogue (Session.start {} .zero false) "" forgivingLines).status = some 0 ∧
      answers (Session.start {} .zero false) (forgivingLines.filter (compiles maxNesting)) =
        (answers (Session.start {} .zero false) forgivingLines).filter
          fun answer => compiles maxNesting answer.line := by
  have calm : (Session.start {} .zero false).reset = Session.start {} .zero false := rfl
  obtain ⟨all, _, forgets⟩ := dialogue_forgets calm forgivingLines
  have ended : ∀ answer ∈ answers (Session.start {} .zero false) forgivingLines,
      answer.ended = true := List.all_eq_true.mp (by decide +kernel)
  exact ⟨calm, by decide +kernel, ended, congrArg Exit.status (all ended).2,
    forgets _ fun _ => id⟩

/-! ### Runs that do not end -/

end Command

/-- A loop takes all its turns, however many there are, if its condition holds and nothing changes
in a turn. -/
theorem Run.loop_idle {cond : Run Value} {body : Run Completion} {machine : Machine} {value : Value}
    (test : cond machine = .ok value machine) (truthy : value.isTruthy = true)
    (turn : body machine = .ok none machine) (turns : Nat) :
    Run.loop cond body turns machine = .error .exhausted machine := by
  induction turns with
  | zero => rfl
  | succ turns ih =>
      rw [Run.loop]
      simp only [Bind.bind, EStateM.bind, test, truthy, if_true, turn]
      exact ih

/-- Whether a statement is a loop over literals, the first one true. -/
def Stmt.idles : Stmt Hops → Bool
  | .while_ (.literal test) (.expression (.literal _)) => (Value.ofLiteral test).isTruthy
  | _ => false

theorem Stmt.exec_idles {stmt : Stmt Hops} (idles : stmt.idles = true) (turns room frame : Nat)
    (machine : Machine) :
    stmt.exec .direct turns (room + 3) frame machine = .error .exhausted machine := by
  unfold Stmt.idles at idles
  split at idles
  · rw [Stmt.exec]
    exact Run.loop_idle rfl idles rfl turns
  · cases idles

namespace Command

/-- A line that repeats an empty statement for ever. -/
def endlessLine : String :=
  "while (true) nil;"

/-- A session at its start, in which a loop may take a number of turns. -/
def patient (turns : Nat) : Session :=
  Session.start {} .zero false { turns }

/-- However many turns there are, the line takes them all, and nothing is seen of it. -/
theorem answer_endlessLine (turns : Nat) :
    (answerLine (patient turns) endlessLine).2 = false ∧
      (answer (patient turns) endlessLine).printed = "" ∧
      (answer (patient turns) endlessLine).said = "" := by
  have idles : (resolve (parse endlessLine).tree).value.map (fun tree =>
      tree.map Stmt.idles) = some [true] := by decide +kernel
  obtain ⟨tree, passes⟩ : ∃ tree, Passes endlessLine tree := exists_passes (by decide +kernel)
  rw [passes.tree, Option.map_some, Option.some_inj] at idles
  obtain ⟨stmt, rfl, idle⟩ := List.map_eq_singleton_iff.mp idles
  have ended : runProgram [stmt] (patient turns).machine (patient turns).limits =
      ((patient turns).machine, some .exhausted) := by
    rw [runProgram, runStatements]
    simp only [Bind.bind, EStateM.bind]
    rw [show (patient turns).limits.room = _ + 3 from rfl, Stmt.exec_idles idle]
  obtain ⟨_, ⟨_, rfl, least⟩, ran⟩ := (patient turns).run_eq rfl rfl passes
  rw [Session.runTree, ended, least rfl] at ran
  refine ⟨?_, ?_, ?_⟩
  · rw [answerLine, ran]
    rfl
  · rw [answer, answerLine, ran]
    rfl
  · rw [answer, show (patient turns).untold = patient turns from rfl, answerLine, ran]
    rfl

/-- Behind a line whose run does not end no other line is read, and there is no status. -/
theorem endlessLine_last :
    (∀ turns, (answers (patient turns) [endlessLine, "print 1;"]).map Answer.line =
      [endlessLine]) ∧
    ∀ turns, dialogue (patient turns) "" [endlessLine, "print 1;"] = ⟨none, "> ", ""⟩ := by
  refine ⟨fun turns => ?_, fun turns => ?_⟩
  · obtain ⟨waits, -, -⟩ := answer_endlessLine turns
    rw [answers, if_neg (by simp [waits])]
    rfl
  · obtain ⟨waits, printed, quiet⟩ := answer_endlessLine turns
    rw [dialogue_cons, if_neg (by simp [waits]), printed, quiet]
    rfl

end Command

end Lox
