/-
**Filing issues.** The cap of a report cuts off the issues of a pass, and changes nothing else.

* `Report.conclude` is what every pass amounts to: its issues are filed, and what it has found is
  there unless the report gets full with one of them.
* `CutsOff`: whatever the cap, a pass finds the same and files the same issues while they are fewer
  than the cap; otherwise it finds nothing, and has filed as many as the cap says, from the first
  one on. A cap that is not positive cuts nothing off.
* `passes_cutOff`: this is so for scanning, for parsing, and for checking a text, which is parsing
  and then resolving what was read.
-/

import Lox.Proofs.Parsed

namespace Lox

namespace Report

variable {α : Type}

/-! ### Passes -/

/-- A text without faults is scanned without an issue. -/
theorem scanText_faultless (report : Report) {text : String} (quiet : faultsOf (scan text) = []) :
    report.scanText text = (report.setSource text, some (tokensOf (scan text))) := by
  rw [scanText_conclude, conclude, quiet]
  rfl

/-- A report does not get full as long as no issue is the one that the cap asks for. -/
theorem fileAll_open (report : Report) (issues : List Issue) :
    (report.fileAll issues).2 = false ↔
      ∀ count : Nat, 0 < count → count ≤ issues.length →
        report.issues.size + count ≠ report.cap := by
  rcases report.fileAll_cases issues with ⟨count, positive, bound, reached, full, _⟩ |
    ⟨never, open_, _⟩
  · rw [full]
    exact ⟨Bool.noConfusion, fun never => absurd reached (never count positive bound)⟩
  · exact ⟨fun _ => never, fun _ => open_⟩

/-- What an open report holds in the end. -/
theorem fileAll_whole {report : Report} {issues : List Issue}
    (open_ : (report.fileAll issues).2 = false) :
    (report.fileAll issues).1.issues.toList = report.issues.toList ++ issues := by
  rcases report.fileAll_cases issues with ⟨_, _, _, _, full, _⟩ | ⟨_, _, whole⟩
  · rw [full] at open_
    exact Bool.noConfusion open_
  · exact whole

/-! ### Checking -/

/-- What comes of checking a text, if the report does not get full. -/
inductive Checked where
  /-- There are issues about how the text is written; the tree is what could be read. -/
  | faulty (tree : List (Stmt Unit))
  /-- The tree is nested too deeply. -/
  | tooDeep
  | done (tree : List (Stmt Hops))

/-- Parses a text and, if that leaves no issue, resolves the tree, with some room for nesting. -/
def checkText (report : Report) (text : String) (room : Nat) : Report × Option Checked :=
  match report.parseText text with
  | (report, none) => (report, none)
  | (report, some tree) =>
    if report.sick then (report, some (.faulty tree))
    else
      match report.resolveTree tree room with
      | (report, .full) => (report, none)
      | (report, .tooDeep) => (report, some .tooDeep)
      | (report, .done tree) => (report, some (.done tree))

/-- The issues that checking a text comes upon. -/
def checkIssues (source : Option String) (text : String) (room : Nat) : List Issue :=
  if (parse text).complaints = [] then
    (resolve (parse text).tree room).complaints.map (Issue.ofViolation source)
  else (parse text).complaints.map (Issue.ofComplaint source)

/-- What checking a text finds. -/
def checkFound (text : String) (room : Nat) : Checked :=
  if (parse text).complaints = [] then
    match (resolve (parse text).tree room).value with
    | none => .tooDeep
    | some tree => .done tree
  else .faulty (parse text).tree

/-- On a report without issues, checking concludes like other passes do: parsing either ends it, or
has left the report as it was. -/
theorem checkText_conclude {report : Report} (empty : report.issues = #[]) (text : String)
    (room : Nat) :
    report.checkText text room = (report.setSource text).conclude
      (checkIssues (report.setSource text).source text room) (checkFound text room) := by
  have none : (report.setSource text).issues = #[] := empty
  unfold checkText checkIssues checkFound
  rw [parseText_conclude]
  by_cases quiet : (parse text).complaints = []
  · have well : (report.setSource text).sick = false := by rw [sick, ok, none]; rfl
    simp only [conclude, quiet, List.map_nil, fileAll, well, resolveTree_eq, Bool.false_eq_true,
      if_false, if_true]
    rcases (report.setSource text).fileAll _ with ⟨next, full⟩
    cases full with
    | true => rfl
    | false => cases (resolve (parse text).tree room).value <;> rfl
  · rw [if_neg quiet, if_neg quiet]
    simp only [conclude]
    cases filed : (report.setSource text).fileAll
      ((parse text).complaints.map (Issue.ofComplaint (report.setSource text).source)) with
    | mk next full =>
        cases full with
        | true => rfl
        | false =>
            by_cases sick : next.sick = true
            · simp only [Bool.false_eq_true, if_false, sick, if_true]
            · exact absurd (List.map_eq_nil_iff.mp (fileAll_ok filed sick)) quiet

/-! ### The cap -/

/-- The report with another cap, before there are any issues. -/
def fresh (report : Report) (cap : Int) : Report :=
  { report with issues := #[], cap }

/-- The cap does nothing to a pass but to cut its issues off: the pass is compared to itself on a
report without a cap. -/
def CutsOff (pass : Report → Report × Option α) : Prop :=
  ∀ (report : Report) (cap : Int),
    let free := pass (report.fresh 0)
    let capped := pass (report.fresh cap)
    (cap ≤ 0 → capped.2.isSome ∧ capped.2 = free.2 ∧ capped.1.issues = free.1.issues) ∧
    (1 ≤ cap → free.1.issues.size < cap →
      capped.2.isSome ∧ capped.2 = free.2 ∧ capped.1.issues = free.1.issues) ∧
    (1 ≤ cap → cap ≤ free.1.issues.size →
      capped.2 = none ∧ capped.1.issues.toList = free.1.issues.toList.take cap.toNat)

/-- A report that begins without issues gets full exactly if there are as many as the cap says. -/
theorem fresh_open (report : Report) (cap : Int) (issues : List Issue) :
    ((report.fresh cap).fileAll issues).2 = false ↔ cap ≤ 0 ∨ issues.length < cap := by
  rw [fileAll_open]
  show (∀ count : Nat, 0 < count → count ≤ issues.length → ((0 : Nat) : Int) + count ≠ cap) ↔ _
  constructor
  · intro never
    by_cases outside : cap ≤ 0 ∨ issues.length < cap
    · exact outside
    · have apart := never cap.toNat (by omega) (by omega)
      omega
  · intro outside count positive bound
    omega

theorem fresh_conclude (report : Report) {cap : Int} (issues : List Issue)
    (outside : cap ≤ 0 ∨ issues.length < cap) (found : α) :
    ((report.fresh cap).conclude issues found).2 = some found ∧
    ((report.fresh cap).conclude issues found).1.issues.toList = issues := by
  have open_ := (fresh_open report cap issues).mpr outside
  constructor
  · rw [conclude, open_]
    rfl
  · exact fileAll_whole open_

theorem fresh_conclude_full (report : Report) {cap : Int} {issues : List Issue}
    (positive : 1 ≤ cap) (within : cap ≤ issues.length) (found : α) :
    ((report.fresh cap).conclude issues found).2 = none ∧
    ((report.fresh cap).conclude issues found).1.issues.toList = issues.take cap.toNat := by
  rcases (report.fresh cap).fileAll_cases issues with ⟨count, _, _, reached, full, filed⟩ |
    ⟨_, open_, _⟩
  · have same : cap.toNat = count := by
      have reached : ((0 : Nat) : Int) + count = cap := reached
      omega
    refine ⟨by rw [conclude, full]; rfl, ?_⟩
    rw [same]
    exact filed
  · have outside := (fresh_open report cap issues).mp open_
    omega

/-- A pass is cut off if what it comes upon and what it finds do not depend on the cap. -/
theorem CutsOff.of_conclude {pass : Report → Report × Option α} (text : String)
    (issues : Option String → List Issue) (found : α)
    (same : ∀ report : Report, report.issues = #[] →
      pass report =
        (report.setSource text).conclude (issues (report.setSource text).source) found) :
    CutsOff pass := by
  intro report cap
  have each : ∀ cap, pass (report.fresh cap) = ((report.setSource text).fresh cap).conclude
      (issues (report.setSource text).source) found := fun cap => same (report.fresh cap) rfl
  simp only [each]
  obtain ⟨freeFound, freeFiled⟩ := fresh_conclude (report.setSource text)
    (issues (report.setSource text).source) (.inl (Int.le_refl 0)) found
  have whole : cap ≤ 0 ∨ (issues (report.setSource text).source).length < cap →
      (((report.setSource text).fresh cap).conclude
        (issues (report.setSource text).source) found).2 = some found ∧
      (((report.setSource text).fresh cap).conclude
        (issues (report.setSource text).source) found).1.issues =
      (((report.setSource text).fresh 0).conclude
        (issues (report.setSource text).source) found).1.issues := by
    intro outside
    obtain ⟨cappedFound, cappedFiled⟩ := fresh_conclude (report.setSource text) _ outside found
    exact ⟨cappedFound, Array.toList_inj.mp (cappedFiled.trans freeFiled.symm)⟩
  rw [← Array.length_toList, freeFiled, freeFound]
  refine ⟨fun never => ?_, fun _ few => ?_, fun positive many => ?_⟩
  · obtain ⟨cappedFound, filed⟩ := whole (.inl never)
    exact ⟨by rw [cappedFound]; rfl, cappedFound, filed⟩
  · obtain ⟨cappedFound, filed⟩ := whole (.inr few)
    exact ⟨by rw [cappedFound]; rfl, cappedFound, filed⟩
  · exact fresh_conclude_full (report.setSource text) positive many found

/-- **The cap only cuts off**, whichever pass it is and whatever the text. -/
theorem passes_cutOff (text : String) (room : Nat) :
    CutsOff (fun report => report.scanText text) ∧
    CutsOff (fun report => report.parseText text) ∧
    CutsOff (fun report => report.checkText text room) := by
  refine ⟨?_, ?_, ?_⟩
  · exact .of_conclude text
      (fun source => (faultsOf (scan text)).map fun fault => .ofComplaint source (.lexical fault)) _
      fun report _ => scanText_conclude report text
  · exact .of_conclude text (fun source => (parse text).complaints.map (.ofComplaint source)) _
      fun report _ => parseText_conclude report text
  · exact .of_conclude text (fun source => checkIssues source text room) _
      fun report empty => checkText_conclude empty text room

end Report

end Lox
