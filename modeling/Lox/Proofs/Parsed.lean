/-
**Parsed texts.** What every text is read into, and what it means that there are no complaints.

* `parse_read`: every text is read into trees that are well-formed and ordered, errors or not.
* `Derivation.Explains`: a derivation of the tokens of a text, by rules of the grammar proper, whose
  value is a tree within the limits.
* `parseText_derivation`: a text without complaints has a derivation, and its tree is the value of
  the derivation.
-/

import Lox.Proofs.Phrases
import Lox.Proofs.Raising

namespace Lox

/-! ### Texts -/

theorem exists_bound (tokens : List Token) : ∃ high, ∀ token ∈ tokens, token.Within 0 high := by
  induction tokens with
  | nil => exact ⟨0, List.forall_mem_nil _⟩
  | cons first more ih =>
      obtain ⟨high, within⟩ := ih
      refine ⟨max high (first.offset + 1), List.forall_mem_cons.mpr ⟨⟨Nat.zero_le _, ?_⟩, ?_⟩⟩
      · exact Nat.le_max_right _ _
      · exact fun token member => (within token member).mono (Nat.le_refl 0) (Nat.le_max_left _ _)

/-- The tokens of a text fill a stretch, and so do those that are left when some are dropped. -/
theorem scan_fills (text : String) {tokens : List Token}
    (part : tokens.Sublist (tokensOf (scan text))) : ∃ high, Fills 0 high tokens := by
  obtain ⟨high, within⟩ := exists_bound tokens
  refine ⟨high, Nat.zero_le _, within, (scan_increasing text).sublist part, ?_⟩
  exact fun token member => scan_spelled text token (part.subset member)

theorem feed_inside (text : String) : ∀ next ∈ feed text, next.token.kind ≠ .gap := by
  intro next member
  refine (scan_spelled text next.token ?_).noGap
  rw [← feed_tokens]
  exact List.mem_map_of_mem member

theorem parse_tree (text : String) :
    (parse text).tree = Option.getD (readProgram trees (feed text)).1 [] :=
  rfl

/-- **Every text is read into well-formed and ordered trees**, errors or not. -/
theorem parse_read (text : String) : ∃ high, BodyRead False 0 high (parse text).tree := by
  rw [parse_tree]
  cases found : (readProgram trees (feed text)).1 with
  | none => exact ⟨0, BodyRead.nil⟩
  | some program =>
      obtain ⟨derivation, same, accounted, part⟩ :=
        readProgram_sound (feed text) (feed_inside text) found
      rw [feed_tokens] at part
      obtain ⟨high, filled⟩ := scan_fills text part
      rw [← same]
      exact ⟨high, derivation.read accounted filled⟩

theorem asRead_formed (clean : Prop) : (asRead clean).Imply Formed :=
  ⟨fun _ _ => trivial, fun _ asked => asked.1, fun _ asked => asked.1⟩

theorem asRead_ordered (clean : Prop) : (asRead clean).Imply Ordered :=
  ⟨fun _ _ => trivial, fun _ asked => asked.2, fun _ asked => asked.2.1⟩

theorem asRead_limited : (asRead True).Imply Limited :=
  ⟨fun _ asked => asked trivial, fun _ asked => asked.1.branches, fun _ asked => asked.2.2 trivial⟩

theorem parse_formed (text : String) : eachIn Formed (parse text).tree := by
  obtain ⟨_, read⟩ := parse_read text
  exact eachIn.mono (asRead_formed False) _ read.eachIn

theorem parse_ordered (text : String) : eachIn Ordered (parse text).tree := by
  obtain ⟨_, read⟩ := parse_read text
  exact eachIn.mono (asRead_ordered False) _ read.eachIn

theorem parse_suits (text : String) :
    ∀ used ∈ treeReferences (parse text).tree, used.1.Suits used.2.token.lexeme := by
  obtain ⟨_, read⟩ := parse_read text
  exact fun used member => (read.used used member).1

/-! ### Texts without complaints -/

namespace Report

/-- Filing issues, if there are any, adds the first one at least. -/
theorem size_le_fileAll (report : Report) (issues : List Issue) :
    report.issues.size + (issues.take 1).length ≤ (report.fileAll issues).1.issues.size := by
  induction issues generalizing report with
  | nil => exact Nat.le_refl _
  | cons issue more ih =>
      have one : (report.file issue).issues.size = report.issues.size + 1 := Array.size_push issue
      rw [fileAll]
      split
      · exact Nat.le_of_eq one.symm
      · exact Nat.le_trans (Nat.le_of_eq one.symm) (Nat.le_trans (Nat.le_add_right _ _) (ih _))

/-- Issues are filed one after the other, all of them unless with one of them the report gets
full. -/
theorem fileAll_cases (report : Report) (issues : List Issue) :
    (∃ count, 0 < count ∧ count ≤ issues.length ∧ report.issues.size + count = report.cap ∧
      (report.fileAll issues).2 = true ∧
      (report.fileAll issues).1.issues.toList = report.issues.toList ++ issues.take count) ∨
    ((∀ count : Nat, 0 < count → count ≤ issues.length →
        report.issues.size + count ≠ report.cap) ∧
      (report.fileAll issues).2 = false ∧
      (report.fileAll issues).1.issues.toList = report.issues.toList ++ issues) := by
  induction issues generalizing report with
  | nil =>
      refine .inr ⟨fun count positive bound => ?_, rfl, (List.append_nil _).symm⟩
      exact absurd (Nat.lt_of_lt_of_le positive bound) (Nat.lt_irrefl _)
  | cons issue more ih =>
      have filed : (report.file issue).issues.toList = report.issues.toList ++ [issue] :=
        Array.toList_push
      have size : (report.file issue).issues.size = report.issues.size + 1 := Array.size_push issue
      have fills : (report.file issue).full = true ↔
          report.issues.size + (1 : Nat) = report.cap := by
        rw [full, size, show (report.file issue).cap = report.cap from rfl, beq_iff_eq]
        rfl
      have further : ∀ count : Nat, (report.file issue).issues.size + count = report.cap ↔
          report.issues.size + (count + 1 : Nat) = report.cap := by
        intro count
        rw [size]
        omega
      rw [fileAll]
      by_cases full : (report.file issue).full = true
      · rw [if_pos full]
        exact .inl ⟨1, Nat.one_pos, Nat.le_add_left 1 _, fills.mp full, rfl, filed⟩
      · rw [if_neg full]
        rcases ih (report.file issue) with ⟨count, _, bound, reached, same⟩ | ⟨never, same⟩
        · refine .inl ⟨count + 1, Nat.succ_pos _, Nat.succ_le_succ bound,
            (further count).mp reached, same.1, ?_⟩
          rw [same.2, filed, List.append_assoc, List.take_succ_cons]
          rfl
        · refine .inr ⟨?_, same.1, by rw [same.2, filed, List.append_assoc]; rfl⟩
          intro count positive bound
          obtain ⟨count, rfl⟩ := Nat.exists_eq_succ_of_ne_zero (Nat.ne_of_gt positive)
          cases count with
          | zero => exact fun reached => full (fills.mpr reached)
          | succ count =>
              have apart := never (count + 1) (Nat.succ_pos _) (Nat.le_of_succ_le_succ bound)
              exact fun reached => apart ((further _).mpr reached)

/-- A report without issues had none filed. -/
theorem fileAll_ok {report next : Report} {issues : List Issue} {full : Bool}
    (filed : report.fileAll issues = (next, full)) (well : ¬ next.sick = true) : issues = [] := by
  have grown := size_le_fileAll report issues
  have none : next.issues.size = 0 := by simpa [sick, ok] using well
  cases issues with
  | nil => rfl
  | cons issue more =>
      rw [filed, none] at grown
      exact absurd grown (Nat.not_succ_le_zero _)

/-- What a parse leaves in the report. -/
theorem parseText_report (report : Report) (text : String) :
    (report.parseText text).1 = ((report.setSource text).fileAll
      ((parse text).complaints.map (Issue.ofComplaint (report.setSource text).source))).1 := by
  rw [parseText_conclude]
  rfl

theorem resolveTree_report (report : Report) (tree : List (Stmt Unit)) (room : Nat) :
    (report.resolveTree tree room).1 = (report.fileAll
      ((resolve tree room).complaints.map (Issue.ofViolation report.source))).1 := by
  rw [resolveTree_eq]

theorem source_setSource (report : Report) {text : String} (nonempty : text ≠ "") :
    (report.setSource text).source = some text := by
  simp [setSource, String.isEmpty_iff, nonempty]

/-- A parse that leaves the issues of the report as they are met nothing to complain about. -/
theorem parseText_quiet {report : Report} {text : String}
    (quiet : (report.parseText text).1.issues = report.issues) :
    (parse text).complaints = [] ∧ (report.parseText text).2 = some (parse text).tree := by
  have none : (parse text).complaints = [] := by
    have grown := size_le_fileAll (report.setSource text)
      ((parse text).complaints.map (Issue.ofComplaint (report.setSource text).source))
    rw [← parseText_report, quiet] at grown
    cases found : (parse text).complaints with
    | nil => rfl
    | cons complaint more =>
        rw [found] at grown
        exact absurd grown (Nat.not_succ_le_self report.issues.size)
  refine ⟨none, ?_⟩
  rw [parseText_conclude, conclude, none]
  rfl

/-- A report without issues after a parse: there is nothing to complain about. -/
theorem parseText_sound {report next : Report} {text : String} {tree : List (Stmt Unit)}
    (parsed : report.parseText text = (next, some tree)) (well : ¬ next.sick = true) :
    (parse text).complaints = [] ∧ tree = (parse text).tree := by
  rw [parseText_conclude] at parsed
  have found := conclude_found (congrArg Prod.snd parsed)
  obtain ⟨rfl, _⟩ := Prod.mk.inj parsed
  exact ⟨List.map_eq_nil_iff.mp (fileAll_ok rfl well), found⟩

end Report

/-- A rule of the grammar proper. If it makes an assignment, what is assigned to is a variable or a
property. -/
def Rule.Proper : (rule : Rule) → Values Symbol.Tree rule.rhs → Prop
  | .skipped, _ => False
  | .binary .assign, (left, _) => Tree.isTarget left = true
  | _, _ => True

theorem Rule.Proper.of_quiet (rule : Rule) (values : Values Symbol.Tree rule.rhs)
    (unskipped : rule ≠ .skipped) (quiet : Tree.objections rule values = []) :
    rule.Proper values := by
  cases rule with
  | skipped => exact absurd rfl unskipped
  | binary op =>
      cases op with
      | assign =>
          obtain ⟨left, token, _⟩ := values
          have objected : (if Tree.isTarget left then [] else [(token, Objection.invalidTarget)]) =
            [] := quiet
          by_cases target : Tree.isTarget left = true
          · exact target
          · rw [if_neg target] at objected
            exact absurd objected nofun
      | _ => trivial
  | _ => trivial

/-- The rule for stretches that were given up needs a gap. -/
theorem Derivations.Accounted.unskipped {rule : Rule} {parts : Derivations rule.rhs}
    (accounted : parts.Accounted trees True) : rule ≠ .skipped := by
  rintro rfl
  match parts, accounted with
  | .cons (.leaf _ _) _, accounted => exact accounted.1.2 trivial rfl

mutual

/-- A derivation to which nothing is objected uses the grammar proper. -/
theorem Derivation.Accounted.proper : {symbol : Symbol} → (derivation : Derivation symbol) →
    derivation.Accounted trees True →
    derivation.Each trees (fun kind token => token.kind = kind ∧ kind ≠ .gap) Rule.Proper
  | _, .leaf _ _, accounted => ⟨accounted.1.resolve_left (accounted.2 trivial), accounted.2 trivial⟩
  | _, .node rule parts, accounted =>
    ⟨.of_quiet rule _ (Derivations.Accounted.unskipped accounted.2) (accounted.1 trivial),
      Derivations.Accounted.proper parts accounted.2⟩

theorem Derivations.Accounted.proper : {shape : List Symbol} → (parts : Derivations shape) →
    parts.Accounted trees True →
    parts.Each trees (fun kind token => token.kind = kind ∧ kind ≠ .gap) Rule.Proper
  | _, .nil, _ => trivial
  | _, .cons first rest, accounted =>
    ⟨Derivation.Accounted.proper first accounted.1, Derivations.Accounted.proper rest accounted.2⟩

end

/-- A derivation explains how a text is read into a tree: its leaves are the tokens of the text, all
of them and in their order up to the one that closes the text, its nodes are rules of the grammar
proper, its value is the tree, and the tree keeps within the limits. -/
structure Derivation.Explains (derivation : Derivation (.nonterminal .program)) (text : String)
    (tree : List (Stmt Unit)) : Prop where
  tokens : ∃ closing, closing.kind = .eof ∧ tokensOf (scan text) = derivation.yield ++ [closing]
  proper : derivation.Each trees (fun kind token => token.kind = kind ∧ kind ≠ .gap) Rule.Proper
  value : derivation.value trees = tree
  limits : eachIn Limited tree

/-- **A text without complaints has a derivation**, and is read into the value of that. -/
theorem parseText_derivation {report : Report} {text : String}
    (quiet : (report.parseText text).1.issues = report.issues) :
    ∃ (tree : List (Stmt Unit)) (derivation : Derivation (.nonterminal .program)),
      (report.parseText text).2 = some tree ∧ derivation.Explains text tree := by
  obtain ⟨clean, same⟩ := Report.parseText_quiet quiet
  have closed := scan_closed text
  rw [← feed_tokens] at closed
  obtain ⟨derivation, closing, found, accounted, ending, whole⟩ :=
    readProgram_clean (feed text) (feed_inside text) closed clean
  rw [feed_tokens] at whole
  obtain ⟨high, filled⟩ :=
    scan_fills text (whole ▸ List.sublist_append_left derivation.yield [closing])
  have read : BodyRead True 0 high (derivation.value trees) := derivation.read accounted filled
  refine ⟨derivation.value trees, derivation, ?_, ⟨closing, ending, whole⟩,
    Derivation.Accounted.proper derivation accounted, rfl,
    eachIn.mono asRead_limited _ read.eachIn⟩
  rw [same, parse_tree, found]
  rfl

theorem parseText_derivation_loop :
    (({} : Report).parseText "for (var i = 0; i < 2; i = i + 1) f(i).x = i;").1.issues = #[] ∧
    ∃ (tree : List (Stmt Unit)) (derivation : Derivation (.nonterminal .program)),
      (({} : Report).parseText "for (var i = 0; i < 2; i = i + 1) f(i).x = i;").2 = some tree ∧
      derivation.Explains "for (var i = 0; i < 2; i = i + 1) f(i).x = i;" tree := by
  have quiet :
      (({} : Report).parseText "for (var i = 0; i < 2; i = i + 1) f(i).x = i;").1.issues = #[] := by
    decide +kernel
  exact ⟨quiet, parseText_derivation quiet⟩

end Lox
