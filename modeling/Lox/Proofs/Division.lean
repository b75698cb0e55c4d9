/-
**Division.** A scan loses nothing of a text, and knows where it is.

* `Divides` says that segments are a division of a text: blanks, comments, tokens, strings without
  an end and characters that begin nothing, which together are the text.
* `tokensAt` and `faultsAt` read the tokens and the faults off a division. The line of each is
  counted from the front of the text (`lineAt`).
* `Segment.Scans.proper`: what a step takes is a segment of a proper form.
* `scan_placed`: the lines that are counted on the way are these.
* `scanText_division`: what a report gets from a text is read off a division of it.
-/

import Lox.Proofs.LongestMatch
import Lox.Proofs.Parsed

namespace Lox

open Pattern

/-! ### Divisions -/

/-- The texts of the tokens of a class. -/
inductive Terminal.IsLexeme : Terminal → List Char → Prop
  | string {text : List Char} (member : text ∈ Pattern.string.language) : IsLexeme .string text
  | number {text : List Char} (member : text ∈ Pattern.number.language) : IsLexeme .number text
  | reserved {kind : Terminal} (reserved : kind.Reserved) : IsLexeme kind kind.spelling
  | name {text : List Char} (member : text ∈ Pattern.word.language)
      (free : ∀ kind : Terminal, kind.Reserved → text ≠ kind.spelling) : IsLexeme .name text
  | mark {kind : Terminal}
      (member : kind.label.toList ∈ mark.language ∨ kind.label.toList ∈ comparison.language) :
      IsLexeme kind kind.label.toList

/-- A segment is what its form says. -/
def Segment.Proper (segment : Segment) : Prop :=
  match segment.form with
  | .ignored => segment.chars ∈ blanks.language ∨ segment.chars ∈ lineComment.language ∨
      segment.chars ∈ closedComment.language ∨ segment.chars ∈ openComment.language
  | .token kind => kind.IsLexeme segment.chars
  | .unterminated => segment.chars ∈ openString.language
  | .stuck => ∃ c, segment.chars = [c]

/-- A division of a text into segments. -/
structure Divides (text : List Char) (division : List Segment) : Prop where
  whole : division.flatMap (·.chars) = text
  nonempty : ∀ segment ∈ division, segment.chars ≠ []
  proper : ∀ segment ∈ division, segment.Proper
  last : ∀ segment ∈ division.dropLast, segment.form ≠ .unterminated

/-- The segments of a division, each with the offset at which it starts. -/
def placed (offset : Nat) : List Segment → List (Segment × Nat)
  | [] => []
  | segment :: more => (segment, offset) :: placed (offset + segment.chars.length) more

/-- The line of an offset: one more than the number of line feeds in front of it. -/
def lineAt (text : List Char) (offset : Nat) : Nat :=
  1 + (text.take offset).count '\n'

/-- The token that a segment is. -/
def Segment.token? (text : List Char) : Segment × Nat → Option Token
  | (segment, offset) =>
    match segment.form with
    | .token kind => some ⟨kind, String.ofList segment.chars, Scan.literal kind segment.chars,
        lineAt text offset, offset⟩
    | _ => none

/-- The fault that a segment is. -/
def Segment.fault? (text : List Char) : Segment × Nat → Option Fault
  | (segment, offset) =>
    match segment.form with
    | .unterminated => some ⟨.unterminated, lineAt text offset, offset⟩
    | .stuck => some ⟨.stuck (segment.chars.headD ' '), lineAt text offset, offset⟩
    | _ => none

/-- The tokens of a division, in order, and the one that closes the text. -/
def tokensAt (text : List Char) (division : List Segment) : List Token :=
  (placed 0 division).filterMap (Segment.token? text) ++
    [Scan.closing (lineAt text text.length) text.length]

/-- The faults of a division, in order. -/
def faultsAt (text : List Char) (division : List Segment) : List Fault :=
  (placed 0 division).filterMap (Segment.fault? text)

/-! ### Steps take proper segments -/

namespace Segment

variable {segment : Segment} {line offset : Nat}

theorem form_of_none (nothing : Scan.ofSegment segment line offset = none) :
    segment.form = .ignored := by
  unfold Scan.ofSegment at nothing
  cases found : segment.form with
  | ignored => rfl
  | token kind => simp [found] at nothing
  | unterminated => simp [found] at nothing
  | stuck => simp [found] at nothing

theorem form_of_token {token : Token}
    (made : Scan.ofSegment segment line offset = some (.token token)) :
    segment.form = .token token.kind := by
  unfold Scan.ofSegment at made
  cases found : segment.form with
  | ignored => simp [found] at made
  | token kind =>
      rw [found] at made
      cases made
      rfl
  | unterminated => simp [found] at made
  | stuck => simp [found] at made

theorem form_of_fault {fault : Fault}
    (made : Scan.ofSegment segment line offset = some (.fault fault)) :
    segment.form = .unterminated ∧ fault.cause = .unterminated ∨
      segment.form = .stuck ∧ fault.cause = .stuck (segment.chars.headD ' ') := by
  unfold Scan.ofSegment at made
  cases found : segment.form with
  | ignored => simp [found] at made
  | token kind => simp [found] at made
  | unterminated =>
      rw [found] at made
      cases made
      exact .inl ⟨rfl, rfl⟩
  | stuck =>
      rw [found] at made
      cases made
      exact .inr ⟨rfl, rfl⟩

/-- What a step takes is a segment of a proper form: the pattern that matched it says of which. -/
theorem Scans.proper {rest : List Char} (scans : Scans line offset rest segment) :
    segment.Proper := by
  cases scans with
  | stuck _ c _ single reported =>
      rcases form_of_fault reported with ⟨_, other⟩ | ⟨form, _⟩
      · cases other
      · rw [Proper, form]
        exact ⟨c, single⟩
  | longest _ treatment earliest gives =>
      obtain ⟨earlier, pattern, later, split, member, _⟩ := earliest
      have listed : (pattern, treatment) ∈ lexicon := by simp [split]
      simp only [lexicon, List.mem_cons, Prod.mk.injEq, List.not_mem_nil, or_false] at listed
      rcases listed with ⟨rfl, rfl⟩ | ⟨rfl, rfl⟩ | ⟨rfl, rfl⟩ | ⟨rfl, rfl⟩ | ⟨rfl, rfl⟩ |
        ⟨rfl, rfl⟩ | ⟨rfl, rfl⟩ | ⟨rfl, rfl⟩ | ⟨rfl, rfl⟩ | ⟨rfl, rfl⟩
      · rw [Proper, form_of_none gives]
        exact .inl member
      · rw [Proper, form_of_none gives]
        exact .inr (.inl member)
      · rw [Proper, form_of_none gives]
        exact .inr (.inr (.inl member))
      · rw [Proper, form_of_none gives]
        exact .inr (.inr (.inr member))
      · rw [Proper, form_of_token gives]
        exact .string member
      · rcases form_of_fault gives with ⟨form, _⟩ | ⟨_, other⟩
        · rw [Proper, form]
          exact member
        · cases other
      · rw [Proper, form_of_token gives]
        exact .number member
      · obtain ⟨kind, made, ⟨reserved, spelled⟩ | ⟨rfl, free⟩⟩ := gives
        · rw [Proper, form_of_token made, spelled]
          exact .reserved reserved
        · rw [Proper, form_of_token made]
          exact .name member free
      · obtain ⟨kind, made, named⟩ := gives
        rw [named] at member
        rw [Proper, form_of_token made, named]
        exact .mark (.inl member)
      · obtain ⟨kind, made, named⟩ := gives
        rw [named] at member
        rw [Proper, form_of_token made, named]
        exact .mark (.inr member)

/-- Nothing follows a string without an end. -/
theorem cut_unterminated {c : Char} {rest : List Char}
    (open_ : (cut c rest).1.form = .unterminated) : (cut c rest).2 = [] := by
  unfold cut at open_ ⊢
  split at open_ <;> rename_i space
  · cases open_
  split at open_ <;> rename_i slash
  · unfold cutSlash at open_
    split at open_ <;> cases open_
  split at open_ <;> rename_i quote
  · rw [if_neg space, if_neg slash, if_pos quote]
    fun_cases cutString rest with
    | case1 => rfl
    | case2 body mark after cutting =>
        rw [cutString, cutting] at open_
        cases open_
  split at open_ <;> rename_i digit
  · cases open_
  split at open_ <;> rename_i letter
  · cases open_
  · unfold cutMark at open_
    split at open_
    · cases open_
    · cases open_
    · split at open_ <;> cases open_

end Segment

/-- **Cutting divides a text.** -/
theorem divides_segments (text : List Char) : Divides text (segments text) := by
  fun_induction segments text with
  | case1 => exact ⟨rfl, by simp, by simp, by simp⟩
  | case2 c rest ih =>
      have scans := Segment.cut_scans c rest 1 0
      refine ⟨?_, ?_, ?_, ?_⟩
      · rw [List.flatMap_cons, ih.whole, Segment.cut_append]
      · exact List.forall_mem_cons.mpr ⟨(Segment.cut_sound c rest).nonempty, ih.nonempty⟩
      · exact List.forall_mem_cons.mpr ⟨scans.proper, ih.proper⟩
      · cases further : segments (Segment.cut c rest).2 with
        | nil => simp
        | cons next more =>
            rw [further] at ih
            rw [List.dropLast_cons_of_ne_nil (List.cons_ne_nil _ _)]
            refine List.forall_mem_cons.mpr ⟨fun open_ => ?_, ih.last⟩
            rw [Segment.cut_unterminated open_, segments] at further
            cases further

/-! ### Places -/

theorem lineAt_append (front back : List Char) :
    lineAt (front ++ back) front.length = 1 + front.count '\n' := by
  rw [lineAt, List.take_left]

/-- A segment contributes the token or the fault that it is. -/
theorem ofSegment_placed {text : List Char} {line offset : Nat} (segment : Segment)
    (counted : lineAt text offset = line) :
    tokensOf (Scan.ofSegment segment line offset).toList =
      (Segment.token? text (segment, offset)).toList ∧
    faultsOf (Scan.ofSegment segment line offset).toList =
      (Segment.fault? text (segment, offset)).toList := by
  subst counted
  obtain ⟨form, chars⟩ := segment
  cases form with
  | ignored | token | unterminated | stuck => exact ⟨rfl, rfl⟩

theorem filterMap_placed_cons {α : Type} (f : Segment × Nat → Option α) (segment : Segment)
    (more : List Segment) (offset : Nat) : (placed offset (segment :: more)).filterMap f =
      (f (segment, offset)).toList ++
        (placed (offset + segment.chars.length) more).filterMap f := by
  rw [placed]
  cases found : f (segment, offset) with
  | none => rw [List.filterMap_cons_none found]; rfl
  | some item => rw [List.filterMap_cons_some found]; rfl

/-- The scan of the segments that follow the front of a text, item by item. The induction is on the
segments: each of them joins the front. -/
theorem ofSegments_placed (front : List Char) (division : List Segment) {text : List Char}
    (whole : text = front ++ division.flatMap (·.chars)) :
    tokensOf (Scan.ofSegments division (1 + front.count '\n') front.length) =
      (placed front.length division).filterMap (Segment.token? text) ++
        [Scan.closing (lineAt text text.length) text.length] ∧
    faultsOf (Scan.ofSegments division (1 + front.count '\n') front.length) =
      (placed front.length division).filterMap (Segment.fault? text) := by
  induction division generalizing front with
  | nil =>
      rw [List.flatMap_nil, List.append_nil] at whole
      subst whole
      have line : lineAt text text.length = 1 + text.count '\n' := by
        rw [lineAt, List.take_length]
      rw [line]
      exact ⟨rfl, rfl⟩
  | cons segment more ih =>
      have line : lineAt text front.length = 1 + front.count '\n' := by
        rw [whole, lineAt_append]
      have joined : text = (front ++ segment.chars) ++ more.flatMap (·.chars) := by
        rw [whole, List.flatMap_cons, List.append_assoc]
      obtain ⟨token, fault⟩ := ofSegment_placed segment line
      obtain ⟨tokens, faults⟩ := ih (front ++ segment.chars) joined
      rw [List.count_append, ← Nat.add_assoc, List.length_append] at tokens faults
      rw [Scan.ofSegments_cons, tokensOf, faultsOf, List.filterMap_append, List.filterMap_append,
        filterMap_placed_cons, filterMap_placed_cons, List.append_assoc, ← token, ← fault]
      exact ⟨congrArg _ tokens, congrArg _ faults⟩

/-- The tokens and the faults of a scan are those of the division. -/
theorem scan_placed (text : String) :
    tokensOf (scan text) = tokensAt text.toList (segments text.toList) ∧
    faultsOf (scan text) = faultsAt text.toList (segments text.toList) :=
  ofSegments_placed [] (segments text.toList) (divides_segments text.toList).whole.symm

/-! ### Reports -/

namespace Report

/-- The issue of a fault of a text. -/
def issueOf (text : String) (fault : Fault) : Issue :=
  .ofCharacter (some text) fault.line fault.offset fault.message

/-- The issues of a scan. Only a text that is not empty has any, so that each of them has it for its
source. -/
theorem issues_scan (report : Report) (text : String) :
    (faultsOf (scan text)).map (fun fault =>
      Issue.ofComplaint (report.setSource text).source (.lexical fault)) =
      (faultsAt text.toList (segments text.toList)).map (issueOf text) := by
  rw [(scan_placed text).2]
  by_cases empty : text = ""
  · subst empty
    rw [String.toList_empty, segments]
    rfl
  · rw [report.source_setSource empty]
    rfl

/-- A scan files the issues of the division; the tokens are there unless the report gets full. -/
theorem scanText_filed (report : Report) (text : String) :
    report.scanText text =
      (((report.setSource text).fileAll
        ((faultsAt text.toList (segments text.toList)).map (issueOf text))).1,
      if ((report.setSource text).fileAll
        ((faultsAt text.toList (segments text.toList)).map (issueOf text))).2
      then none else some (tokensAt text.toList (segments text.toList))) := by
  rw [scanText_conclude, issues_scan, (scan_placed text).1]
  rfl

/-- **A scan loses nothing and knows where it is.** The tokens and issues that a report gets from a
text are those of a division of the text; all of them, unless the report gets full. -/
theorem scanText_division (report : Report) (text : String) :
    ∃ division, Divides text.toList division ∧
      ((∀ count : Nat, 0 < count → count ≤ (faultsAt text.toList division).length →
          report.issues.size + count ≠ report.cap) →
        (report.scanText text).2 = some (tokensAt text.toList division) ∧
        (report.scanText text).1.issues.toList = report.issues.toList ++
          (faultsAt text.toList division).map (issueOf text)) ∧
      ∀ count : Nat, 0 < count → count ≤ (faultsAt text.toList division).length →
        report.issues.size + count = report.cap →
        (report.scanText text).2 = none ∧
        (report.scanText text).1.issues.toList = report.issues.toList ++
          ((faultsAt text.toList division).take count).map (issueOf text) := by
  refine ⟨segments text.toList, divides_segments text.toList, ?_⟩
  have filing := (report.setSource text).fileAll_cases
    ((faultsAt text.toList (segments text.toList)).map (issueOf text))
  rw [List.length_map] at filing
  rw [scanText_filed]
  rcases filing with ⟨count, positive, bound, reached, full, filed⟩ | ⟨never, open_, filed⟩
  · rw [full, filed]
    constructor
    · intro never
      exact absurd reached (never count positive bound)
    · intro other _ _ otherReached
      have same : other = count := by
        have reached : (report.issues.size : Int) + count = report.cap := reached
        omega
      rw [same, List.map_take]
      exact ⟨rfl, rfl⟩
  · rw [open_, filed]
    constructor
    · intro _
      exact ⟨rfl, rfl⟩
    · intro count positive bound reached
      exact absurd reached (never count positive bound)

/-- A scan of a text that is all there: the tokens and the issues of a division of the text. -/
def ScansWhole (report : Report) (text : String) : Prop :=
  ∃ division, Divides text.toList division ∧
    (report.scanText text).2 = some (tokensAt text.toList division) ∧
    (report.scanText text).1.issues.toList = report.issues.toList ++
      (faultsAt text.toList division).map (issueOf text)

/-- A text of more characters that begin nothing than a report takes. -/
def strange : String :=
  String.ofList (List.replicate 51 '@')

/-- A report that gets full does not get the tokens of the text, nor the issues to come. -/
theorem strange_unheard : ¬ ({} : Report).ScansWhole strange := by
  rintro ⟨division, _, tokens, _⟩
  have none : (({} : Report).scanText strange).2 = none := by decide +kernel
  rw [none] at tokens
  cases tokens

end Report

end Lox
