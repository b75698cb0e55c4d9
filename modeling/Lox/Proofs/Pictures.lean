/-
**Headlines and pictures.** What is said about an issue in words and in a picture is the same place.

Two counts of lines meet in what is said: tokens count line feeds (`lineAt`), pictures count rows,
which end at a carriage return too.

* `Spot.Of`: when a place in rows of characters is that of an offset. `locate_of`: it is the one
  that `locate` finds.
* `lineAt_add_loneReturns`: the two counts differ by the carriage returns without a line feed.
* `Depicts`: what the two lines of a picture show. `picture_depicts`: those that are drawn do.
* `issues_agree`: so it is for all issues that scanning, parsing and resolving report.
-/

import Lox.Proofs.Apart
import Lox.Proofs.Culprits
import Lox.Proofs.SyntaxErrors

namespace Lox

namespace Text

/-! ### Rows -/

theorem extendFirst_ne_nil (c : Char) (lines : List (List Char)) : extendFirst c lines ≠ [] := by
  cases lines <;> exact List.cons_ne_nil _ _

theorem flatten_extendFirst (c : Char) (lines : List (List Char)) :
    (extendFirst c lines).flatten = c :: lines.flatten := by
  cases lines <;> rfl

theorem rows_ne_nil (text : List Char) : rows text ≠ [] := by
  fun_cases rows text with
  | case1 | case2 | case3 => exact List.cons_ne_nil _ _
  | case4 => exact extendFirst_ne_nil _ _

/-- The rows of a text are the text. -/
theorem flatten_rows (text : List Char) : (rows text).flatten = text := by
  fun_induction rows text with
  | case1 => rfl
  | case2 rest ih => rw [List.flatten_cons, ih]; rfl
  | case3 c rest _ _ ih => rw [List.flatten_cons, ih]; rfl
  | case4 c rest _ _ ih => rw [flatten_extendFirst, ih]

/-! ### Places -/

/-- A spot is the place of an offset in lines: it is in one of them, as far into it as the offset is
behind the lines in front of it, and what stands there is what stands at the offset. -/
structure Spot.Of (lines : List (List Char)) (offset : Nat) (spot : Spot) : Prop where
  row : lines[spot.row]? = some spot.line
  start : (lines.take spot.row).flatten.length + spot.column = offset
  inside : spot.column ≤ spot.line.length
  here : spot.line[spot.column]? = lines.flatten[offset]?

theorem locate_cons {more : List (List Char)} (some : more ≠ []) (line : List Char) (offset : Nat) :
    locate (line :: more) offset =
      if offset < line.length then ⟨0, offset, line⟩
      else ⟨(locate more (offset - line.length)).row + 1,
        (locate more (offset - line.length)).column,
        (locate more (offset - line.length)).line⟩ := by
  cases more with
  | nil => exact absurd rfl some
  | cons next more => rfl

/-- **Offsets are located**, in lines that are long enough. -/
theorem locate_of {lines : List (List Char)} (some : lines ≠ []) {offset : Nat}
    (inside : offset ≤ lines.flatten.length) : (locate lines offset).Of lines offset := by
  induction lines generalizing offset with
  | nil => exact absurd rfl some
  | cons line more ih =>
      rw [List.flatten_cons, List.length_append] at inside
      by_cases last : more = []
      · subst last
        exact ⟨rfl, Nat.zero_add _, inside, by simp [locate]⟩
      rw [locate_cons last]
      split
      · rename_i short
        refine ⟨rfl, Nat.zero_add _, Nat.le_of_lt short, ?_⟩
        rw [List.flatten_cons, List.getElem?_append_left short]
      · rename_i long
        have shorter : offset - line.length ≤ more.flatten.length := by omega
        have behind := ih last shorter
        refine ⟨behind.row, ?_, behind.inside, ?_⟩
        · rw [List.take_succ_cons, List.flatten_cons, List.length_append, Nat.add_assoc,
            behind.start]
          omega
        · rw [List.flatten_cons, List.getElem?_append_right (by omega)]
          exact behind.here

/-! ### Lines -/

/-- The number of carriage returns in front of an offset that no line feed follows. -/
def loneReturns (text : List Char) (offset : Nat) : Nat :=
  (List.range offset).countP fun index =>
    text[index]? = some '\r' ∧ text[index + 1]? ≠ some '\n'

theorem loneReturns_nil (offset : Nat) : loneReturns [] offset = 0 :=
  List.countP_eq_zero.mpr fun index _ => by simp

/-- A character adds to one of the counts if it ends a row by itself. -/
theorem lineAt_add_loneReturns_cons (c : Char) (rest : List Char) (offset : Nat) :
    lineAt (c :: rest) (offset + 1) + loneReturns (c :: rest) (offset + 1) =
      lineAt rest offset + loneReturns rest offset +
        if c = '\n' ∨ c = '\r' ∧ rest.head? ≠ some '\n' then 1 else 0 := by
  have feeds : lineAt (c :: rest) (offset + 1) =
      lineAt rest offset + if c = '\n' then 1 else 0 := by
    rw [lineAt, List.take_succ_cons, List.count_cons, lineAt, Nat.add_assoc]
    simp
  have returns : loneReturns (c :: rest) (offset + 1) = loneReturns rest offset +
      if c = '\r' ∧ rest.head? ≠ some '\n' then 1 else 0 := by
    rw [loneReturns, List.range_succ_eq_map, List.countP_cons, List.countP_map, loneReturns,
      List.head?_eq_getElem?]
    simp
    rfl
  have apart : ('\n' : Char) ≠ '\r' := by decide
  rw [feeds, returns]
  by_cases feed : c = '\n'
  · subst feed
    simp [apart]
    omega
  · simp [feed]
    omega

/-- A character in front of the first line moves all offsets on, and no line. -/
theorem row_extendFirst {lines : List (List Char)} (some : lines ≠ []) (c : Char) (offset : Nat) :
    (locate (extendFirst c lines) 0).row = 0 ∧
      (locate (extendFirst c lines) (offset + 1)).row = (locate lines offset).row := by
  obtain ⟨line, more, rfl⟩ := List.exists_cons_of_ne_nil some
  rw [extendFirst]
  by_cases last : more = []
  · subst last
    exact ⟨rfl, rfl⟩
  · rw [locate_cons last, locate_cons last, locate_cons last, List.length_cons,
      Nat.add_sub_add_right]
    refine ⟨by simp, ?_⟩
    by_cases short : offset < line.length
    · rw [if_pos short, if_pos (Nat.succ_lt_succ short)]
    · rw [if_neg short, if_neg (mt Nat.lt_of_succ_lt_succ short)]

/-- **Rows and lines differ by the carriage returns that stand alone.** The induction is along the
rows. -/
theorem lineAt_add_loneReturns (text : List Char) (offset : Nat) :
    lineAt text offset + loneReturns text offset = (locate (rows text) offset).row + 1 := by
  have front : ∀ text, lineAt text 0 + loneReturns text 0 = 1 := fun _ => rfl
  fun_induction rows text generalizing offset with
  | case1 => rw [lineAt, List.take_nil, loneReturns_nil, locate]; rfl
  | case2 rest ih =>
      rw [locate_cons (rows_ne_nil rest)]
      rcases offset with _ | _ | offset
      · rfl
      · rw [lineAt_add_loneReturns_cons, front]
        rfl
      · rw [lineAt_add_loneReturns_cons, lineAt_add_loneReturns_cons, ih, if_pos (.inl rfl),
          if_neg (by simp)]
        rfl
  | case3 c rest alone ends ih =>
      rw [locate_cons (rows_ne_nil rest)]
      cases offset with
      | zero => rfl
      | succ offset =>
          have counts : c = '\n' ∨ c = '\r' ∧ rest.head? ≠ some '\n' := by
            refine ends.symm.imp_right fun return_ => ⟨return_, fun followed => ?_⟩
            obtain ⟨behind, split⟩ := List.head?_eq_some_iff.mp followed
            exact alone behind return_ split
          rw [lineAt_add_loneReturns_cons, if_pos counts, ih]
          rfl
  | case4 c rest _ plain ih =>
      obtain ⟨first, later⟩ := row_extendFirst (rows_ne_nil rest) c (offset - 1)
      cases offset with
      | zero => rw [first, front]
      | succ offset =>
          rw [Nat.add_sub_cancel] at later
          rw [lineAt_add_loneReturns_cons, ih, later, if_neg (by tauto)]

/-! ### What a picture shows -/

/-- Nothing but blanks is dropped from the right end of a line. -/
theorem trimRight_append (line : List Char) :
    ∃ blanks, line = trimRight line ++ blanks ∧ ∀ c ∈ blanks, isBlank c = true := by
  refine ⟨(line.reverse.takeWhile isBlank).reverse, ?_, ?_⟩
  · rw [trimRight, ← List.reverse_append, List.takeWhile_append_dropWhile, List.reverse_reverse]
  · intro c member
    exact List.mem_takeWhile_imp (List.mem_reverse.mp member)

/-- Two lines picture the stretch of the given width at an offset of a text, which is in the given
line and at the given spot. The upper one is numbered with the line, but that carriage returns count
too. In the lower one nothing stands in front of the carets, and they begin as far behind the margin
as the spot says: there is one for each character of the stretch, but none behind the end of the row
except for the first. Above the first stands what is at the offset, unless from there on the row has
only blanks and the upper line has ended. -/
structure Depicts (text : List Char) (line offset width : Nat) (spot : Spot)
    (upper lower : List Char) : Prop where
  spot_of : spot.Of (rows text) offset
  line_eq : line + loneReturns text offset = spot.row + 1
  number : upper.take (margin (spot.row + 1)).length = margin (line + loneReturns text offset)
  blank : ∀ c ∈ lower.take ((margin (spot.row + 1)).length + spot.column), c = ' ' ∨ c = '\t'
  carets : lower.drop ((margin (spot.row + 1)).length + spot.column) =
    List.replicate (max 1 (min width (spot.line.length - spot.column))) '^' ++ [' ']
  atMost : max 1 (min width (spot.line.length - spot.column)) ≤ width
  above : upper[(margin (spot.row + 1)).length + spot.column]? = text[offset]? ∨
    upper.length ≤ (margin (spot.row + 1)).length + spot.column ∧
      ∀ c ∈ spot.line.drop spot.column, isBlank c = true

section Drawn

variable {text : List Char} {offset : Nat} {spot : Spot}

theorem shadow_blank (c : Char) : shadow c = ' ' ∨ shadow c = '\t' := by
  unfold shadow
  split
  · rename_i tab
    exact .inr tab
  · exact .inl rfl

/-- In front of the carets. -/
theorem length_under (inside : spot.column ≤ spot.line.length) :
    ((margin (spot.row + 1) ++ spot.line.take spot.column).map shadow).length =
      (margin (spot.row + 1)).length + spot.column := by
  rw [List.length_map, List.length_append, List.length_take, Nat.min_eq_left inside]

/-- Above the first caret. -/
theorem pictureRow_above (placed : spot.Of (rows text) offset) :
    (pictureRow spot)[(margin (spot.row + 1)).length + spot.column]? = text[offset]? ∨
      (pictureRow spot).length ≤ (margin (spot.row + 1)).length + spot.column ∧
        ∀ c ∈ spot.line.drop spot.column, isBlank c = true := by
  obtain ⟨blanks, split, blank⟩ := trimRight_append spot.line
  have here := placed.here
  rw [flatten_rows] at here
  rw [pictureRow, List.getElem?_append_right (Nat.le_add_right _ _), Nat.add_sub_cancel_left,
    List.length_append]
  by_cases shown : spot.column < (trimRight spot.line).length
  · left
    rw [← here]
    conv_rhs => rw [split]
    rw [List.getElem?_append_left shown]
  · refine .inr ⟨by omega, fun c member => blank c ?_⟩
    rw [split, List.drop_append, List.drop_eq_nil_of_le (Nat.le_of_not_lt shown)] at member
    exact List.mem_of_mem_drop member

/-- **What is drawn at a spot.** -/
theorem picture_depicts (placed : spot.Of (rows text) offset) {line width : Nat}
    (counted : line + loneReturns text offset = spot.row + 1) (some : 0 < width) :
    Depicts text line offset width spot (pictureRow spot) (pictureCarets spot width) where
  spot_of := placed
  line_eq := counted
  number := by rw [pictureRow, List.take_left, counted]
  blank := by
    rw [← length_under placed.inside, pictureCarets, List.append_assoc, List.take_left]
    intro c member
    obtain ⟨other, _, rfl⟩ := List.mem_map.mp member
    exact shadow_blank other
  carets := by
    rw [← length_under placed.inside, pictureCarets, List.append_assoc, List.drop_left]
    rfl
  atMost := Nat.max_le.mpr ⟨some, Nat.min_le_left _ _⟩
  above := pictureRow_above placed

end Drawn

end Text

/-! ### Issues -/

/-- **Headline and picture agree.** What is said about an issue gives a line in words, and below
pictures the place in the text. -/
def Issue.Agrees (text : String) (issue : Issue) : Prop :=
  ∃ (line offset width : Nat) (upper lower : List Char),
    issue.line = some line ∧ issue.stretch = some ⟨text, offset, width⟩ ∧
    issue.text = "[line " ++ toString line ++ "] Error" ++ issue.place.text ++ ": " ++
      issue.message ++ "\n" ++ String.ofList (upper ++ '\n' :: lower) ∧
    Text.Depicts text.toList line offset width
      (Text.locate (Text.rows text.toList) offset) upper lower

namespace Issue

variable {text : String}

theorem agrees_of_stands {chars : List Char} {line offset width : Nat}
    (stands : Stands text.toList chars line offset) (some_ : 0 < width) (place : Place)
    (message : String) :
    Agrees text ⟨some line, place, message, some ⟨text, offset, width⟩⟩ := by
  have inside := stands.inside
  rw [← Text.flatten_rows text.toList] at inside
  have placed := Text.locate_of (Text.rows_ne_nil text.toList) inside
  have counted := Text.lineAt_add_loneReturns text.toList offset
  rw [← stands.line_eq] at counted
  exact ⟨line, offset, width, _, _, rfl, rfl, rfl, Text.picture_depicts placed counted some_⟩

/-- An issue at a token of a scan. -/
theorem agrees_ofToken {token : Token} (member : token ∈ tokensOf (scan text)) (message : String) :
    Agrees text (ofToken (some text) token message) :=
  agrees_of_stands (scan_token_stands member) (Nat.le_max_right _ _) _ message

/-- An issue at a fault of a scan. -/
theorem agrees_ofFault {fault : Fault} (member : fault ∈ faultsOf (scan text)) :
    Agrees text (ofComplaint (some text) (.lexical fault)) :=
  agrees_of_stands (scan_fault_stands member) Nat.one_pos _ _

theorem agrees_ofComplaint {complaint : Complaint} (member : complaint ∈ (parse text).complaints) :
    Agrees text (ofComplaint (some text) complaint) := by
  cases complaint with
  | lexical fault =>
      refine agrees_ofFault ?_
      rw [← parse_faults]
      exact List.mem_filterMap.mpr ⟨_, member, rfl⟩
  | syntactic token objection => exact agrees_ofToken (mem_scan_of_complaint member) _

end Issue

/-! ### Reports -/

namespace Report

/-- A report has got some more issues, all of a kind. -/
def Adds (kind : Issue → Prop) (before after : Report) : Prop :=
  ∃ added, after.issues.toList = before.issues.toList ++ added ∧ ∀ issue ∈ added, kind issue

theorem fileAll_adds {kind : Issue → Prop} (report : Report) {issues : List Issue}
    (all : ∀ issue ∈ issues, kind issue) : Adds kind report (report.fileAll issues).1 := by
  obtain ⟨count, filed, _⟩ := report.fileAll_issues issues
  exact ⟨_, filed, fun issue member => all issue (List.mem_of_mem_take member)⟩

theorem source_fileAll (report : Report) (issues : List Issue) :
    (report.fileAll issues).1.source = report.source := by
  induction issues generalizing report with
  | nil => rfl
  | cons issue more ih =>
      rw [fileAll]
      split
      · rfl
      · exact ih _

/-- **The headline and the picture of an issue agree**, for every issue that a report gets from
scanning a text that is not empty, from parsing it, and from resolving the tree that this gives. -/
theorem issues_agree {text : String} (some_ : text ≠ "") (report : Report) (room : Nat) :
    Adds (Issue.Agrees text) report (report.scanText text).1 ∧
    Adds (Issue.Agrees text) report (report.parseText text).1 ∧
    ∀ tree, (report.parseText text).2 = some tree →
      Adds (Issue.Agrees text) (report.parseText text).1
        ((report.parseText text).1.resolveTree tree room).1 := by
  have source := report.source_setSource some_
  refine ⟨?_, ?_, fun tree read => ?_⟩
  · rw [scanText_conclude, source]
    refine fileAll_adds (report.setSource text) fun issue member => ?_
    obtain ⟨fault, found, rfl⟩ := List.mem_map.mp member
    exact Issue.agrees_ofFault found
  · rw [parseText_report, source]
    refine fileAll_adds (report.setSource text) fun issue member => ?_
    obtain ⟨complaint, inside, rfl⟩ := List.mem_map.mp member
    exact Issue.agrees_ofComplaint inside
  · obtain rfl := parseText_tree read
    have kept : (report.parseText text).1.source = some text := by
      rw [parseText_report, source_fileAll, source]
    rw [resolveTree_report, kept]
    refine fileAll_adds _ fun issue member => ?_
    obtain ⟨⟨token, violation⟩, inside, rfl⟩ := List.mem_map.mp member
    exact Issue.agrees_ofToken (mem_scan_of_violation inside) _

/-- A text with line breaks of all kinds, one of them in a string, and with tabs. -/
def returned : String :=
  "print \"a\nb\";\r\t@\x7b var c = c; \x7d\r\n\treturn 1;\r"

theorem issues_agree_returned :
    returned ≠ "" ∧
    Adds (Issue.Agrees returned) {} (({} : Report).scanText returned).1 ∧
    Adds (Issue.Agrees returned) {} (({} : Report).parseText returned).1 ∧
    ∃ tree, (({} : Report).parseText returned).2 = some tree ∧
      Adds (Issue.Agrees returned) (({} : Report).parseText returned).1
        ((({} : Report).parseText returned).1.resolveTree tree).1 ∧
      ((({} : Report).parseText returned).1.resolveTree tree).1.issues.toList.map Issue.text =
        ["[line 2] Error: Unexpected character '@'.\n" ++
            "     3 |\t@\x7b var c = c; \x7d\n        \t^ ",
          "[line 2] Error at 'c': Can't read local variable in its own initializer.\n" ++
            "     3 |\t@\x7b var c = c; \x7d\n        \t           ^ ",
          "[line 3] Error at 'return': Can't return from top-level code.\n" ++
            "     4 |\treturn 1;\n        \t^^^^^^ "] := by
  have nonempty : returned ≠ "" := by decide
  have whole : (({} : Report).parseText returned).2.isSome = true := by decide +kernel
  obtain ⟨tree, read⟩ := Option.isSome_iff_exists.mp whole
  obtain rfl := parseText_tree read
  obtain ⟨scanned, parsed, resolved⟩ := issues_agree nonempty {} maxNesting
  exact ⟨nonempty, scanned, parsed, _, read, resolved _ read, by decide +kernel⟩

end Report

end Lox
