/-
**Longest match.** Every step of a scan takes the longest text that one of the patterns matches.

* `TakesLongest` says what the longest match at a place is, `EarliestTreatment` what is done with
  it: what the earliest pattern says that matches it.
* `ScansTo` is a step of a scan by these rules alone. Where no pattern matches anything, one
  character is taken and reported. `ScansTo.unique`: the rules leave no choice.
* `Segment.cut_scans`: cutting the first segment off a text is such a step.
* `LongestMatches` is a scan that is made of such steps, and `scan_longestMatch` says that the scan
  of a text is the one that there is.
-/

import Lox.Grammar.Rule
import Lox.Proofs.Patterns
import Lox.Scan

namespace Lox

/-! ### Matches -/

/-- One of the patterns matches a text. -/
def Matched (text : List Char) : Prop :=
  ∃ entry ∈ lexicon, text ∈ entry.1.language

/-- A text is the longest one in front of the rest that a pattern matches, and not empty. -/
structure TakesLongest (rest text : List Char) : Prop where
  start : text <+: rest
  nonempty : text ≠ []
  matched : Matched text
  longest : ∀ other, other ≠ [] → other <+: rest → Matched other → other.length ≤ text.length

/-- The earliest pattern that matches a text decides what is done with it. -/
def EarliestTreatment (text : List Char) (treatment : Treatment) : Prop :=
  ∃ earlier pattern later, lexicon = earlier ++ (pattern, treatment) :: later ∧
    text ∈ pattern.language ∧ ∀ entry ∈ earlier, text ∉ entry.1.language

/-- The classes of reserved words: terminals of the grammar whose names are in capitals. -/
structure Terminal.Reserved (kind : Terminal) : Prop where
  used : ∃ rule : Rule, .terminal kind ∈ rule.rhs
  capitals : ∀ c ∈ kind.label.toList, c.isUpper = true

/-- The name of a class in small letters. -/
def Terminal.spelling (kind : Terminal) : List Char :=
  kind.label.toList.map Char.toLower

/-- The token of a class that a text makes at a place. -/
def Scan.made (kind : Terminal) (text : List Char) (line offset : Nat) : Scanned :=
  .token ⟨kind, String.ofList text, literal kind text, line, offset⟩

/-- What a treatment contributes to a scan, with the text that was matched and its place. Marks are
their own names, and a word is reserved exactly if it is the name of a reserved class in small
letters. -/
def Treatment.Gives (text : List Char) (line offset : Nat) (result : Option Scanned) :
    Treatment → Prop
  | ignore => result = none
  | string => result = some (Scan.made .string text line offset)
  | unterminated => result = some (.fault ⟨.unterminated, line, offset⟩)
  | number => result = some (Scan.made .number text line offset)
  | word => ∃ kind : Terminal, result = some (Scan.made kind text line offset) ∧
      (kind.Reserved ∧ text = kind.spelling ∨
        kind = .name ∧ ∀ other : Terminal, other.Reserved → text ≠ other.spelling)
  | punctuation => ∃ kind : Terminal, result = some (Scan.made kind text line offset) ∧
      text = kind.label.toList

/-- A step of a scan in front of the rest of a text: the text that it takes and what it contributes.
It takes the longest match, or one character if there is no match at all. -/
inductive ScansTo (rest text : List Char) (line offset : Nat) (result : Option Scanned) : Prop
  | longest (takes : TakesLongest rest text) (treatment : Treatment)
    (earliest : EarliestTreatment text treatment) (gives : treatment.Gives text line offset result)
  | stuck (none : ∀ other, other ≠ [] → other <+: rest → ¬ Matched other) (c : Char)
    (start : text <+: rest) (single : text = [c])
    (reported : result = some (.fault ⟨.stuck c, line, offset⟩))

/-! ### First characters -/

namespace Pattern

/-- Whether a pattern matches the empty text. -/
def nullable : Pattern → Bool
  | empty => true
  | one _ => false
  | seq first second => first.nullable && second.nullable
  | alt first second => first.nullable || second.nullable
  | star _ => true

/-- Whether a text that a pattern matches can start with a character. -/
def starts (c : Char) : Pattern → Bool
  | empty => false
  | one set => set.has c
  | seq first second => first.starts c || (first.nullable && second.starts c)
  | alt first second => first.starts c || second.starts c
  | star inner => inner.starts c

theorem nullable_of_mem {pattern : Pattern} (member : [] ∈ pattern.language) :
    pattern.nullable = true := by
  induction pattern with
  | empty | star => rfl
  | one set =>
      obtain ⟨c, _, same⟩ := member
      cases same
  | seq first second ihFirst ihSecond =>
      obtain ⟨front, inFront, back, behind, same⟩ := mem_seq.mp member
      obtain ⟨rfl, rfl⟩ := List.append_eq_nil_iff.mp same
      rw [nullable, ihFirst inFront, ihSecond behind]
      rfl
  | alt first second ihFirst ihSecond =>
      rw [nullable, Bool.or_eq_true]
      exact member.imp ihFirst ihSecond

theorem starts_of_mem {pattern : Pattern} {c : Char} {more : List Char}
    (member : c :: more ∈ pattern.language) : pattern.starts c = true := by
  induction pattern generalizing more with
  | empty => cases member
  | one set =>
      obtain ⟨d, has, same⟩ := member
      rw [(List.cons.inj same).1]
      exact has
  | seq first second ihFirst ihSecond =>
      obtain ⟨front, inFront, back, behind, same⟩ := mem_seq.mp member
      rw [starts, Bool.or_eq_true, Bool.and_eq_true]
      cases front with
      | nil =>
          rw [List.nil_append] at same
          subst same
          exact .inr ⟨nullable_of_mem inFront, ihSecond behind⟩
      | cons d front =>
          obtain ⟨rfl, _⟩ := List.cons.inj same
          exact .inl (ihFirst inFront)
  | alt first second ihFirst ihSecond =>
      rw [starts, Bool.or_eq_true]
      exact member.imp ihFirst ihSecond
  | star inner ih =>
      obtain ⟨parts, same, each⟩ := Language.mem_kstar_iff_exists_nonempty.mp member
      cases parts with
      | nil => cases same
      | cons part parts =>
          obtain ⟨inside, filled⟩ := each part List.mem_cons_self
          obtain ⟨d, part, rfl⟩ := List.exists_cons_of_ne_nil filled
          obtain ⟨rfl, _⟩ := List.cons.inj same
          exact ih inside

end Pattern

open Pattern Segment

/-- The patterns that match texts with a given first character. -/
def candidates (c : Char) : List (Pattern × Treatment) :=
  lexicon.filter fun entry => entry.1.starts c

/-- The patterns by the characters with which their texts start. -/
theorem candidates_eq (c : Char) : candidates c =
    (if isSpace c then [(blanks, Treatment.ignore)] else []) ++
    (if c = '/' then
      [(lineComment, Treatment.ignore), (closedComment, Treatment.ignore),
        (openComment, Treatment.ignore)]
      else []) ++
    (if c = stringMark then
      [(Pattern.string, Treatment.string), (openString, Treatment.unterminated)]
      else []) ++
    (if isDigit c then [(Pattern.number, Treatment.number)] else []) ++
    (if isLetter c then [(Pattern.word, Treatment.word)] else []) ++
    (if c ∈ markChars then [(mark, Treatment.punctuation)] else []) ++
    (if c ∈ comparisonChars then [(comparison, Treatment.punctuation)] else []) := by
  have blank : blanks.starts c = isSpace c := by
    simp [blanks, plus, starts, nullable, CharSet.has_space]
  have line : lineComment.starts c = true ↔ c = '/' := by
    simp [lineComment, exactly, starts, nullable]
  have closed : closedComment.starts c = lineComment.starts c := rfl
  have unclosed : openComment.starts c = lineComment.starts c := rfl
  have quote : openString.starts c = true ↔ c = stringMark := by
    simp [openString, exactly, starts, nullable]
  have string : Pattern.string.starts c = true ↔ c = stringMark := by
    simp [Pattern.string, openString, exactly, starts, nullable]
  have digit : Pattern.number.starts c = isDigit c := by
    simp [Pattern.number, plus, starts, nullable, CharSet.has_digit]
  have letter : Pattern.word.starts c = isLetter c := by
    simp [Pattern.word, starts, nullable, CharSet.has_initial]
  have single : mark.starts c = true ↔ c ∈ markChars := by
    simp [mark, starts]
  have compares : comparison.starts c = true ↔ c ∈ comparisonChars := by
    simp [comparison, starts, nullable]
  have split : lexicon = [(blanks, Treatment.ignore)] ++ [(lineComment, Treatment.ignore),
      (closedComment, Treatment.ignore), (openComment, Treatment.ignore)] ++
      [(Pattern.string, Treatment.string), (openString, Treatment.unterminated)] ++
      [(Pattern.number, Treatment.number)] ++ [(Pattern.word, Treatment.word)] ++
      [(mark, Treatment.punctuation)] ++ [(comparison, Treatment.punctuation)] := rfl
  rw [candidates, split]
  simp only [List.filter_append, List.filter_cons, List.filter_nil, blank, closed, unclosed, line,
    string, quote, digit, letter, single, compares]
  by_cases slash : c = '/'
  · by_cases marked : c = stringMark
    · simp only [if_pos slash, if_pos marked]
    · simp only [if_pos slash, if_neg marked]
  · by_cases marked : c = stringMark
    · simp only [if_neg slash, if_pos marked]
    · simp only [if_neg slash, if_neg marked]

/-- What the earliest of the patterns says that can match a text. -/
theorem EarliestTreatment.of_candidates {c : Char} {more : List Char} {pattern : Pattern}
    {treatment : Treatment} {earlier later : List (Pattern × Treatment)}
    (split : candidates c = earlier ++ (pattern, treatment) :: later)
    (member : c :: more ∈ pattern.language)
    (others : ∀ entry ∈ earlier, c :: more ∉ entry.1.language) :
    EarliestTreatment (c :: more) treatment := by
  obtain ⟨front, back, whole, before, behind⟩ := List.filter_eq_append_iff.mp split
  obtain ⟨middle, rest, rfl, absent, _, _⟩ := List.filter_eq_cons_iff.mp behind
  refine ⟨front ++ middle, pattern, rest, by rw [whole, List.append_assoc], member, ?_⟩
  intro entry inside matched
  have starts := starts_of_mem matched
  rcases List.mem_append.mp inside with early | late
  · exact others entry (before ▸ List.mem_filter.mpr ⟨early, starts⟩) matched
  · exact absent entry late starts

theorem Matched.of_candidates {c : Char} {more : List Char} (matched : Matched (c :: more)) :
    ∃ entry ∈ candidates c, c :: more ∈ entry.1.language := by
  obtain ⟨entry, listed, member⟩ := matched
  exact ⟨entry, List.mem_filter.mpr ⟨listed, starts_of_mem member⟩, member⟩

/-- A step takes the longest match if it takes a match of a pattern that can match there and no such
pattern matches more. -/
theorem ScansTo.of_candidates {c : Char} {rest more : List Char} {line offset : Nat}
    {result : Option Scanned} {pattern : Pattern} {treatment : Treatment}
    {earlier later : List (Pattern × Treatment)}
    (split : candidates c = earlier ++ (pattern, treatment) :: later) (start : more <+: rest)
    (member : c :: more ∈ pattern.language)
    (others : ∀ entry ∈ earlier, c :: more ∉ entry.1.language)
    (longest : ∀ entry ∈ candidates c, ∀ other, other <+: rest → c :: other ∈ entry.1.language →
      other.length ≤ more.length)
    (gives : treatment.Gives (c :: more) line offset result) :
    ScansTo (c :: rest) (c :: more) line offset result := by
  have earliest := EarliestTreatment.of_candidates split member others
  have taken : c :: more <+: c :: rest := List.cons_prefix_cons.mpr ⟨rfl, start⟩
  refine .longest ⟨taken, List.cons_ne_nil _ _, ?_, ?_⟩ treatment earliest gives
  · obtain ⟨before, found, after, whole, inside, _⟩ := earliest
    exact ⟨(found, treatment), by simp [whole], inside⟩
  · intro other filled before matched
    obtain ⟨d, other, rfl⟩ := List.exists_cons_of_ne_nil filled
    obtain ⟨rfl, inFront⟩ := List.cons_prefix_cons.mp before
    obtain ⟨entry, listed, inside⟩ := matched.of_candidates
    exact Nat.succ_le_succ (longest entry listed other inFront inside)

/-- The same where only one pattern can match. -/
theorem ScansTo.of_candidate {c : Char} {rest more : List Char} {line offset : Nat}
    {result : Option Scanned} {pattern : Pattern} {treatment : Treatment}
    (only : candidates c = [(pattern, treatment)]) (start : more <+: rest)
    (member : c :: more ∈ pattern.language)
    (longest : ∀ other, other <+: rest → c :: other ∈ pattern.language →
      other.length ≤ more.length)
    (gives : treatment.Gives (c :: more) line offset result) :
    ScansTo (c :: rest) (c :: more) line offset result := by
  have split : candidates c = [] ++ (pattern, treatment) :: [] := only
  refine .of_candidates split start member (fun entry inside => absurd inside List.not_mem_nil)
    ?_ gives
  intro entry listed
  rw [only, List.mem_singleton] at listed
  rw [listed]
  exact longest

/-! ### The candidates by the first character -/

/-- A character that passes a test is none of those that fail it. -/
theorem not_mem_of_test {test : Char → Bool} {chars : List Char} {c : Char} (passes : test c = true)
    (fail : chars.any test = false) : c ∉ chars := by
  intro member
  exact List.any_eq_false.mp fail c member passes

/-- The characters that begin comments, strings and marks. -/
def signs : List Char := '/' :: stringMark :: (markChars ++ comparisonChars)

theorem candidates_of_no_sign {c : Char} (plain : c ∉ signs) : candidates c =
    (if isSpace c then [(blanks, Treatment.ignore)] else []) ++
    (if isDigit c then [(Pattern.number, Treatment.number)] else []) ++
    (if isLetter c then [(Pattern.word, Treatment.word)] else []) := by
  simp only [signs, List.mem_cons, List.mem_append, not_or] at plain
  obtain ⟨slash, quote, single, compares⟩ := plain
  rw [candidates_eq, if_neg slash, if_neg quote, if_neg single, if_neg compares]
  simp only [List.append_nil]

theorem candidates_space {c : Char} (space : isSpace c = true) :
    candidates c = [(blanks, .ignore)] := by
  have range := isSpace_iff.mp space
  rw [candidates_of_no_sign (not_mem_of_test space (by decide)), if_pos space,
    if_neg (by rw [isDigit_iff]; omega), if_neg (by rw [isLetter_iff]; omega)]
  rfl

theorem candidates_digit {c : Char} (digit : isDigit c = true) :
    candidates c = [(.number, .number)] := by
  have range := isDigit_iff.mp digit
  rw [candidates_of_no_sign (not_mem_of_test digit (by decide)), if_pos digit,
    if_neg (by rw [isSpace_iff]; omega), if_neg (by rw [isLetter_iff]; omega)]
  rfl

theorem candidates_letter {c : Char} (letter : isLetter c = true) :
    candidates c = [(.word, .word)] := by
  have range := isLetter_iff.mp letter
  rw [candidates_of_no_sign (not_mem_of_test letter (by decide)), if_pos letter,
    if_neg (by rw [isSpace_iff]; omega), if_neg (by rw [isDigit_iff]; omega)]
  rfl

theorem candidates_slash : candidates '/' = [(lineComment, .ignore), (closedComment, .ignore),
    (openComment, .ignore), (mark, .punctuation)] := by
  rw [candidates_eq]
  rfl

theorem candidates_quote :
    candidates stringMark = [(.string, .string), (openString, .unterminated)] := by
  rw [candidates_eq]
  rfl

/-! ### Cutting -/

/-- A run of characters that pass a test is no longer than the longest one. -/
theorem length_le_takeWhile {test : Char → Bool} {run text : List Char} (start : run <+: text)
    (passes : ∀ c ∈ run, test c = true) : run.length ≤ (text.takeWhile test).length := by
  obtain ⟨back, rfl⟩ := start
  rw [List.takeWhile_append_of_pos passes, List.length_append]
  omega

/-- A numeral ends where its digits end, and its fraction where the digits of that end. -/
theorem length_fraction_le {digits more rest : List Char} (all : ∀ c ∈ digits, isDigit c = true)
    (filled : more ≠ []) (further : ∀ c ∈ more, isDigit c = true)
    (start : digits ++ '.' :: more <+: rest) : (digits ++ '.' :: more).length ≤
      (rest.takeWhile isDigit ++ (splitFraction (rest.dropWhile isDigit)).1).length := by
  obtain ⟨back, rfl⟩ := start
  obtain ⟨d, more, rfl⟩ := List.exists_cons_of_ne_nil filled
  obtain ⟨digit, further⟩ := List.forall_mem_cons.mp further
  have point : isDigit '.' = false := by decide
  have reach := length_le_takeWhile (List.prefix_append more back) further
  rw [List.append_assoc, List.takeWhile_append_of_pos all, List.dropWhile_append_of_pos all]
  simp only [List.cons_append, List.takeWhile_cons, List.dropWhile_cons, point, splitFraction,
    digit, splitWhile, List.length_append, List.length_cons, List.length_nil, Bool.false_eq_true,
    if_false, if_true]
  omega

/-- A comment is cut behind its first close, or not at all. -/
theorem splitClose_cases (text : List Char) :
    (∃ body rest, text = body ++ '*' :: '/' :: rest ∧ splitClose text = (body ++ ['*', '/'], rest) ∧
      Unclosed (body ++ ['*'])) ∨
    (splitClose text = (text, []) ∧ Unclosed text) := by
  fun_induction splitClose text with
  | case1 => exact .inr ⟨rfl, .nil⟩
  | case2 rest => exact .inl ⟨[], rest, rfl, rfl, List.isChain_singleton _⟩
  | case3 c rest other inside after cutting ih =>
      rw [cutting] at ih
      have apart : ∀ d ∈ rest.head?, ¬ (c = '*' ∧ d = '/') := by
        rintro d found ⟨rfl, rfl⟩
        obtain ⟨more, rfl⟩ := List.head?_eq_some_iff.mp found
        exact other more rfl rfl
      rcases ih with ⟨body, back, rfl, cut, unclosed⟩ | ⟨cut, unclosed⟩
      · obtain ⟨rfl, rfl⟩ := Prod.mk.inj cut
        refine .inl ⟨c :: body, after, rfl, rfl, List.isChain_cons.mpr ⟨?_, unclosed⟩⟩
        intro d found
        apply apart d
        cases body with
        | nil => exact found
        | cons e body => exact found
      · obtain ⟨rfl, rfl⟩ := Prod.mk.inj cut
        exact .inr ⟨rfl, List.isChain_cons.mpr ⟨apart, unclosed⟩⟩

/-- No comment reaches beyond the first close. -/
theorem length_le_splitClose {body rest : List Char} (start : body <+: rest)
    (unclosed : Unclosed body.dropLast) : body.length ≤ (splitClose rest).1.length := by
  rcases splitClose_cases rest with ⟨inside, after, rfl, cut, _⟩ | ⟨cut, _⟩
  · rw [cut]
    by_contra longer
    have closed : inside ++ ['*', '/'] <+: body.dropLast := by
      refine List.prefix_of_prefix_length_le ⟨after, by simp⟩
        ((List.dropLast_prefix body).trans start) ?_
      rw [List.length_dropLast]
      simp only [List.length_append, List.length_cons, List.length_nil] at longer ⊢
      omega
    obtain ⟨back, same⟩ := closed
    rw [← same] at unclosed
    have chain := (List.isChain_append.mp unclosed.left_of_append).2.1
    exact (List.isChain_pair.mp chain) ⟨rfl, rfl⟩
  · rw [cut]
    exact start.length_le

/-- What can be matched from a slash on. -/
theorem slash_matches {other : List Char}
    (matched : ∃ entry ∈ candidates '/', '/' :: other ∈ entry.1.language) :
    other = [] ∨ (∃ body, other = '/' :: body ∧ ∀ c ∈ body, (!endsLine c) = true) ∨
      ∃ body, other = '*' :: body ∧ Unclosed body.dropLast := by
  obtain ⟨entry, listed, inside⟩ := matched
  simp only [candidates_slash, List.mem_cons, List.not_mem_nil, or_false] at listed
  rcases listed with rfl | rfl | rfl | rfl
  · obtain ⟨body, same, all⟩ := mem_lineComment.mp inside
    exact .inr (.inl ⟨body, (List.cons.inj same).2, all⟩)
  · obtain ⟨body, same, unclosed⟩ := mem_closedComment.mp inside
    refine .inr (.inr ⟨body ++ ['*', '/'], (List.cons.inj same).2, ?_⟩)
    rwa [List.dropLast_append_of_ne_nil (by simp)]
  · obtain ⟨body, same, unclosed⟩ := mem_openComment.mp inside
    exact .inr (.inr ⟨body, (List.cons.inj same).2, unclosed.dropLast⟩)
  · obtain ⟨c, _, same⟩ := mem_mark.mp inside
    exact .inl (List.cons.inj same).2

/-! ### Words and marks -/

theorem Operator.terminal_ne_eof (op : Operator) : op.terminal ≠ .eof := by
  cases op with
  | assign => decide
  | connect op => cases op <;> decide
  | compute op => cases op <;> decide

/-- No rule asks for the end of the text. -/
theorem Terminal.not_reserved_eof : ¬ Terminal.eof.Reserved := by
  rintro ⟨⟨rule, used⟩, _⟩
  cases rule with
  | binary op => simp [Rule.rhs, Ne.symm op.terminal_ne_eof] at used
  | unary sign => cases sign <;> simp [Rule.rhs, Sign.terminal] at used
  | _ => simp [Rule.rhs] at used

/-- The rules that bring in the reserved words. -/
def Rule.withWords : List Rule :=
  [.binary (.connect .and), .binary (.connect .or), .classDecl, .funDecl, .varPlain, .print,
    .returnNothing, .ifElse, .whileLoop, .forLoop, .true_, .false_, .nil_, .this, .super]

/-- The reserved words are the names of the reserved classes in small letters. -/
theorem Terminal.mem_reserved_iff {kind : Terminal} {text : List Char} :
    (String.ofList text, kind) ∈ reserved ↔ kind.Reserved ∧ text = kind.spelling := by
  constructor
  · intro listed
    have used : ∀ entry ∈ reserved, ∃ rule ∈ Rule.withWords, .terminal entry.2 ∈ rule.rhs := by
      decide
    have capitals : ∀ entry ∈ reserved, entry.2.label.toList.all Char.isUpper = true := by decide
    have spelled : ∀ entry ∈ reserved, entry.1.toList = entry.2.spelling := by decide
    obtain ⟨rule, _, inside⟩ := used (String.ofList text, kind) listed
    have upper := List.all_eq_true.mp (capitals (String.ofList text, kind) listed)
    have same := spelled (String.ofList text, kind) listed
    rw [String.toList_ofList] at same
    exact ⟨⟨⟨rule, inside⟩, upper⟩, same⟩
  · rintro ⟨⟨used, capitals⟩, rfl⟩
    by_cases ending : kind = .eof
    · subst ending
      exact absurd ⟨used, capitals⟩ not_reserved_eof
    · have upper := List.all_eq_true.mpr capitals
      revert upper ending
      cases kind <;> decide

theorem Terminal.ofWord_gives (text : List Char) :
    (ofWord (String.ofList text)).Reserved ∧ text = (ofWord (String.ofList text)).spelling ∨
      ofWord (String.ofList text) = .name ∧
        ∀ other : Terminal, other.Reserved → text ≠ other.spelling := by
  cases found : reserved.lookup (String.ofList text) with
  | some kind =>
      obtain ⟨front, back, split, _⟩ := List.lookup_eq_some_iff.mp found
      have listed : (String.ofList text, kind) ∈ reserved := by simp [split]
      rw [ofWord, found]
      exact .inl (mem_reserved_iff.mp listed)
  | none =>
      rw [ofWord, found]
      refine .inr ⟨rfl, ?_⟩
      intro other reserved spelled
      have listed := mem_reserved_iff.mpr ⟨reserved, spelled⟩
      simpa using List.lookup_eq_none_iff.mp found _ listed

namespace Segment

variable {c : Char} {rest : List Char} (line offset : Nat)

/-- A segment is what a step of a scan takes, and its form says what the step contributes. -/
abbrev Scans (text : List Char) (segment : Segment) : Prop :=
  ScansTo text segment.chars line offset (Scan.ofSegment segment line offset)

theorem cutSpace_scans (space : isSpace c = true) :
    Scans line offset (c :: rest) (cutSpace c rest).1 := by
  have blank : ∀ d ∈ rest.takeWhile isSpace, isSpace d = true :=
    fun d member => List.mem_takeWhile_imp member
  refine ScansTo.of_candidate (candidates_space space) (List.takeWhile_prefix _) ?_ ?_ rfl
  · exact mem_blanks.mpr ⟨List.cons_ne_nil _ _, List.forall_mem_cons.mpr ⟨space, blank⟩⟩
  · intro other start inside
    have all := (List.forall_mem_cons.mp (mem_blanks.mp inside).2).2
    exact length_le_takeWhile start all

/-- From a slash on, a comment to the end of the line is the longest match if another slash comes
next. -/
theorem cutLine_scans : ScansTo ('/' :: '/' :: rest)
    ('/' :: '/' :: rest.takeWhile fun c => !endsLine c) line offset none := by
  have inLine : ∀ c ∈ rest.takeWhile fun c => !endsLine c, (!endsLine c) = true := by
    intro c member
    exact List.mem_takeWhile_imp (p := fun c => !endsLine c) member
  have listed : candidates '/' = [] ++ (lineComment, .ignore) :: _ := candidates_slash
  refine ScansTo.of_candidates listed ?_ (mem_lineComment.mpr ⟨_, rfl, inLine⟩) ?_ ?_ rfl
  · exact List.cons_prefix_cons.mpr ⟨rfl, List.takeWhile_prefix _⟩
  · exact fun entry inside => absurd inside List.not_mem_nil
  · intro entry listed other start inside
    rcases slash_matches ⟨entry, listed, inside⟩ with rfl | ⟨body, rfl, all⟩ | ⟨body, rfl, _⟩
    · exact Nat.zero_le _
    · exact Nat.succ_le_succ (length_le_takeWhile (List.cons_prefix_cons.mp start).2 all)
    · exact absurd (List.cons_prefix_cons.mp start).1 (by decide)

theorem not_mem_lineComment {body : List Char} : '/' :: '*' :: body ∉ lineComment.language := by
  intro inside
  obtain ⟨other, same, _⟩ := mem_lineComment.mp inside
  exact absurd (List.cons.inj (List.cons.inj same).2).1 (by decide)

/-- A comment that is open at the end is no closed one. -/
theorem not_mem_closedComment {body : List Char} (unclosed : Unclosed body) :
    '/' :: '*' :: body ∉ closedComment.language := by
  intro inside
  obtain ⟨other, same, _⟩ := mem_closedComment.mp inside
  obtain ⟨_, same⟩ := List.cons.inj same
  obtain ⟨_, rfl⟩ := List.cons.inj same
  exact List.isChain_pair.mp (List.isChain_append.mp unclosed).2.1 ⟨rfl, rfl⟩

/-- From a slash on, a comment up to its close is the longest match if a star comes next. -/
theorem cutComment_scans : ScansTo ('/' :: '*' :: rest)
    ('/' :: '*' :: (splitClose rest).1) line offset none := by
  have longest : ∀ entry ∈ candidates '/', ∀ other, other <+: '*' :: rest →
      '/' :: other ∈ entry.1.language → other.length ≤ ('*' :: (splitClose rest).1).length := by
    intro entry listed other start inside
    rcases slash_matches ⟨entry, listed, inside⟩ with rfl | ⟨body, rfl, _⟩ | ⟨body, rfl, unclosed⟩
    · exact Nat.zero_le _
    · exact absurd (List.cons_prefix_cons.mp start).1 (by decide)
    · exact Nat.succ_le_succ (length_le_splitClose (List.cons_prefix_cons.mp start).2 unclosed)
  rcases splitClose_cases rest with ⟨body, after, rfl, cut, unclosed⟩ | ⟨cut, unclosed⟩
  · rw [cut] at longest ⊢
    have listed : candidates '/' = [(lineComment, .ignore)] ++ (closedComment, .ignore) :: _ :=
      candidates_slash
    refine ScansTo.of_candidates listed ?_ (mem_closedComment.mpr ⟨body, rfl, unclosed⟩) ?_
      longest rfl
    · exact List.cons_prefix_cons.mpr ⟨rfl, after, by simp⟩
    · exact List.forall_mem_singleton.mpr not_mem_lineComment
  · rw [cut] at longest ⊢
    have listed : candidates '/' = [(lineComment, .ignore), (closedComment, .ignore)] ++
      (openComment, .ignore) :: _ := candidates_slash
    refine ScansTo.of_candidates listed (List.prefix_refl _)
      (mem_openComment.mpr ⟨rest, rfl, unclosed⟩) ?_ longest rfl
    refine List.forall_mem_cons.mpr ⟨not_mem_lineComment, List.forall_mem_singleton.mpr ?_⟩
    exact not_mem_closedComment unclosed

theorem cutSlash_scans : Scans line offset ('/' :: rest) (cutSlash rest).1 := by
  fun_cases cutSlash rest with
  | case1 rest body after cutting =>
      obtain ⟨rfl, rfl⟩ := Prod.mk.inj cutting
      exact cutLine_scans line offset
  | case2 rest body after cutting =>
      have same : body = (splitClose rest).1 := by rw [cutting]
      rw [same]
      exact cutComment_scans line offset
  | case3 rest noLine noComment =>
      have listed : candidates '/' = [(lineComment, .ignore), (closedComment, .ignore),
        (openComment, .ignore)] ++ (mark, .punctuation) :: [] := candidates_slash
      refine ScansTo.of_candidates listed List.nil_prefix (mem_mark.mpr ⟨'/', by decide, rfl⟩) ?_ ?_
        ⟨.slash, rfl, rfl⟩
      · simp [mem_lineComment, mem_closedComment, mem_openComment]
      · intro entry listed other start inside
        rcases slash_matches ⟨entry, listed, inside⟩ with rfl | ⟨body, rfl, _⟩ | ⟨body, rfl, _⟩
        · exact Nat.le_refl _
        · obtain ⟨back, rfl⟩ := start
          exact absurd rfl (noLine _)
        · obtain ⟨back, rfl⟩ := start
          exact absurd rfl (noComment _)

theorem cutString_scans : Scans line offset (stringMark :: rest) (cutString rest).1 := by
  have whole := List.takeWhile_append_dropWhile (p := (· != stringMark)) (l := rest)
  have absent : stringMark ∉ rest.takeWhile (· != stringMark) := fun member => by
    simpa using List.mem_takeWhile_imp member
  have reach : ∀ body, body <+: rest → stringMark ∉ body →
      body.length ≤ (rest.takeWhile (· != stringMark)).length := by
    intro body start unmarked
    refine length_le_takeWhile start fun c member => bne_iff_ne.mpr ?_
    rintro rfl
    exact unmarked member
  fun_cases cutString rest with
  | case1 body cutting =>
      obtain ⟨rfl, ended⟩ := Prod.mk.inj cutting
      rw [ended, List.append_nil] at whole
      rw [whole] at absent ⊢
      have listed : candidates stringMark = [(Pattern.string, .string)] ++
        (openString, .unterminated) :: [] := candidates_quote
      refine ScansTo.of_candidates listed (List.prefix_refl _)
        (mem_openString.mpr ⟨rest, rfl, absent⟩) ?_ ?_ rfl
      · refine List.forall_mem_singleton.mpr fun inside => ?_
        obtain ⟨body, same, _⟩ := mem_string.mp inside
        rw [(List.cons.inj same).2] at absent
        simp at absent
      · exact fun entry listed other start inside => start.length_le
  | case2 body mark after cutting =>
      obtain ⟨rfl, ended⟩ := Prod.mk.inj cutting
      have closes : mark = stringMark := by
        have stopped := List.head?_dropWhile_not (· != stringMark) rest
        rw [ended] at stopped
        simpa using stopped
      subst closes
      rw [ended] at whole
      have listed : candidates stringMark = [] ++ (Pattern.string, .string) :: _ :=
        candidates_quote
      show ScansTo (stringMark :: rest)
        (stringMark :: (rest.takeWhile (· != stringMark) ++ [stringMark])) line offset _
      refine ScansTo.of_candidates listed ?_ (mem_string.mpr ⟨_, rfl, absent⟩) ?_ ?_ rfl
      · exact ⟨after, by rw [List.append_assoc]; exact whole⟩
      · exact fun entry inside => absurd inside List.not_mem_nil
      · intro entry listed other start inside
        simp only [candidates_quote, List.mem_cons, List.not_mem_nil, or_false] at listed
        rw [List.length_append]
        rcases listed with rfl | rfl
        · obtain ⟨body, same, unmarked⟩ := mem_string.mp inside
          have split : other = body ++ [stringMark] := (List.cons.inj same).2
          rw [split] at start ⊢
          have bound := reach body ((List.prefix_append _ _).trans start) unmarked
          rw [List.length_append]
          exact Nat.add_le_add_right bound 1
        · obtain ⟨body, same, unmarked⟩ := mem_openString.mp inside
          obtain ⟨_, rfl⟩ := List.cons.inj same
          exact Nat.le_add_right_of_le (reach other start unmarked)

/-- A fraction is a point with digits behind it, or nothing. -/
theorem splitFraction_cases (text : List Char) : (splitFraction text).1 <+: text ∧
    ((splitFraction text).1 = [] ∨ ∃ more, (splitFraction text).1 = '.' :: more ∧ more ≠ [] ∧
      ∀ c ∈ more, isDigit c = true) := by
  fun_cases splitFraction text with
  | case1 d rest digit more after cutting =>
      obtain ⟨rfl, rfl⟩ := Prod.mk.inj cutting
      refine ⟨?_, .inr ⟨_, rfl, List.cons_ne_nil _ _, List.forall_mem_cons.mpr ⟨digit, ?_⟩⟩⟩
      · simp only [List.cons_prefix_cons, true_and]
        exact List.takeWhile_prefix _
      · exact fun c member => List.mem_takeWhile_imp member
  | case2 => exact ⟨List.nil_prefix, .inl rfl⟩
  | case3 => exact ⟨List.nil_prefix, .inl rfl⟩

theorem cutNumber_scans (digit : isDigit c = true) :
    Scans line offset (c :: rest) (cutNumber c rest).1 := by
  have digits : ∀ d ∈ rest.takeWhile isDigit, isDigit d = true :=
    fun d member => List.mem_takeWhile_imp member
  have all : ∀ d ∈ c :: rest.takeWhile isDigit, isDigit d = true :=
    List.forall_mem_cons.mpr ⟨digit, digits⟩
  obtain ⟨start, form⟩ := splitFraction_cases (rest.dropWhile isDigit)
  show ScansTo (c :: rest) (c :: (rest.takeWhile isDigit ++
    (splitFraction (rest.dropWhile isDigit)).1)) line offset _
  refine ScansTo.of_candidate (candidates_digit digit) ?_ ?_ ?_ rfl
  · obtain ⟨back, whole⟩ := start
    refine ⟨back, ?_⟩
    rw [List.append_assoc]
    exact (congrArg _ whole).trans List.takeWhile_append_dropWhile
  · exact mem_number.mpr ⟨_, _, rfl, List.cons_ne_nil _ _, all, form⟩
  · intro other before inside
    obtain ⟨front, fraction, same, filled, passes, form⟩ := mem_number.mp inside
    obtain ⟨d, front, rfl⟩ := List.exists_cons_of_ne_nil filled
    have split : other = front ++ fraction := (List.cons.inj same).2
    have passes := (List.forall_mem_cons.mp passes).2
    rw [split] at before ⊢
    rcases form with rfl | ⟨more, rfl, some, further⟩
    · rw [List.append_nil] at before ⊢
      rw [List.length_append]
      exact Nat.le_add_right_of_le (length_le_takeWhile before passes)
    · exact length_fraction_le passes some further before

theorem cutWord_scans (letter : isLetter c = true) :
    Scans line offset (c :: rest) (cutWord c rest).1 := by
  have inside : ∀ d ∈ rest.takeWhile isWordChar, isWordChar d = true :=
    fun d member => List.mem_takeWhile_imp member
  refine ScansTo.of_candidate (candidates_letter letter) (List.takeWhile_prefix _) ?_ ?_ ?_
  · exact mem_word.mpr ⟨c, _, rfl, letter, inside⟩
  · intro other start member
    obtain ⟨d, more, same, _, all⟩ := mem_word.mp member
    rw [← (List.cons.inj same).2] at all
    exact length_le_takeWhile start all
  · exact ⟨_, rfl, Terminal.ofWord_gives _⟩

/-- The marks that an equals sign may follow are their own names. -/
theorem equalMark?_cases {single double : Terminal} (found : equalMark? c = some (single, double)) :
    c ∈ comparisonChars ∧ [c] = single.label.toList ∧ [c, '='] = double.label.toList := by
  unfold equalMark? at found
  split at found <;> cases found <;> decide

theorem singleMark?_cases {kind : Terminal} (found : singleMark? c = some kind) :
    c ∈ markChars ∧ [c] = kind.label.toList := by
  unfold singleMark? at found
  split at found <;> cases found <;> decide

/-- Where no mark is found there is none. -/
theorem not_mem_marks (double : equalMark? c = none) (single : singleMark? c = none) :
    c ∉ comparisonChars ∧ c ∉ markChars := by
  have doubles : ∀ d ∈ comparisonChars, equalMark? d ≠ none := by
    simp [comparisonChars, equalMark?]
  have singles : ∀ d ∈ markChars, singleMark? d ≠ none := by
    simp [markChars, singleMark?]
  exact ⟨fun member => doubles c member double, fun member => singles c member single⟩

/-- A mark that an equals sign may follow is matched with that sign if it is there. -/
theorem comparison_matches {other : List Char} (inside : c :: other ∈ comparison.language) :
    other = [] ∨ other = ['='] := by
  obtain ⟨d, _, same | same⟩ := mem_comparison.mp inside
  · exact .inl (List.cons.inj same).2
  · exact .inr (List.cons.inj same).2

theorem cutMark_scans (space : isSpace c = false) (slash : c ≠ '/') (quote : c ≠ stringMark)
    (digit : isDigit c = false) (letter : isLetter c = false) :
    Scans line offset (c :: rest) (cutMark c rest).1 := by
  have listed : candidates c = (if c ∈ markChars then [(mark, Treatment.punctuation)] else []) ++
      (if c ∈ comparisonChars then [(comparison, Treatment.punctuation)] else []) := by
    rw [candidates_eq, space, digit, letter, if_neg slash, if_neg quote]
    simp only [Bool.false_eq_true, if_false, List.nil_append]
  have apart : ∀ d ∈ comparisonChars, d ∉ markChars := by simp [comparisonChars, markChars]
  fun_cases cutMark c rest with
  | case1 single double after found =>
      obtain ⟨member, _, named⟩ := equalMark?_cases found
      rw [if_neg (apart c member), if_pos member] at listed
      refine ScansTo.of_candidate listed ⟨after, rfl⟩ (mem_comparison.mpr ⟨c, member, .inr rfl⟩) ?_
        ⟨double, rfl, named⟩
      intro other start inside
      rcases comparison_matches inside with rfl | rfl
      · exact Nat.zero_le _
      · exact Nat.le_refl _
  | case2 rest single double found alone =>
      obtain ⟨member, named, _⟩ := equalMark?_cases found
      rw [if_neg (apart c member), if_pos member] at listed
      refine ScansTo.of_candidate listed List.nil_prefix
        (mem_comparison.mpr ⟨c, member, .inl rfl⟩) ?_ ⟨single, rfl, named⟩
      intro other start inside
      rcases comparison_matches inside with rfl | rfl
      · exact Nat.le_refl _
      · obtain ⟨back, rfl⟩ := start
        exact absurd rfl (alone back)
  | case3 _ none kind found =>
      obtain ⟨member, named⟩ := singleMark?_cases found
      rw [if_pos member, if_neg fun double => apart c double member] at listed
      refine ScansTo.of_candidate listed List.nil_prefix (mem_mark.mpr ⟨c, member, rfl⟩) ?_
        ⟨kind, rfl, named⟩
      intro other start inside
      obtain ⟨d, _, same⟩ := mem_mark.mp inside
      rw [(List.cons.inj same).2]
  | case4 _ none found =>
      obtain ⟨double, single⟩ := not_mem_marks none found
      rw [if_neg single, if_neg double] at listed
      refine .stuck ?_ c ⟨rest, rfl⟩ rfl rfl
      intro other filled start matched
      obtain ⟨d, other, rfl⟩ := List.exists_cons_of_ne_nil filled
      obtain ⟨rfl, _⟩ := List.cons_prefix_cons.mp start
      obtain ⟨entry, member, _⟩ := matched.of_candidates
      rw [listed] at member
      exact absurd member List.not_mem_nil

/-- **Cutting takes the longest match**, and makes of it what the earliest pattern says. -/
theorem cut_scans (c : Char) (rest : List Char) (line offset : Nat) :
    Scans line offset (c :: rest) (cut c rest).1 := by
  by_cases space : isSpace c = true
  · rw [cut, if_pos space]
    exact cutSpace_scans line offset space
  by_cases slash : c = '/'
  · rw [cut, if_neg space, if_pos slash, slash]
    exact cutSlash_scans line offset
  by_cases quote : c = stringMark
  · rw [cut, if_neg space, if_neg slash, if_pos quote, quote]
    exact cutString_scans line offset
  by_cases digit : isDigit c = true
  · rw [cut, if_neg space, if_neg slash, if_neg quote, if_pos digit]
    exact cutNumber_scans line offset digit
  by_cases letter : isLetter c = true
  · rw [cut, if_neg space, if_neg slash, if_neg quote, if_neg digit, if_pos letter]
    exact cutWord_scans line offset letter
  · rw [cut, if_neg space, if_neg slash, if_neg quote, if_neg digit, if_neg letter]
    exact cutMark_scans line offset (Bool.not_eq_true _ ▸ space) slash quote
      (Bool.not_eq_true _ ▸ digit) (Bool.not_eq_true _ ▸ letter)

end Segment

/-! ### The rules settle the scan -/

theorem TakesLongest.unique {rest text other : List Char} (takes : TakesLongest rest text)
    (otherTakes : TakesLongest rest other) : text = other := by
  have shorter := takes.longest other otherTakes.nonempty otherTakes.start otherTakes.matched
  have longer := otherTakes.longest text takes.nonempty takes.start takes.matched
  have inside := List.prefix_of_prefix_length_le takes.start otherTakes.start longer
  exact inside.eq_of_length (Nat.le_antisymm longer shorter)

theorem EarliestTreatment.unique {text : List Char} {treatment other : Treatment}
    (earliest : EarliestTreatment text treatment) (otherEarliest : EarliestTreatment text other) :
    treatment = other := by
  obtain ⟨before, pattern, behind, split, member, absent⟩ := earliest
  obtain ⟨before', pattern', behind', split', member', absent'⟩ := otherEarliest
  rw [split] at split'
  rcases List.append_eq_append_iff.mp split' with ⟨between, rfl, same⟩ | ⟨between, rfl, same⟩
  · cases between with
    | nil => exact congrArg Prod.snd (List.cons.inj same).1
    | cons entry between =>
        obtain ⟨rfl, _⟩ := List.cons.inj same
        exact absurd member (absent' (pattern, treatment) (by simp))
  · cases between with
    | nil => exact (congrArg Prod.snd (List.cons.inj same).1).symm
    | cons entry between =>
        obtain ⟨rfl, _⟩ := List.cons.inj same
        exact absurd member' (absent (pattern', other) (by simp))

/-- The classes of tokens. -/
def Terminal.all : List Terminal :=
  [parenOpen, parenClose, braceOpen, braceClose, comma, dot, minus, plus, semicolon, star, slash,
    bang, bangEqual, equal, equalEqual, less, lessEqual, greater, greaterEqual, and_, class_, else_,
    false_, for_, fun_, if_, nil_, or_, print_, return_, super_, this_, true_, var_, while_, name,
    number, string, eof, gap]

/-- Classes of tokens with the same name are the same. -/
theorem Terminal.label_injective : Function.Injective Terminal.label := by
  have listed : ∀ kind : Terminal, kind ∈ all := by
    intro kind
    cases kind <;> decide
  have distinct : (all.map label).Nodup := by decide
  intro kind other same
  exact List.inj_on_of_nodup_map distinct (listed kind) (listed other) same

theorem Terminal.spelling_unique {kind other : Terminal} (reserved : kind.Reserved)
    (otherReserved : other.Reserved) (same : kind.spelling = other.spelling) : kind = other := by
  have distinct : (Terminal.reserved.map Prod.fst).Nodup := by decide
  have listed := mem_reserved_iff.mpr ⟨reserved, rfl⟩
  have otherListed := mem_reserved_iff.mpr ⟨otherReserved, same⟩
  have entry := List.inj_on_of_nodup_map distinct listed otherListed rfl
  exact congrArg Prod.snd entry

theorem Treatment.Gives.unique {treatment : Treatment} {text : List Char} {line offset : Nat}
    {result other : Option Scanned} (gives : treatment.Gives text line offset result)
    (otherGives : treatment.Gives text line offset other) : result = other := by
  cases treatment with
  | ignore | string | unterminated | number => exact Eq.trans gives (Eq.symm otherGives)
  | word =>
      obtain ⟨kind, rfl, sort⟩ := gives
      obtain ⟨kind', rfl, sort'⟩ := otherGives
      have same : kind = kind' := by
        rcases sort with ⟨reserved, spelled⟩ | ⟨rfl, free⟩
        · rcases sort' with ⟨reserved', spelled'⟩ | ⟨_, free⟩
          · exact Terminal.spelling_unique reserved reserved' (spelled.symm.trans spelled')
          · exact absurd spelled (free kind reserved)
        · rcases sort' with ⟨reserved', spelled'⟩ | ⟨rfl, _⟩
          · exact absurd spelled' (free kind' reserved')
          · rfl
      rw [same]
  | punctuation =>
      obtain ⟨kind, rfl, named⟩ := gives
      obtain ⟨kind', rfl, named'⟩ := otherGives
      have same := Terminal.label_injective (String.toList_inj.mp (named.symm.trans named'))
      rw [same]

/-- The rules leave no choice: they settle what a step takes and what it contributes. -/
theorem ScansTo.unique {rest text other : List Char} {line offset : Nat}
    {result otherResult : Option Scanned} (scans : ScansTo rest text line offset result)
    (otherScans : ScansTo rest other line offset otherResult) :
    text = other ∧ result = otherResult := by
  cases scans with
  | longest takes treatment earliest gives =>
      cases otherScans with
      | longest takes' treatment' earliest' gives' =>
          obtain rfl := takes.unique takes'
          obtain rfl := earliest.unique earliest'
          exact ⟨rfl, gives.unique gives'⟩
      | stuck none => exact absurd takes.matched (none text takes.nonempty takes.start)
  | stuck none c start single reported =>
      cases otherScans with
      | longest takes => exact absurd takes.matched (none other takes.nonempty takes.start)
      | stuck _ d start' single' reported' =>
          rw [single] at start
          rw [single'] at start'
          obtain ⟨back, rfl⟩ := start
          obtain rfl := (List.cons_prefix_cons.mp start').1
          exact ⟨single.trans single'.symm, reported.trans reported'.symm⟩

/-! ### Nothing is lost -/

namespace Segment

theorem splitClose_append (text : List Char) :
    (splitClose text).1 ++ (splitClose text).2 = text := by
  rcases splitClose_cases text with ⟨body, rest, rfl, cut, _⟩ | ⟨cut, _⟩
  · rw [cut, List.append_assoc]
    rfl
  · rw [cut, List.append_nil]

theorem splitFraction_append (text : List Char) :
    (splitFraction text).1 ++ (splitFraction text).2 = text := by
  fun_cases splitFraction text with
  | case1 d rest _ more after cutting =>
      obtain ⟨rfl, rfl⟩ := Prod.mk.inj cutting
      exact congrArg ('.' :: d :: ·) List.takeWhile_append_dropWhile
  | case2 => rfl
  | case3 => rfl

/-- The first segment and what follows it make up the text. -/
theorem cut_append (c : Char) (rest : List Char) :
    (cut c rest).1.chars ++ (cut c rest).2 = c :: rest := by
  have while_append : ∀ test, rest.takeWhile test ++ rest.dropWhile test = rest :=
    fun test => List.takeWhile_append_dropWhile
  unfold cut
  split
  · exact congrArg (c :: ·) (while_append isSpace)
  split
  · next slash =>
    subst slash
    fun_cases cutSlash rest with
    | case1 rest body after cutting =>
        obtain ⟨rfl, rfl⟩ := Prod.mk.inj cutting
        exact congrArg ('/' :: '/' :: ·) List.takeWhile_append_dropWhile
    | case2 rest body after cutting =>
        have whole := splitClose_append rest
        rw [cutting] at whole
        exact congrArg ('/' :: '*' :: ·) whole
    | case3 => rfl
  split
  · next quote =>
    subst quote
    have whole := while_append (· != stringMark)
    fun_cases cutString rest with
    | case1 body cutting =>
        obtain ⟨rfl, ended⟩ := Prod.mk.inj cutting
        rw [ended] at whole
        exact congrArg (stringMark :: ·) whole
    | case2 body mark after cutting =>
        obtain ⟨rfl, ended⟩ := Prod.mk.inj cutting
        rw [ended] at whole
        simpa using whole
  split
  · have whole := splitFraction_append (rest.dropWhile isDigit)
    show c :: rest.takeWhile isDigit ++ (splitFraction (rest.dropWhile isDigit)).1 ++
      (splitFraction (rest.dropWhile isDigit)).2 = c :: rest
    rw [List.append_assoc, whole, List.cons_append, while_append]
  split
  · exact congrArg (c :: ·) (while_append isWordChar)
  · fun_cases cutMark c rest <;> rfl

end Segment

/-! ### Scans -/

/-- A scan from a place on, step by step: the texts that the steps take, and what they contribute.
Each step starts where the one before it ended. -/
inductive LongestMatches :
    (rest : List Char) → (line offset : Nat) → List (List Char) → List Scanned → Prop
  | ends (line offset : Nat) :
      LongestMatches [] line offset [] [.token (Scan.closing line offset)]
  | step {rest text : List Char} {line offset : Nat} {result : Option Scanned}
      {texts : List (List Char)} {scanned : List Scanned}
      (first : ScansTo rest text line offset result)
      (further : LongestMatches (rest.drop text.length) (line + text.count '\n')
        (offset + text.length) texts scanned) :
      LongestMatches rest line offset (text :: texts) (result.toList ++ scanned)

/-- At the end of the text there is no step. -/
theorem ScansTo.not_at_end {text : List Char} {line offset : Nat} {result : Option Scanned} :
    ¬ ScansTo [] text line offset result := by
  intro scans
  cases scans with
  | longest takes => exact takes.nonempty (List.prefix_nil.mp takes.start)
  | stuck _ c start single =>
      rw [single] at start
      exact absurd (List.prefix_nil.mp start) (List.cons_ne_nil _ _)

theorem LongestMatches.unique {rest : List Char} {line offset : Nat}
    {texts others : List (List Char)} {scanned otherScanned : List Scanned}
    (matching : LongestMatches rest line offset texts scanned)
    (otherMatching : LongestMatches rest line offset others otherScanned) :
    texts = others ∧ scanned = otherScanned := by
  induction matching generalizing others otherScanned with
  | ends line offset =>
      cases otherMatching with
      | ends => exact ⟨rfl, rfl⟩
      | step first => exact absurd first ScansTo.not_at_end
  | step first further ih =>
      cases otherMatching with
      | ends => exact absurd first ScansTo.not_at_end
      | step otherFirst otherFurther =>
          obtain ⟨rfl, rfl⟩ := first.unique otherFirst
          obtain ⟨rfl, rfl⟩ := ih otherFurther
          exact ⟨rfl, rfl⟩

theorem Scan.ofSegments_cons (segment : Segment) (more : List Segment) (line offset : Nat) :
    ofSegments (segment :: more) line offset = (ofSegment segment line offset).toList ++
      ofSegments more (line + lineFeeds segment.chars) (offset + segment.chars.length) := by
  rw [ofSegments]
  cases ofSegment segment line offset with
  | none => rfl
  | some scanned => rfl

/-- The induction follows the cutting: every segment that is cut off is a step. -/
theorem longestMatches_segments (text : List Char) (line offset : Nat) :
    LongestMatches text line offset ((segments text).map (·.chars))
      (Scan.ofSegments (segments text) line offset) := by
  fun_induction segments text generalizing line offset with
  | case1 => exact .ends line offset
  | case2 c rest ih =>
      rw [List.map_cons, Scan.ofSegments_cons]
      refine .step (Segment.cut_scans c rest line offset) ?_
      have behind : (c :: rest).drop (Segment.cut c rest).1.chars.length =
          (Segment.cut c rest).2 := by
        conv_lhs => rw [← Segment.cut_append c rest]
        exact List.drop_left
      rw [behind]
      exact ih _ _

/-- **Scanning is longest match.** The texts that are taken one after the other and what becomes of
them are those that the rules settle, and no others. -/
theorem scan_longestMatch (text : String) (texts : List (List Char)) (scanned : List Scanned) :
    LongestMatches text.toList 1 0 texts scanned ↔
      texts = (segments text.toList).map (·.chars) ∧ scanned = scan text := by
  constructor
  · intro matching
    exact matching.unique (longestMatches_segments text.toList 1 0)
  · rintro ⟨rfl, rfl⟩
    exact longestMatches_segments text.toList 1 0

end Lox
