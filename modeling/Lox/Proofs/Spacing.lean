/-
**Spacing.** The layout between the tokens of a text does not matter to a scan.

* `Segment.Recuts`: a segment is cut off again wherever its characters stand in front of a blank or
  at the end of a text. `Segment.cut_recuts`: so it is for every token, whatever it was cut off of.
  A token of two characters in front of a third, a point in front of a digit and a slash in front of
  another one are thereby kept apart.
* `segments_spaced`: tokens with a blank behind each of them are cut into these tokens and blanks.
* `scanText_spaced`: joining the lexemes of a text with single blanks and scanning them again gives
  the same tokens, but for their places, and no issue.
-/

import Lox.Proofs.Division
import Lox.Proofs.Filing
import Lox.Proofs.Written

namespace Lox

namespace Segment

/-! ### Cutting again -/

/-- What stands behind a token: nothing, or a blank. -/
def Sealed (behind : List Char) : Prop :=
  ∀ c ∈ behind.head?, c = ' '

/-- What a blank fails, what stands behind a token does not pass. -/
theorem Sealed.stop {behind : List Char} (sealed : Sealed behind) {test : Char → Bool}
    (fails : test ' ' = false) : ∀ c ∈ behind.head?, test c = false := by
  intro c first
  rw [sealed c first, fails]

theorem Sealed.nil : Sealed [] := by
  rintro _ ⟨⟩

/-- A segment that does not begin with a blank, and that is cut off again in front of one. -/
def Recuts (segment : Segment) : Prop :=
  ∃ c more, segment.chars = c :: more ∧ isSpace c = false ∧
    ∀ behind, Sealed behind → cut c (more ++ behind) = (segment, behind)

variable {c : Char} {rest behind : List Char} {kind : Terminal}

theorem cutSlash_again (token : (cutSlash rest).1.form = .token kind) (sealed : Sealed behind) :
    ∃ more, (cutSlash rest).1.chars = '/' :: more ∧
      cutSlash (more ++ behind) = ((cutSlash rest).1, behind) := by
  have alone : cutSlash behind = (⟨.token .slash, ['/']⟩, behind) := by
    fun_cases cutSlash behind with
    | case1 => exact absurd (sealed '/' rfl) (by decide)
    | case2 => exact absurd (sealed '*' rfl) (by decide)
    | case3 => rfl
  fun_cases cutSlash rest with
  | case1 rest body after cutting => cases token
  | case2 rest body after cutting => cases token
  | case3 => exact ⟨[], rfl, alone⟩

theorem cutString_again (token : (cutString rest).1.form = .token kind) (behind : List Char) :
    ∃ more, (cutString rest).1.chars = stringMark :: more ∧
      cutString (more ++ behind) = ((cutString rest).1, behind) := by
  fun_cases cutString rest with
  | case1 body cutting =>
      rw [cutString, cutting] at token
      cases token
  | case2 body mark after cutting =>
      obtain ⟨rfl, dropped⟩ := Prod.mk.inj cutting
      have closing : (mark != stringMark) = false := by
        have stopped := List.head?_dropWhile_not (· != stringMark) rest
        rw [dropped] at stopped
        exact stopped
      have inside : ∀ c ∈ rest.takeWhile (· != stringMark), (c != stringMark) = true :=
        fun c member => List.mem_takeWhile_imp (p := (· != stringMark)) member
      refine ⟨rest.takeWhile (· != stringMark) ++ [mark], rfl, ?_⟩
      rw [List.append_assoc, cutString, splitWhile_append inside (by rintro _ ⟨⟩; exact closing)]
      rfl

theorem splitFraction_again (text : List Char) (sealed : Sealed behind) :
    splitFraction ((splitFraction text).1 ++ behind) = ((splitFraction text).1, behind) := by
  have none : splitFraction behind = ([], behind) := by
    fun_cases splitFraction behind with
    | case1 => exact absurd (sealed '.' rfl) (by decide)
    | case2 => rfl
    | case3 => rfl
  fun_cases splitFraction text with
  | case1 d rest digit more after cutting =>
      obtain ⟨rfl, rfl⟩ := Prod.mk.inj cutting
      have digits : ∀ c ∈ rest.takeWhile isDigit, isDigit c = true :=
        fun c member => List.mem_takeWhile_imp member
      show splitFraction ('.' :: d :: (rest.takeWhile isDigit ++ behind)) = _
      rw [splitFraction, if_pos digit, splitWhile_append digits (sealed.stop (by decide))]
  | case2 => exact none
  | case3 => exact none

/-- A fraction begins with a point. -/
theorem splitFraction_stop (text : List Char) (sealed : Sealed behind) :
    ∀ c ∈ ((splitFraction text).1 ++ behind).head?, isDigit c = false := by
  fun_cases splitFraction text with
  | case1 =>
      rintro _ ⟨⟩
      decide
  | case2 => exact sealed.stop (by decide)
  | case3 => exact sealed.stop (by decide)

theorem cutNumber_again (c : Char) (rest : List Char) (sealed : Sealed behind) :
    ∃ more, (cutNumber c rest).1.chars = c :: more ∧
      cutNumber c (more ++ behind) = ((cutNumber c rest).1, behind) := by
  have digits : ∀ c ∈ rest.takeWhile isDigit, isDigit c = true :=
    fun c member => List.mem_takeWhile_imp member
  refine ⟨rest.takeWhile isDigit ++ (splitFraction (rest.dropWhile isDigit)).1, rfl, ?_⟩
  rw [List.append_assoc, cutNumber, splitWhile_append digits (splitFraction_stop _ sealed)]
  simp only [splitFraction_again _ sealed]
  rfl

theorem cutWord_again (c : Char) (rest : List Char) (sealed : Sealed behind) :
    ∃ more, (cutWord c rest).1.chars = c :: more ∧
      cutWord c (more ++ behind) = ((cutWord c rest).1, behind) := by
  have letters : ∀ c ∈ rest.takeWhile isWordChar, isWordChar c = true :=
    fun c member => List.mem_takeWhile_imp member
  refine ⟨rest.takeWhile isWordChar, rfl, ?_⟩
  rw [cutWord, splitWhile_append letters (sealed.stop (by decide))]
  rfl

theorem cutMark_again (token : (cutMark c rest).1.form = .token kind) (sealed : Sealed behind) :
    ∃ more, (cutMark c rest).1.chars = c :: more ∧
      cutMark c (more ++ behind) = ((cutMark c rest).1, behind) := by
  have apart : ∀ after, behind ≠ '=' :: after := by
    rintro after rfl
    exact absurd (sealed '=' rfl) (by decide)
  fun_cases cutMark c rest with
  | case1 single double after found => exact ⟨['='], rfl, by simp [cutMark, found]⟩
  | case2 single double other found =>
      refine ⟨[], rfl, ?_⟩
      rw [List.nil_append]
      fun_cases cutMark c behind <;> simp_all
  | case3 _ none kind found => exact ⟨[], rfl, by simp [cutMark, none, found]⟩
  | case4 _ none missing =>
      simp [cutMark, none, missing] at token

/-- By the first character of a text one of the cutters is chosen, whatever follows it. -/
theorem Recuts.of_cutter {cutter : List Char → Segment × List Char}
    (chosen : ∀ text, cut c text = cutter text) (first : ¬ isSpace c = true)
    (again : ∀ behind, Sealed behind → ∃ more, (cutter rest).1.chars = c :: more ∧
      cutter (more ++ behind) = ((cutter rest).1, behind)) : (cut c rest).1.Recuts := by
  obtain ⟨more, chars, _⟩ := again [] .nil
  rw [chosen]
  refine ⟨c, more, chars, (Bool.not_eq_true _).mp first, fun behind sealed => ?_⟩
  obtain ⟨others, same, cutting⟩ := again behind sealed
  obtain rfl : more = others := (List.cons.inj (chars.symm.trans same)).2
  rw [chosen, cutting]

/-- **A token is cut off again in front of a blank.** -/
theorem cut_recuts (token : (cut c rest).1.form = .token kind) : (cut c rest).1.Recuts := by
  by_cases space : isSpace c = true
  · rw [cut, if_pos space] at token
    cases token
  by_cases slash : c = '/'
  · subst slash
    have chosen : ∀ text, cut '/' text = cutSlash text := fun text => by
      rw [cut, if_neg space, if_pos rfl]
    rw [chosen] at token
    exact .of_cutter chosen space fun behind sealed => cutSlash_again token sealed
  by_cases quote : c = stringMark
  · subst quote
    have chosen : ∀ text, cut stringMark text = cutString text := fun text => by
      rw [cut, if_neg space, if_neg slash, if_pos rfl]
    rw [chosen] at token
    exact .of_cutter chosen space fun behind _ => cutString_again token behind
  by_cases digit : isDigit c = true
  · have chosen : ∀ text, cut c text = cutNumber c text := fun text => by
      rw [cut, if_neg space, if_neg slash, if_neg quote, if_pos digit]
    exact .of_cutter chosen space fun behind sealed => cutNumber_again c rest sealed
  by_cases letter : isLetter c = true
  · have chosen : ∀ text, cut c text = cutWord c text := fun text => by
      rw [cut, if_neg space, if_neg slash, if_neg quote, if_neg digit, if_pos letter]
    exact .of_cutter chosen space fun behind sealed => cutWord_again c rest sealed
  · have chosen : ∀ text, cut c text = cutMark c text := fun text => by
      rw [cut, if_neg space, if_neg slash, if_neg quote, if_neg digit, if_neg letter]
    rw [chosen] at token
    exact .of_cutter chosen space fun behind sealed => cutMark_again token sealed

/-- Whether a segment is a token. -/
def isToken (segment : Segment) : Bool :=
  match segment.form with
  | .token _ => true
  | _ => false

theorem isToken_iff {segment : Segment} :
    segment.isToken = true ↔ ∃ kind, segment.form = .token kind := by
  unfold isToken
  split <;> simp_all

/-- The blank between two tokens. -/
def blank : Segment :=
  ⟨.ignored, [' ']⟩

/-- A single blank is a segment. -/
theorem cut_blank {rest : List Char} (stop : ∀ c ∈ rest.head?, isSpace c = false) :
    cut ' ' rest = (blank, rest) := by
  rw [cut, if_pos (by decide), cutSpace, ← List.nil_append rest,
    splitWhile_append (List.forall_mem_nil _) stop]
  rfl

end Segment

/-! ### Texts with blanks -/

open Segment

/-- Segments written out with a blank behind each of them. -/
def spacedChars (tokens : List Segment) : List Char :=
  tokens.flatMap fun token => token.chars ++ [' ']

/-- The tokens of a text are cut off again. -/
theorem segments_recut (text : List Char) :
    ∀ segment ∈ (segments text).filter isToken, segment.Recuts := by
  intro segment member
  obtain ⟨inside, token⟩ := List.mem_filter.mp member
  obtain ⟨kind, form⟩ := isToken_iff.mp token
  fun_induction segments text with
  | case1 => exact absurd inside List.not_mem_nil
  | case2 c rest ih =>
      rcases List.mem_cons.mp inside with rfl | later
      · exact cut_recuts form
      · exact ih (List.mem_filter.mpr ⟨later, token⟩) later

theorem head_spacedChars {tokens : List Segment} (recut : ∀ token ∈ tokens, token.Recuts) :
    ∀ c ∈ (spacedChars tokens).head?, isSpace c = false := by
  cases tokens with
  | nil => rintro _ ⟨⟩
  | cons token more =>
      obtain ⟨c, others, chars, first, _⟩ := recut token List.mem_cons_self
      rw [spacedChars, List.flatMap_cons, chars]
      rintro _ ⟨⟩
      exact first

/-- **Tokens with blanks behind them are cut into these tokens and blanks.** -/
theorem segments_spaced {tokens : List Segment} (recut : ∀ token ∈ tokens, token.Recuts) :
    segments (spacedChars tokens) = tokens.flatMap fun token => [token, blank] := by
  induction tokens with
  | nil => rw [spacedChars, List.flatMap_nil, segments, List.flatMap_nil]
  | cons token more ih =>
      obtain ⟨first, others⟩ := List.forall_mem_cons.mp recut
      obtain ⟨c, rest, chars, _, again⟩ := first
      have whole : spacedChars (token :: more) = c :: (rest ++ ' ' :: spacedChars more) := by
        rw [spacedChars, List.flatMap_cons, chars, List.append_assoc]
        rfl
      have sealed : Sealed (' ' :: spacedChars more) := by
        rintro _ ⟨⟩
        rfl
      rw [whole, segments, again _ sealed, segments, cut_blank (head_spacedChars others), ih others]
      rfl

/-! ### Tokens without their places -/

/-- The token that a segment is, without its place. -/
def Segment.unplaced? (segment : Segment) : Option Token :=
  match segment.form with
  | .token kind =>
    some ⟨kind, String.ofList segment.chars, Scan.literal kind segment.chars, 0, 0⟩
  | _ => none

theorem ofSegments_unplaced (division : List Segment) (line offset : Nat) :
    (tokensOf (Scan.ofSegments division line offset)).map Token.unplaced =
      division.filterMap unplaced? ++ [Scan.closing 0 0] := by
  induction division generalizing line offset with
  | nil => rfl
  | cons segment more ih =>
      rw [Scan.ofSegments_cons, tokensOf, List.filterMap_append, List.map_append]
      obtain ⟨form, chars⟩ := segment
      cases form with
      | token kind => exact congrArg (Token.mk kind _ _ 0 0 :: ·) (ih _ _)
      | ignored | unterminated | stuck => exact ih _ _

/-- Blanks are no tokens, and what is between the tokens of a text is none either. -/
theorem filterMap_spaced (division : List Segment) :
    ((division.filter isToken).flatMap fun token => [token, blank]).filterMap unplaced? =
      division.filterMap unplaced? := by
  induction division with
  | nil => rfl
  | cons segment more ih =>
      obtain ⟨form, chars⟩ := segment
      cases form with
      | token kind => exact congrArg (Token.mk kind _ _ 0 0 :: ·) ih
      | ignored | unterminated | stuck => exact ih

theorem ofSegments_faultless {division : List Segment}
    (fine : ∀ segment ∈ division, segment.isToken = true ∨ segment.form = .ignored)
    (line offset : Nat) : faultsOf (Scan.ofSegments division line offset) = [] := by
  induction division generalizing line offset with
  | nil => rfl
  | cons segment more ih =>
      obtain ⟨first, others⟩ := List.forall_mem_cons.mp fine
      rw [Scan.ofSegments_cons, faultsOf, List.filterMap_append]
      obtain ⟨form, chars⟩ := segment
      cases form with
      | ignored | token kind => exact ih others _ _
      | unterminated | stuck => simp [isToken] at first

/-- The lexemes of tokens joined with single blanks. -/
def spaced (tokens : List Token) : String :=
  " ".intercalate (tokens.map Token.lexeme)

/-- The end of a text counts as a token without characters, so that there is a blank behind every
other token. -/
theorem intercalate_concat_nil (parts : List (List Char)) :
    [' '].intercalate (parts ++ [[]]) = parts.flatMap (· ++ [' ']) := by
  induction parts with
  | nil => rfl
  | cons part more ih =>
      rw [List.flatMap_cons, ← ih]
      cases more with
      | nil => simp
      | cons next others => exact List.intercalate_cons_cons

theorem lexemes_unplaced (division : List Segment) :
    (division.filterMap unplaced?).map (fun token => token.lexeme.toList) =
      (division.filter isToken).map (·.chars) := by
  induction division with
  | nil => rfl
  | cons segment more ih =>
      obtain ⟨form, chars⟩ := segment
      cases form with
      | token kind => exact congr (congrArg List.cons String.toList_ofList) ih
      | ignored | unterminated | stuck => exact ih

theorem spaced_toList {tokens : List Token} {division : List Segment}
    (same : tokens.map Token.unplaced = division.filterMap unplaced? ++ [Scan.closing 0 0]) :
    (spaced tokens).toList = spacedChars (division.filter isToken) := by
  have lexemes : (tokens.map Token.lexeme).map String.toList =
      (tokens.map Token.unplaced).map fun token => token.lexeme.toList := by
    rw [List.map_map, List.map_map]
    rfl
  have closing : (Scan.closing 0 0).lexeme.toList = [] := rfl
  rw [spaced, String.toList_intercalate, lexemes, same, List.map_append, lexemes_unplaced,
    List.map_singleton, closing]
  show [' '].intercalate _ = _
  rw [intercalate_concat_nil, List.flatMap_map]
  rfl

/-! ### Reports -/

/-- The text of the tokens of a text, with blanks between them. -/
theorem segments_spaced_scan (text : String) :
    segments (spaced (tokensOf (scan text))).toList =
      ((segments text.toList).filter isToken).flatMap fun token => [token, blank] := by
  have same := ofSegments_unplaced (segments text.toList) 1 0
  rw [scan, spaced_toList same, segments_spaced (segments_recut text.toList)]

theorem scan_spaced_faultless (text : String) :
    faultsOf (scan (spaced (tokensOf (scan text)))) = [] := by
  rw [scan, segments_spaced_scan]
  refine ofSegments_faultless (fun segment member => ?_) 1 0
  obtain ⟨token, inside, here⟩ := List.mem_flatMap.mp member
  rcases List.mem_cons.mp here with rfl | last
  · exact .inl (List.mem_filter.mp inside).2
  · obtain rfl := List.mem_singleton.mp last
    exact .inr rfl

namespace Report

/-- **Layout does not matter.** If the tokens of a text are joined with single blanks and scanned
again, on whatever report, the tokens are the same, but for their lines and offsets, and there is
nothing to complain about. -/
theorem scanText_spaced {report : Report} {text : String} {tokens : List Token}
    (scanned : (report.scanText text).2 = some tokens) (other : Report) :
    ∃ again, (other.scanText (spaced tokens)).2 = some again ∧
      again.map Token.unplaced = tokens.map Token.unplaced ∧
      (other.scanText (spaced tokens)).1.issues = other.issues := by
  rw [scanText_conclude] at scanned
  obtain rfl := conclude_found scanned
  rw [scanText_faultless other (scan_spaced_faultless text)]
  refine ⟨_, rfl, ?_, rfl⟩
  rw [scan, segments_spaced_scan, ofSegments_unplaced, filterMap_spaced]
  exact (ofSegments_unplaced (segments text.toList) 1 0).symm

end Report

/-- A text whose tokens would be others if less stood between them, or more. -/
def crowdedTokens : String :=
  "a/**/b 1.2.3. 4/ /5 = ==!= <\t<= // gone\n\"no // comment\nhere\"orchid or@7"

theorem Report.scanText_spaced_crowded :
    (({} : Report).scanText crowdedTokens).1.issues.size = 1 ∧
    ∃ tokens, (({} : Report).scanText crowdedTokens).2 = some tokens ∧
      ∀ other : Report, ∃ again, (other.scanText (spaced tokens)).2 = some again ∧
        again.map Token.unplaced = tokens.map Token.unplaced ∧
        (other.scanText (spaced tokens)).1.issues = other.issues := by
  have whole : (({} : Report).scanText crowdedTokens).2.isSome = true := by decide +kernel
  obtain ⟨tokens, scanned⟩ := Option.isSome_iff_exists.mp whole
  exact ⟨by decide +kernel, tokens, scanned, scanText_spaced scanned⟩

end Lox
