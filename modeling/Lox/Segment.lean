/-
**Segments.** The division of a text into blanks, comments, tokens and what is neither.

* `firstSegment` cuts the first segment off a text that is not empty.
* `segments` cuts the whole text.

Every segment is the longest stretch that has the form of a blank, a comment, a token or an
unterminated string; where no such form fits, a single character is stuck.
-/

import Lox.Token

namespace Lox

/-- What a segment of a text is. -/
inductive Segment.Form where
  /-- Blanks or a comment. -/
  | ignored
  /-- A token of the given class. -/
  | token (kind : Terminal)
  /-- A string without a closing mark. -/
  | unterminated
  /-- A character that begins nothing. -/
  | stuck
deriving DecidableEq

/-- A stretch of text. -/
structure Segment where
  form : Segment.Form
  chars : List Char
deriving DecidableEq

namespace Segment

/-! ### Character classes -/

/-- The characters between tokens: the blank, and the controls from the tab to the carriage
return. -/
def isSpace (c : Char) : Bool :=
  c == ' ' || (9 ≤ c.toNat && c.toNat ≤ 13)

/-- The characters that end a line comment: those from the line feed to the carriage return. -/
def endsLine (c : Char) : Bool :=
  10 ≤ c.toNat && c.toNat ≤ 13

/-- The ten digits. -/
def isDigit (c : Char) : Bool :=
  '0' ≤ c && c ≤ '9'

/-- The characters that begin a word. -/
def isLetter (c : Char) : Bool :=
  ('a' ≤ c && c ≤ 'z') || ('A' ≤ c && c ≤ 'Z') || c == '_'

/-- The characters that continue a word. -/
def isWordChar (c : Char) : Bool :=
  isLetter c || isDigit c

/-- The mark around strings. -/
def stringMark : Char := '\x22'

/-! ### Cutting -/

/-- The text up to and with the first close of a comment, and what follows it; all of the text if
there is no close. -/
def splitClose : List Char → List Char × List Char
  | [] => ([], [])
  | '*' :: '/' :: rest => (['*', '/'], rest)
  | c :: rest =>
    let (inside, after) := splitClose rest
    (c :: inside, after)

/-- The text up to the first character that fails a test, and the rest. -/
def splitWhile (test : Char → Bool) (text : List Char) : List Char × List Char :=
  (text.takeWhile test, text.dropWhile test)

/-- The fraction that follows the digits of a numeral, and the rest: a point counts only in front of
a digit. -/
def splitFraction : List Char → List Char × List Char
  | '.' :: d :: rest =>
    if isDigit d then
      let (more, after) := splitWhile isDigit rest
      ('.' :: d :: more, after)
    else ([], '.' :: d :: rest)
  | text => ([], text)

/-- The mark that a character is by itself. -/
def singleMark? : Char → Option Terminal
  | '(' => some .parenOpen | ')' => some .parenClose
  | '\x7b' => some .braceOpen | '\x7d' => some .braceClose
  | ',' => some .comma | '.' => some .dot | '-' => some .minus | '+' => some .plus
  | ';' => some .semicolon | '*' => some .star | '/' => some .slash
  | _ => none

/-- The marks that a character is alone, and with an equals sign after it. -/
def equalMark? : Char → Option (Terminal × Terminal)
  | '!' => some (.bang, .bangEqual)
  | '=' => some (.equal, .equalEqual)
  | '<' => some (.less, .lessEqual)
  | '>' => some (.greater, .greaterEqual)
  | _ => none

/-- The segment of a mark, or of a character that begins nothing. -/
def cutMark (c : Char) (rest : List Char) : Segment × List Char :=
  match equalMark? c, rest with
  | some (_, double), '=' :: after => (⟨.token double, [c, '=']⟩, after)
  | some (single, _), _ => (⟨.token single, [c]⟩, rest)
  | none, _ =>
    match singleMark? c with
    | some kind => (⟨.token kind, [c]⟩, rest)
    | none => (⟨.stuck, [c]⟩, rest)

/-- The segment of a comment or a slash. -/
def cutSlash : List Char → Segment × List Char
  | '/' :: rest =>
    let (body, after) := splitWhile (fun c => !endsLine c) rest
    (⟨.ignored, '/' :: '/' :: body⟩, after)
  | '*' :: rest =>
    let (body, after) := splitClose rest
    (⟨.ignored, '/' :: '*' :: body⟩, after)
  | rest => (⟨.token .slash, ['/']⟩, rest)

/-- The segment of a string, closed or not. -/
def cutString (rest : List Char) : Segment × List Char :=
  let (body, after) := splitWhile (· != stringMark) rest
  match after with
  | [] => (⟨.unterminated, stringMark :: body⟩, [])
  | mark :: after => (⟨.token .string, stringMark :: body ++ [mark]⟩, after)

/-- The segment of a numeral. -/
def cutNumber (c : Char) (rest : List Char) : Segment × List Char :=
  let (digits, after) := splitWhile isDigit rest
  let (fraction, after) := splitFraction after
  (⟨.token .number, c :: digits ++ fraction⟩, after)

/-- The segment of a word. -/
def cutWord (c : Char) (rest : List Char) : Segment × List Char :=
  let (more, after) := splitWhile isWordChar rest
  (⟨.token (.ofWord (String.ofList (c :: more))), c :: more⟩, after)

/-- The segment of a run of blanks. -/
def cutSpace (c : Char) (rest : List Char) : Segment × List Char :=
  let (more, after) := splitWhile isSpace rest
  (⟨.ignored, c :: more⟩, after)

/-- The first segment of the text with the given first character and rest, and what follows it. -/
def cut (c : Char) (rest : List Char) : Segment × List Char :=
  if isSpace c then cutSpace c rest
  else if c = '/' then cutSlash rest
  else if c = stringMark then cutString rest
  else if isDigit c then cutNumber c rest
  else if isLetter c then cutWord c rest
  else cutMark c rest

/-! ### What is left is shorter -/

theorem length_splitWhile_le (test : Char → Bool) (text : List Char) :
    (splitWhile test text).2.length ≤ text.length :=
  (List.dropWhile_sublist test).length_le

theorem length_splitClose_le (text : List Char) : (splitClose text).2.length ≤ text.length := by
  fun_induction splitClose text with
  | case1 => simp
  | case2 rest => simp; omega
  | case3 c rest _ inside after cutting ih =>
    rw [cutting] at ih
    simp at ih ⊢
    omega

theorem length_splitFraction_le (text : List Char) :
    (splitFraction text).2.length ≤ text.length := by
  fun_cases splitFraction text with
  | case1 d rest _ more after cutting =>
    have shorter := length_splitWhile_le isDigit rest
    rw [cutting] at shorter
    simp at shorter ⊢
    omega
  | case2 => simp
  | case3 => simp

theorem length_cutMark_le (c : Char) (rest : List Char) :
    (cutMark c rest).2.length ≤ rest.length := by
  fun_cases cutMark c rest <;> simp

theorem length_cutSlash_le (rest : List Char) : (cutSlash rest).2.length ≤ rest.length := by
  fun_cases cutSlash rest with
  | case1 rest body after cutting =>
    have shorter := length_splitWhile_le (fun c => !endsLine c) rest
    rw [cutting] at shorter
    simp at shorter ⊢
    omega
  | case2 rest body after cutting =>
    have shorter := length_splitClose_le rest
    rw [cutting] at shorter
    simp at shorter ⊢
    omega
  | case3 => simp

theorem length_cutString_le (rest : List Char) : (cutString rest).2.length ≤ rest.length := by
  have shorter := length_splitWhile_le (· != stringMark) rest
  fun_cases cutString rest with
  | case1 => simp
  | case2 body mark after cutting =>
    rw [cutting] at shorter
    simp at shorter ⊢
    omega

theorem length_cutNumber_le (c : Char) (rest : List Char) :
    (cutNumber c rest).2.length ≤ rest.length :=
  Nat.le_trans (length_splitFraction_le _) (length_splitWhile_le isDigit rest)

theorem length_cut_le (c : Char) (rest : List Char) : (cut c rest).2.length ≤ rest.length := by
  unfold cut
  split
  · exact length_splitWhile_le isSpace rest
  split
  · exact length_cutSlash_le rest
  split
  · exact length_cutString_le rest
  split
  · exact length_cutNumber_le c rest
  split
  · exact length_splitWhile_le isWordChar rest
  · exact length_cutMark_le c rest

end Segment

/-- The segments of a text, in order. -/
def segments : List Char → List Segment
  | [] => []
  | c :: rest => (Segment.cut c rest).1 :: segments (Segment.cut c rest).2
termination_by text => text.length
decreasing_by exact Nat.lt_succ_of_le (Segment.length_cut_le c rest)

end Lox
