/-
**Patterns.** The forms of segments as regular expressions, and the languages of these.

* `Pattern` are the regular expressions over sets of characters, `Pattern.language` the texts that
  they match.
* `lexicon` lists the ten patterns of the language in the order in which they count, each with what
  is done with a match.
* One lemma for each pattern says what it matches in terms of the characters of a text
  (`mem_number`, `mem_closedComment`, ...). A comment is open as long as no star in it is followed
  by a slash (`Unclosed`).
-/

import Lox.Segment
import Mathlib.Computability.Language
import Mathlib.Data.List.Chain
import Mathlib.Data.List.TakeWhile

namespace Lox

open scoped Computability

/-! ### Sets of characters -/

namespace Segment

theorem isSpace_iff {c : Char} :
    isSpace c = true ↔ c.toNat = 32 ∨ (9 ≤ c.toNat ∧ c.toNat ≤ 13) := by
  have blank : c = ' ' ↔ c.toNat = 32 := Char.toNat_inj.symm
  simp [isSpace, blank]

theorem isDigit_iff {c : Char} : isDigit c = true ↔ 48 ≤ c.toNat ∧ c.toNat ≤ 57 := by
  simp [isDigit, Char.le_def, UInt32.le_iff_toNat_le]

theorem isLetter_iff {c : Char} : isLetter c = true ↔
    (97 ≤ c.toNat ∧ c.toNat ≤ 122) ∨ (65 ≤ c.toNat ∧ c.toNat ≤ 90) ∨ c.toNat = 95 := by
  have underscore : c = '_' ↔ c.toNat = 95 := Char.toNat_inj.symm
  simp [isLetter, Char.le_def, UInt32.le_iff_toNat_le, underscore, or_assoc]

/-- Characters that pass a test, in front of one that does not. -/
theorem splitWhile_append {test : Char → Bool} {front back : List Char}
    (all : ∀ c ∈ front, test c = true) (stop : ∀ c ∈ back.head?, test c = false) :
    splitWhile test (front ++ back) = (front, back) := by
  have none : back.takeWhile test = [] ∧ back.dropWhile test = back := by
    cases back with
    | nil => exact ⟨rfl, rfl⟩
    | cons c more =>
        have fails : ¬ test c = true := by
          rw [stop c rfl]
          exact Bool.false_ne_true
        exact ⟨List.takeWhile_cons_of_neg fails, List.dropWhile_cons_of_neg fails⟩
  rw [splitWhile, List.takeWhile_append_of_pos all, List.dropWhile_append_of_pos all, none.1,
    none.2, List.append_nil]

end Segment

/-- A set of characters: those in some ranges of code points, or, inverted, all others. -/
structure CharSet where
  ranges : List (Nat × Nat)
  inverted : Bool := false

namespace CharSet

/-- Whether a character belongs to a set. -/
def has (set : CharSet) (c : Char) : Bool :=
  (set.ranges.any fun range => range.1 ≤ c.toNat && c.toNat ≤ range.2) != set.inverted

/-- The given characters. -/
def among (chars : List Char) : CharSet where
  ranges := chars.map fun c => (c.toNat, c.toNat)

/-- All characters but the given ones. -/
def allBut (chars : List Char) : CharSet where
  ranges := chars.map fun c => (c.toNat, c.toNat)
  inverted := true

/-- The blank, and the controls from the tab to the carriage return. -/
def space : CharSet where
  ranges := [(0x09, 0x0D), (0x20, 0x20)]

/-- What can stand in a line: not the controls from the line feed to the carriage return. -/
def inLine : CharSet where
  ranges := [(0x0A, 0x0D)]
  inverted := true

/-- The digits. -/
def digit : CharSet where
  ranges := [(0x30, 0x39)]

/-- The letters and the underscore. -/
def initial : CharSet where
  ranges := [(0x41, 0x5A), (0x61, 0x7A), (0x5F, 0x5F)]

/-- The letters, the digits and the underscore. -/
def word : CharSet where
  ranges := [(0x41, 0x5A), (0x61, 0x7A), (0x30, 0x39), (0x5F, 0x5F)]

theorem mem_singletons {chars : List Char} {c : Char} :
    ((chars.map fun d => (d.toNat, d.toNat)).any
      fun range => range.1 ≤ c.toNat && c.toNat ≤ range.2) = true ↔ c ∈ chars := by
  rw [List.any_map, List.any_eq_true]
  constructor
  · rintro ⟨d, member, within⟩
    simp only [Function.comp_apply, Bool.and_eq_true, decide_eq_true_eq] at within
    have same : d = c := Char.toNat_inj.mp (Nat.le_antisymm within.1 within.2)
    rwa [← same]
  · intro member
    exact ⟨c, member, by simp⟩

@[simp] theorem has_among {chars : List Char} {c : Char} :
    (among chars).has c = true ↔ c ∈ chars := by
  rw [← mem_singletons]
  simp [has, among]

@[simp] theorem has_allBut {chars : List Char} {c : Char} :
    (allBut chars).has c = true ↔ c ∉ chars := by
  rw [← mem_singletons]
  simp [has, allBut]

theorem has_space (c : Char) : space.has c = Segment.isSpace c := by
  rw [Bool.eq_iff_iff, Segment.isSpace_iff]
  simp only [has, space, List.any_cons, List.any_nil, bne_iff_ne, ne_eq, Bool.or_eq_true,
    Bool.and_eq_true, decide_eq_true_eq, Bool.or_false, Bool.not_eq_false]
  omega

theorem has_inLine (c : Char) : inLine.has c = !Segment.endsLine c := by
  simp [has, inLine, Segment.endsLine]

theorem has_digit (c : Char) : digit.has c = Segment.isDigit c := by
  rw [Bool.eq_iff_iff, Segment.isDigit_iff]
  simp [has, digit]

theorem has_initial (c : Char) : initial.has c = Segment.isLetter c := by
  rw [Bool.eq_iff_iff, Segment.isLetter_iff]
  simp only [has, initial, List.any_cons, List.any_nil, bne_iff_ne, ne_eq, Bool.or_eq_true,
    Bool.and_eq_true, decide_eq_true_eq, Bool.or_false, Bool.not_eq_false]
  omega

theorem has_word (c : Char) : word.has c = Segment.isWordChar c := by
  rw [Segment.isWordChar, ← has_initial, ← has_digit, Bool.eq_iff_iff]
  simp only [has, initial, digit, word, List.any_cons, List.any_nil, bne_iff_ne, ne_eq,
    Bool.or_eq_true, Bool.and_eq_true, decide_eq_true_eq, Bool.or_false, Bool.not_eq_false]
  omega

end CharSet

/-! ### Regular expressions -/

/-- Regular expressions. -/
inductive Pattern where
  /-- The empty text. -/
  | empty
  /-- One character of a set. -/
  | one (set : CharSet)
  /-- A text of the one and then a text of the other. -/
  | seq (first second : Pattern)
  /-- A text of the one or of the other. -/
  | alt (first second : Pattern)
  /-- Any number of texts. -/
  | star (inner : Pattern)

namespace Pattern

/-- At least one text. -/
def plus (inner : Pattern) : Pattern := seq inner (star inner)

/-- A text or none. -/
def opt (inner : Pattern) : Pattern := alt inner empty

/-- The given characters, one after the other. -/
def exactly : List Char → Pattern
  | [] => empty
  | c :: more => seq (one (.among [c])) (exactly more)

/-- The texts that a pattern matches. -/
def language : Pattern → Language Char
  | empty => 1
  | one set => {text | ∃ c, set.has c = true ∧ text = [c]}
  | seq first second => first.language * second.language
  | alt first second => first.language + second.language
  | star inner => inner.language∗

/-- Blanks: `\s+`. -/
def blanks : Pattern := plus (one .space)

/-- A comment to the end of the line: `\/\/.*`. -/
def lineComment : Pattern := seq (exactly ['/', '/']) (star (one .inLine))

/-- The inside of a comment up to stars: `[^*]*`. -/
def starless : Pattern := star (one (.allBut ['*']))

/-- Stars: `\*+`. -/
def stars : Pattern := plus (one (.among ['*']))

/-- The inside of a comment behind stars that close nothing: `[^\/*][^*]*`. -/
def resumed : Pattern := seq (one (.allBut ['/', '*'])) starless

/-- A comment with its close: `\/\*[^*]*\*+([^\/*][^*]*\*+)*\/`. -/
def closedComment : Pattern :=
  seq (exactly ['/', '*'])
    (seq starless (seq stars (seq (star (seq resumed stars)) (exactly ['/']))))

/-- A comment without a close: `\/\*[^*]*(\*+[^\/*][^*]*)*\**`. -/
def openComment : Pattern :=
  seq (exactly ['/', '*'])
    (seq starless (seq (star (seq stars resumed)) (star (one (.among ['*'])))))

/-- A string without a closing mark: `"[^"]*`. -/
def openString : Pattern :=
  seq (exactly [Segment.stringMark]) (star (one (.allBut [Segment.stringMark])))

/-- A string: `"[^"]*"`. -/
def string : Pattern :=
  seq openString (exactly [Segment.stringMark])

/-- A numeral: `\d+(\.\d+)?`. -/
def number : Pattern :=
  seq (plus (one .digit)) (opt (seq (exactly ['.']) (plus (one .digit))))

/-- A word: `[\l_]\w*`. -/
def word : Pattern := seq (one .initial) (star (one .word))

/-- The characters that are marks by themselves. -/
def markChars : List Char := ['(', ')', '\x7b', '\x7d', ',', '.', '-', '+', ';', '*', '/']

/-- A mark of one character: `[(){},.\-+;*\/]`. -/
def mark : Pattern := one (.among markChars)

/-- The characters that are marks by themselves and with an equals sign. -/
def comparisonChars : List Char := ['!', '=', '<', '>']

/-- A mark that an equals sign may follow: `[!=<>]=?`. -/
def comparison : Pattern := seq (one (.among comparisonChars)) (opt (exactly ['=']))

/-! ### What the patterns match -/

variable {first second inner : Pattern} {set : CharSet} {text : List Char}

theorem mem_empty : text ∈ empty.language ↔ text = [] := Iff.rfl

theorem mem_one : text ∈ (one set).language ↔ ∃ c, set.has c = true ∧ text = [c] := Iff.rfl

theorem mem_seq : text ∈ (seq first second).language ↔
    ∃ front ∈ first.language, ∃ back ∈ second.language, front ++ back = text :=
  Language.mem_mul

theorem mem_alt : text ∈ (alt first second).language ↔
    text ∈ first.language ∨ text ∈ second.language :=
  Iff.rfl

theorem mem_exactly {chars : List Char} : text ∈ (exactly chars).language ↔ text = chars := by
  induction chars generalizing text with
  | nil => exact mem_empty
  | cons c more ih =>
      rw [exactly, mem_seq]
      constructor
      · rintro ⟨front, ⟨d, here, rfl⟩, back, behind, rfl⟩
        rw [ih.mp behind, List.mem_singleton.mp (CharSet.has_among.mp here)]
        rfl
      · intro same
        exact ⟨[c], ⟨c, by simp, rfl⟩, more, ih.mpr rfl, same.symm⟩

/-- A run of characters of a set. -/
theorem mem_star_one : text ∈ (star (one set)).language ↔ ∀ c ∈ text, set.has c = true := by
  constructor
  · rintro ⟨parts, rfl, each⟩ c member
    obtain ⟨part, inside, here⟩ := List.mem_flatten.mp member
    obtain ⟨d, has, rfl⟩ := each part inside
    rwa [List.mem_singleton.mp here]
  · intro all
    refine ⟨text.map fun c => [c], ?_, ?_⟩
    · simp [← List.flatMap_def]
    · intro part member
      obtain ⟨c, inside, rfl⟩ := List.mem_map.mp member
      exact ⟨c, all c inside, rfl⟩

theorem mem_plus_one : text ∈ (plus (one set)).language ↔
    text ≠ [] ∧ ∀ c ∈ text, set.has c = true := by
  rw [plus, mem_seq]
  constructor
  · rintro ⟨front, ⟨c, has, rfl⟩, back, behind, rfl⟩
    exact ⟨List.cons_ne_nil _ _, List.forall_mem_cons.mpr ⟨has, mem_star_one.mp behind⟩⟩
  · rintro ⟨some, all⟩
    obtain ⟨c, more, rfl⟩ := List.exists_cons_of_ne_nil some
    obtain ⟨here, behind⟩ := List.forall_mem_cons.mp all
    exact ⟨[c], ⟨c, here, rfl⟩, more, mem_star_one.mpr behind, rfl⟩

/-- A pattern that starts with given characters. -/
theorem mem_exactly_seq {chars : List Char} : text ∈ (seq (exactly chars) second).language ↔
    ∃ back ∈ second.language, text = chars ++ back := by
  rw [mem_seq]
  constructor
  · rintro ⟨front, same, back, behind, rfl⟩
    exact ⟨back, behind, by rw [mem_exactly.mp same]⟩
  · rintro ⟨back, behind, rfl⟩
    exact ⟨chars, mem_exactly.mpr rfl, back, behind, rfl⟩

theorem mem_blanks : text ∈ blanks.language ↔
    text ≠ [] ∧ ∀ c ∈ text, Segment.isSpace c = true := by
  simp only [blanks, mem_plus_one, CharSet.has_space]

theorem mem_lineComment : text ∈ lineComment.language ↔
    ∃ body, text = '/' :: '/' :: body ∧ ∀ c ∈ body, (!Segment.endsLine c) = true := by
  simp only [lineComment, mem_exactly_seq, mem_star_one, CharSet.has_inLine]
  exact ⟨fun ⟨body, inside, same⟩ => ⟨body, same, inside⟩,
    fun ⟨body, same, inside⟩ => ⟨body, inside, same⟩⟩

theorem mem_openString : text ∈ openString.language ↔
    ∃ body, text = Segment.stringMark :: body ∧ Segment.stringMark ∉ body := by
  simp only [openString, mem_exactly_seq, mem_star_one, CharSet.has_allBut, List.mem_singleton]
  constructor
  · rintro ⟨body, inside, rfl⟩
    exact ⟨body, rfl, fun member => inside _ member rfl⟩
  · rintro ⟨body, rfl, absent⟩
    exact ⟨body, fun c member same => absent (same ▸ member), rfl⟩

theorem mem_string : text ∈ string.language ↔
    ∃ body, text = Segment.stringMark :: body ++ [Segment.stringMark] ∧
      Segment.stringMark ∉ body := by
  rw [string, mem_seq]
  constructor
  · rintro ⟨front, opened, back, closed, rfl⟩
    obtain ⟨body, rfl, absent⟩ := mem_openString.mp opened
    exact ⟨body, by rw [mem_exactly.mp closed], absent⟩
  · rintro ⟨body, rfl, absent⟩
    exact ⟨_, mem_openString.mpr ⟨body, rfl, absent⟩, _, mem_exactly.mpr rfl, rfl⟩

/-- A numeral: digits, and perhaps a point and more digits. -/
theorem mem_number : text ∈ number.language ↔
    ∃ digits fraction, text = digits ++ fraction ∧
      digits ≠ [] ∧ (∀ c ∈ digits, Segment.isDigit c = true) ∧
      (fraction = [] ∨ ∃ more, fraction = '.' :: more ∧ more ≠ [] ∧
        ∀ c ∈ more, Segment.isDigit c = true) := by
  simp only [number, opt, @mem_seq (plus (one .digit)), mem_alt, mem_exactly_seq, mem_plus_one,
    mem_empty, CharSet.has_digit]
  constructor
  · rintro ⟨digits, ⟨some, all⟩, fraction, ⟨more, point, rfl⟩ | rfl, rfl⟩
    · exact ⟨digits, _, rfl, some, all, .inr ⟨more, rfl, point⟩⟩
    · exact ⟨digits, [], rfl, some, all, .inl rfl⟩
  · rintro ⟨digits, fraction, rfl, some, all, rfl | ⟨more, rfl, point⟩⟩
    · exact ⟨digits, ⟨some, all⟩, [], .inr rfl, rfl⟩
    · exact ⟨digits, ⟨some, all⟩, _, .inl ⟨more, point, rfl⟩, rfl⟩

theorem mem_word : text ∈ word.language ↔
    ∃ c more, text = c :: more ∧ Segment.isLetter c = true ∧
      ∀ d ∈ more, Segment.isWordChar d = true := by
  simp only [word, mem_seq, mem_one, mem_star_one, CharSet.has_initial, CharSet.has_word]
  constructor
  · rintro ⟨_, ⟨c, letter, rfl⟩, more, inside, rfl⟩
    exact ⟨c, more, rfl, letter, inside⟩
  · rintro ⟨c, more, rfl, letter, inside⟩
    exact ⟨[c], ⟨c, letter, rfl⟩, more, inside, rfl⟩

theorem mem_mark : text ∈ mark.language ↔ ∃ c ∈ markChars, text = [c] := by
  simp only [mark, mem_one, CharSet.has_among]

theorem mem_comparison : text ∈ comparison.language ↔
    ∃ c ∈ comparisonChars, text = [c] ∨ text = [c, '='] := by
  simp only [comparison, opt, mem_seq, mem_one, mem_alt, mem_exactly, mem_empty,
    CharSet.has_among]
  constructor
  · rintro ⟨_, ⟨c, member, rfl⟩, back, rfl | rfl, rfl⟩
    · exact ⟨c, member, .inr rfl⟩
    · exact ⟨c, member, .inl rfl⟩
  · rintro ⟨c, member, rfl | rfl⟩
    · exact ⟨[c], ⟨c, member, rfl⟩, [], .inr rfl, rfl⟩
    · exact ⟨[c], ⟨c, member, rfl⟩, ['='], .inl rfl, rfl⟩

/-! ### Comments -/

/-- No star is directly followed by a slash: a comment with this inside is still open. -/
abbrev Unclosed (text : List Char) : Prop :=
  text.IsChain fun c d => ¬ (c = '*' ∧ d = '/')

theorem unclosed_of_starless (absent : '*' ∉ text) : Unclosed text := by
  induction text with
  | nil => exact .nil
  | cons c more ih =>
      simp only [List.mem_cons, not_or] at absent
      exact List.isChain_cons.mpr ⟨fun _ _ both => absent.1 both.1.symm, ih absent.2⟩

theorem unclosed_of_stars (only : ∀ c ∈ text, c = '*') : Unclosed text := by
  induction text with
  | nil => exact .nil
  | cons c more ih =>
      obtain ⟨_, behind⟩ := List.forall_mem_cons.mp only
      refine List.isChain_cons.mpr ⟨fun d next both => ?_, ih behind⟩
      have star := behind d (List.mem_of_mem_head? next)
      exact absurd (star.symm.trans both.2) (by decide)

/-- Behind a stretch without stars nothing is closed by what comes next. -/
theorem unclosed_append_of_starless {front back : List Char} (absent : '*' ∉ front)
    (unclosed : Unclosed back) : Unclosed (front ++ back) := by
  refine List.isChain_append.mpr ⟨unclosed_of_starless absent, unclosed, ?_⟩
  rintro c last _ _ ⟨rfl, _⟩
  exact absent (List.mem_of_getLast? last)

theorem mem_starless : text ∈ starless.language ↔ '*' ∉ text := by
  simp only [starless, mem_star_one, CharSet.has_allBut, List.mem_singleton]
  exact ⟨fun other member => other _ member rfl, fun absent c member same => absent (same ▸ member)⟩

theorem mem_stars : text ∈ stars.language ↔ text ≠ [] ∧ ∀ c ∈ text, c = '*' := by
  simp only [stars, mem_plus_one, CharSet.has_among, List.mem_singleton]

theorem mem_star_stars : text ∈ (star (one (.among ['*']))).language ↔ ∀ c ∈ text, c = '*' := by
  simp only [mem_star_one, CharSet.has_among, List.mem_singleton]

theorem mem_resumed : text ∈ resumed.language ↔
    ∃ c more, text = c :: more ∧ c ≠ '/' ∧ c ≠ '*' ∧ '*' ∉ more := by
  simp only [resumed, mem_seq, mem_one, CharSet.has_allBut, mem_starless, List.mem_cons,
    List.not_mem_nil, or_false, not_or]
  constructor
  · rintro ⟨_, ⟨c, other, rfl⟩, more, absent, rfl⟩
    exact ⟨c, more, rfl, other.1, other.2, absent⟩
  · rintro ⟨c, more, rfl, slash, star, absent⟩
    exact ⟨[c], ⟨c, ⟨slash, star⟩, rfl⟩, more, absent, rfl⟩

/-- What an open comment holds from its first star on. -/
def starred : Pattern := seq (star (seq stars resumed)) (star (one (.among ['*'])))

/-- One more stretch of stars, with what follows it. -/
theorem starred_append {front back : List Char} (stretch : front ∈ (seq stars resumed).language)
    (member : back ∈ starred.language) : front ++ back ∈ starred.language := by
  obtain ⟨middle, ⟨parts, rfl, each⟩, last, only, rfl⟩ := mem_seq.mp member
  refine mem_seq.mpr ⟨(front :: parts).flatten, ⟨_, rfl, ?_⟩, last, only, by simp⟩
  exact List.forall_mem_cons.mpr ⟨stretch, each⟩

theorem unclosed_of_starred (member : text ∈ starred.language) :
    Unclosed text ∧ text.head? ≠ some '/' := by
  obtain ⟨front, ⟨parts, rfl, each⟩, last, only, rfl⟩ := mem_seq.mp member
  have only := mem_star_stars.mp only
  clear member
  induction parts with
  | nil =>
      refine ⟨unclosed_of_stars only, fun found => ?_⟩
      exact absurd (only _ (List.mem_of_mem_head? found)) (by decide)
  | cons part more ih =>
      obtain ⟨here, behind⟩ := List.forall_mem_cons.mp each
      obtain ⟨unclosed, _⟩ := ih behind
      obtain ⟨front, inFront, back, atBack, rfl⟩ := mem_seq.mp here
      obtain ⟨filled, stars⟩ := mem_stars.mp inFront
      obtain ⟨c, rest, rfl, slash, star, absent⟩ := mem_resumed.mp atBack
      obtain ⟨d, front, rfl⟩ := List.exists_cons_of_ne_nil filled
      have inside : '*' ∉ c :: rest := by simp [Ne.symm star, absent]
      rw [List.flatten_cons, List.append_assoc, List.append_assoc]
      constructor
      · refine List.isChain_append.mpr ⟨unclosed_of_stars stars,
          unclosed_append_of_starless inside unclosed, ?_⟩
        rintro _ _ e next ⟨_, rfl⟩
        exact slash (Option.some.inj next)
      · rw [List.cons_append, List.head?_cons, stars d List.mem_cons_self]
        decide

/-- The characters up to the first one that fails a test, and from there on. -/
theorem exists_span (test : Char → Bool) (text : List Char) :
    ∃ front back, text = front ++ back ∧ (∀ c ∈ front, test c = true) ∧
      ∀ c ∈ back.head?, test c = false := by
  refine ⟨text.takeWhile test, text.dropWhile test, ?_, ?_, ?_⟩
  · exact List.takeWhile_append_dropWhile.symm
  · exact fun c member => List.mem_takeWhile_imp member
  · intro c found
    have stopped := List.head?_dropWhile_not test text
    rw [Option.mem_def.mp found] at stopped
    simpa using stopped

/-- What is not closed is, from its first star on, stretches of stars and what follows them. The
induction is on the length: each turn takes one stretch off. -/
theorem starred_of_unclosed (text : List Char) (unclosed : Unclosed text)
    (start : ∀ c ∈ text.head?, c = '*') : text ∈ starred.language := by
  induction size : text.length using Nat.strong_induction_on generalizing text with
  | _ n ih =>
      subst size
      obtain ⟨front, back, rfl, stars, stop⟩ := exists_span (· == '*') text
      have only : ∀ c ∈ front, c = '*' := fun c member => beq_iff_eq.mp (stars c member)
      obtain ⟨first, second, joint⟩ := List.isChain_append.mp unclosed
      cases back with
      | nil =>
          refine mem_seq.mpr ⟨[], Language.nil_mem_kstar _, front, mem_star_stars.mpr only, ?_⟩
          rw [List.nil_append, List.append_nil]
      | cons c rest =>
          have star : c ≠ '*' := by simpa using stop c rfl
          have filled : front ≠ [] := by
            rintro rfl
            exact star (start c rfl)
          obtain ⟨d, last⟩ := Option.isSome_iff_exists.mp (List.getLast?_isSome.mpr filled)
          have slash : c ≠ '/' := by
            intro same
            exact joint d last c rfl ⟨only d (List.mem_of_getLast? last), same⟩
          obtain ⟨middle, next, rfl, starless, halt⟩ := exists_span (· != '*') rest
          have absent : '*' ∉ middle := fun member => by simpa using starless _ member
          have stretch : front ++ c :: middle ∈ (seq Pattern.stars resumed).language :=
            mem_seq.mpr ⟨front, mem_stars.mpr ⟨filled, only⟩, c :: middle,
              mem_resumed.mpr ⟨c, middle, rfl, slash, star, absent⟩, rfl⟩
          have further : next ∈ starred.language := by
            refine ih next.length ?_ next ?_ ?_ rfl
            · simp only [List.length_append, List.length_cons]
              omega
            · exact (List.isChain_append.mp (List.isChain_cons.mp second).2).2.1
            · exact fun e found => by simpa using halt e found
          simpa using starred_append stretch further

/-- The inside of an open comment. -/
theorem mem_starless_starred : text ∈ (seq starless starred).language ↔ Unclosed text := by
  rw [mem_seq]
  constructor
  · rintro ⟨front, inFront, back, behind, rfl⟩
    exact unclosed_append_of_starless (mem_starless.mp inFront) (unclosed_of_starred behind).1
  · intro unclosed
    obtain ⟨front, back, rfl, starless, stop⟩ := exists_span (· != '*') text
    refine ⟨front, mem_starless.mpr fun member => ?_, back, ?_, rfl⟩
    · simpa using starless _ member
    · refine starred_of_unclosed back (List.isChain_append.mp unclosed).2.1 fun c found => ?_
      simpa using stop c found

theorem mem_openComment : text ∈ openComment.language ↔
    ∃ body, text = '/' :: '*' :: body ∧ Unclosed body := by
  simp only [openComment, mem_exactly_seq, ← mem_starless_starred]
  exact ⟨fun ⟨body, inside, same⟩ => ⟨body, same, inside⟩,
    fun ⟨body, same, inside⟩ => ⟨body, inside, same⟩⟩

/-- Whether stretches start or end with the one or the other part does not matter if the whole
starts and ends with the same. -/
theorem kstar_slide (a b : Language Char) : a * (b * a)∗ = (a * b)∗ * a := by
  apply le_antisymm
  · refine mul_kstar_le ?_ ?_
    · exact le_mul_of_one_le_left' one_le_kstar
    · rw [mul_assoc, ← mul_assoc a b a, ← mul_assoc]
      gcongr
      exact kstar_mul_le_kstar
  · refine kstar_mul_le ?_ ?_
    · exact le_mul_of_one_le_right' one_le_kstar
    · rw [mul_assoc, ← mul_assoc b a]
      gcongr
      exact mul_kstar_le_kstar

/-- A comment is closed by the first star in it that a slash follows. -/
theorem mem_closedComment : text ∈ closedComment.language ↔
    ∃ body, text = '/' :: '*' :: body ++ ['*', '/'] ∧ Unclosed (body ++ ['*']) := by
  have slide : (seq stars (star (seq resumed stars))).language =
      (seq (star (seq stars resumed)) stars).language := kstar_slide _ _
  rw [closedComment, mem_exactly_seq]
  constructor
  · rintro ⟨_, ⟨front, inFront, _, ⟨first, some, _, ⟨more, inMore, _, slash, rfl⟩, rfl⟩, rfl⟩, rfl⟩
    have slid : first ++ more ∈ (seq (star (seq stars resumed)) stars).language := by
      rw [← slide]
      exact mem_seq.mpr ⟨first, some, more, inMore, rfl⟩
    obtain ⟨middle, within, last, closing, same⟩ := mem_seq.mp slid
    obtain ⟨filled, only⟩ := mem_stars.mp closing
    have star : last.dropLast ++ ['*'] = last := by
      rw [← only _ (List.getLast_mem filled), List.dropLast_append_getLast]
    have inside : middle ++ last ∈ starred.language :=
      mem_seq.mpr ⟨middle, within, last, mem_star_stars.mpr only, rfl⟩
    refine ⟨front ++ (middle ++ last.dropLast), ?_, ?_⟩
    · have ending : first ++ (more ++ ['/']) = middle ++ (last.dropLast ++ ['*', '/']) := by
        rw [← List.append_assoc, ← same, List.append_assoc, ← star]
        simp
      rw [mem_exactly.mp slash]
      show ['/', '*'] ++ (front ++ (first ++ (more ++ ['/']))) = _
      rw [ending]
      simp
    · rw [List.append_assoc, List.append_assoc, star]
      exact unclosed_append_of_starless (mem_starless.mp inFront) (unclosed_of_starred inside).1
  · rintro ⟨body, rfl, unclosed⟩
    have open_ := mem_starless_starred.mpr (List.isChain_append.mp unclosed).1
    obtain ⟨front, inFront, _, ⟨middle, within, last, only, rfl⟩, rfl⟩ := mem_seq.mp open_
    have closing : last ++ ['*'] ∈ stars.language := by
      refine mem_stars.mpr ⟨by simp, List.forall_mem_append.mpr ⟨mem_star_stars.mp only, ?_⟩⟩
      exact List.forall_mem_singleton.mpr rfl
    have slid : middle ++ (last ++ ['*']) ∈ (seq stars (star (seq resumed stars))).language := by
      rw [slide]
      exact mem_seq.mpr ⟨middle, within, _, closing, rfl⟩
    obtain ⟨first, some, more, inMore, same⟩ := mem_seq.mp slid
    refine ⟨front ++ (first ++ (more ++ ['/'])), ?_, ?_⟩
    · exact mem_seq.mpr ⟨front, inFront, _, mem_seq.mpr ⟨first, some, _,
        mem_seq.mpr ⟨more, inMore, _, mem_exactly.mpr rfl, rfl⟩, rfl⟩, rfl⟩
    · have ending : first ++ (more ++ ['/']) = middle ++ (last ++ ['*', '/']) := by
        rw [← List.append_assoc, same]
        simp
      rw [ending]
      simp

end Pattern

/-! ### The patterns of the language -/

/-- What is done with the text that a pattern matches. -/
inductive Treatment where
  | ignore | string | unterminated | number | word | punctuation
deriving DecidableEq

open Pattern in
/-- The patterns, in the order in which they count, and what is done with what they match. -/
def lexicon : List (Pattern × Treatment) :=
  [(blanks, .ignore), (lineComment, .ignore), (closedComment, .ignore), (openComment, .ignore),
    (string, .string), (openString, .unterminated), (number, .number), (word, .word),
    (mark, .punctuation), (comparison, .punctuation)]

end Lox
