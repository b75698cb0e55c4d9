/-
**Printed numbers.** A number that is printed without an exponent is read back as itself.

* `segments_numeral`: a numeral in front of a semicolon is one segment, and the literal of its token
  is the number that it is read as.
* `scan_printing`, `parse_printing`: the statement that prints such a number is scanned into five
  tokens at most, and parsed into the statement that prints a literal, under a minus if there is
  one.
* `printing_readsBack`: no issue is found in that statement, its expression evaluates to the number
  bit for bit, and running it prints what was printed before.
-/

import Lox.Proofs.Chunks
import Lox.Proofs.Numerals
import Lox.Proofs.Patterns
import Lox.Proofs.ReadBack

namespace Lox

open Segment

/-! ### Scanning -/

theorem splitFraction_pointed {fraction rest : List Char}
    (digits : ∀ c ∈ fraction, isDigit c = true) :
    splitFraction (pointed fraction ++ ';' :: rest) = (pointed fraction, ';' :: rest) := by
  cases fraction with
  | nil => rfl
  | cons d more =>
      obtain ⟨first, others⟩ := List.forall_mem_cons.mp digits
      show splitFraction ('.' :: d :: (more ++ ';' :: rest)) = _
      rw [splitFraction, if_pos first, splitWhile_append others]
      · rfl
      · rintro _ ⟨⟩
        decide

/-- Digits lie behind the blanks and marks that begin other segments. -/
theorem le_of_digit {c : Char} (digit : isDigit c = true) : 48 ≤ c.toNat := by
  rw [isDigit, Bool.and_eq_true, decide_eq_true_iff, decide_eq_true_iff] at digit
  exact digit.1

theorem ne_of_digit {c other : Char} (digit : isDigit c = true) (small : other.toNat < 48) :
    c ≠ other := by
  rintro rfl
  exact Nat.not_lt.mpr (le_of_digit digit) small

theorem isSpace_of_digit {c : Char} (digit : isDigit c = true) : isSpace c = false := by
  have bound := le_of_digit digit
  rw [← Bool.not_eq_true]
  simp only [isSpace, Bool.or_eq_true, beq_iff_eq, Bool.and_eq_true, decide_eq_true_eq]
  rintro (blank | control)
  · exact ne_of_digit digit (by decide) blank
  · omega

theorem cut_digit {c : Char} (digit : isDigit c = true) (rest : List Char) :
    cut c rest = cutNumber c rest := by
  rw [cut, if_neg (by rw [isSpace_of_digit digit]; decide),
    if_neg (ne_of_digit digit (by decide)), if_neg (ne_of_digit digit (by decide)), if_pos digit]

theorem segments_numeral {chars : List Char} {value : Number} (numeral : IsNumeral chars value)
    (rest : List Char) :
    segments (chars ++ ';' :: rest) = ⟨.token .number, chars⟩ :: segments (';' :: rest) := by
  obtain ⟨whole, fraction, some, digits, places, rfl, _⟩ := numeral
  cases whole with
  | nil => exact absurd rfl some
  | cons c more =>
      obtain ⟨first, others⟩ := List.forall_mem_cons.mp digits
      have stop : ∀ d ∈ (pointed fraction ++ ';' :: rest).head?, isDigit d = false := by
        rw [pointed]
        split <;> rintro _ ⟨⟩ <;> decide
      rw [List.append_assoc, List.cons_append, segments, cut_digit first, cutNumber,
        splitWhile_append others stop]
      simp only [splitFraction_pointed places]

theorem literal_numeral {chars : List Char} {value : Number} (numeral : IsNumeral chars value) :
    Scan.literal .number chars = .number value := by
  obtain ⟨whole, fraction, _, digits, _, rfl, same⟩ := numeral
  have behind : (pointed fraction).drop 1 = fraction := by
    rw [pointed]
    split
    · rename_i none
      exact none.symm
    · rfl
  have stop : ∀ d ∈ (pointed fraction).head?, isDigit d = false := by
    rw [pointed]
    split <;> rintro _ ⟨⟩
    decide
  rw [Scan.literal, splitWhile_append digits stop]
  simp only [behind, same]

theorem head_numeral {chars : List Char} {value : Number} (numeral : IsNumeral chars value) :
    ∃ c, chars.head? = some c ∧ isDigit c = true := by
  obtain ⟨whole, fraction, some, digits, _, rfl, _⟩ := numeral
  cases whole with
  | nil => exact absurd rfl some
  | cons c more => exact ⟨c, rfl, digits c (List.mem_cons_self ..)⟩

/-- The word that begins the statement, and the blank behind it. -/
theorem segments_print {rest : List Char} (stop : ∀ c ∈ rest.head?, isSpace c = false) :
    segments ("print ".toList ++ rest) =
      ⟨.token .print_, "print".toList⟩ :: ⟨.ignored, [' ']⟩ :: segments rest := by
  have word : splitWhile isWordChar ("rint".toList ++ ' ' :: rest) = ("rint".toList, ' ' :: rest) :=
    splitWhile_append (List.all_eq_true.mp (by decide)) (by rintro _ ⟨⟩; decide)
  have blank : splitWhile isSpace ([] ++ rest) = ([], rest) :=
    splitWhile_append (List.forall_mem_nil _) stop
  show segments ('p' :: ("rint".toList ++ ' ' :: rest)) = _
  rw [segments, cut, if_neg (by decide), if_neg (by decide), if_neg (by decide),
    if_neg (by decide), if_pos (by decide), cutWord, word]
  simp only
  rw [segments, cut, if_pos (by decide), cutSpace, ← List.nil_append rest, blank]
  rfl

theorem segments_minus (rest : List Char) :
    segments ('-' :: rest) = ⟨.token .minus, ['-']⟩ :: segments rest := by
  have mark : cut '-' rest = (⟨.token .minus, ['-']⟩, rest) := by
    rw [cut, if_neg (by decide), if_neg (by decide), if_neg (by decide), if_neg (by decide),
      if_neg (by decide)]
    cases rest <;> rfl
  rw [segments, mark]

theorem segments_semicolon : segments [';'] = [⟨.token .semicolon, [';']⟩] := by
  decide +kernel

/-- The statement that prints a number, as a text. -/
def Number.printing (x : Number) : String :=
  "print " ++ x.toText ++ ";"

/-- The tokens of a statement that prints a number: the sign is there if the number has one. -/
structure PrintTokens where
  keyword : Token
  sign : Option Token
  numeral : Token
  semicolon : Token
  closing : Token

/-- The tokens are of the right classes. -/
structure PrintTokens.Proper (tokens : PrintTokens) : Prop where
  keyword : tokens.keyword.kind = .print_
  sign : ∀ token ∈ tokens.sign, token.kind = .minus
  numeral : tokens.numeral.kind = .number
  semicolon : tokens.semicolon.kind = .semicolon
  closing : tokens.closing.kind = .eof

/-- The tokens in their order. -/
def PrintTokens.toList (tokens : PrintTokens) : List Token :=
  tokens.keyword :: (tokens.sign.toList ++ [tokens.numeral, tokens.semicolon, tokens.closing])

theorem scan_printing {x : Number} (finite : x.isFinite = true)
    (plain : 'e' ∉ x.toText.toList) :
    ∃ tokens : PrintTokens, tokens.Proper ∧ scan x.printing = tokens.toList.map Scanned.token ∧
      tokens.sign.isSome = x.isNegative ∧ tokens.numeral.literal = .number x.absolute ∧
      (x.toText.toList.head? = some '-' ↔ x.isNegative = true) := by
  obtain ⟨chars, text, numeral⟩ := Number.toText_numeral finite plain
  obtain ⟨first, head, digit⟩ := head_numeral numeral
  have whole : x.printing.toList = "print ".toList ++ (x.signChars ++ (chars ++ [';'])) := by
    rw [Number.printing, String.toList_append, String.toList_append, text, List.append_assoc,
      List.append_assoc]
    rfl
  have literal := literal_numeral numeral
  have cutting := segments_numeral numeral []
  rw [segments_semicolon] at cutting
  rw [scan, whole]
  rw [text]
  by_cases negative : x.isNegative = true
  · have sign : x.signChars = ['-'] := if_pos negative
    rw [sign, segments_print (by rintro _ ⟨⟩; decide), List.singleton_append, segments_minus,
      cutting]
    refine ⟨⟨_, some _, _, _, _⟩, ⟨rfl, ?_, rfl, rfl, rfl⟩, rfl, negative.symm, literal, ?_⟩
    · rintro _ ⟨⟩
      rfl
    · exact ⟨fun _ => negative, fun _ => rfl⟩
  · have sign : x.signChars = [] := if_neg negative
    have stop : ∀ c ∈ (chars ++ [';']).head?, isSpace c = false := by
      rw [List.head?_append, head]
      rintro _ ⟨⟩
      exact isSpace_of_digit digit
    rw [sign, List.nil_append, segments_print stop, cutting]
    refine ⟨⟨_, none, _, _, _⟩, ⟨rfl, ?_, rfl, rfl, rfl⟩, rfl, ?_, literal, ?_⟩
    · rintro _ ⟨⟩
    · exact ((Bool.not_eq_true _).mp negative).symm
    · rw [List.nil_append, head]
      refine ⟨fun same => ?_, fun same => absurd same negative⟩
      exact absurd (Option.some.inj same) (ne_of_digit digit (by decide))

/-! ### Parsing -/

/-- What a numeral is read as: a literal, under a minus if there is a sign. -/
def numeralExpr {ρ : Type} (sign : Option Token) (value : Number) : Expr ρ :=
  match sign with
  | none => .literal (.number value)
  | some token => .unary .negative token (.literal (.number value))

theorem readProgram_print {tokens : PrintTokens} (proper : tokens.Proper) {value : Number}
    (literal : tokens.numeral.literal = .number value) :
    readProgram trees (tokens.toList.map (Feed.mk [])) =
      (some [Stmt.print tokens.keyword (numeralExpr tokens.sign value)], []) := by
  obtain ⟨⟨_, _, _, _, _⟩, sign, ⟨_, _, _, _, _⟩, ⟨_, _, _, _, _⟩, ⟨_, _, _, _, _⟩⟩ := tokens
  obtain ⟨rfl, signed, rfl, rfl, rfl⟩ := proper
  obtain rfl := literal
  cases sign with
  | none => rfl
  | some token =>
      obtain ⟨_, _, _, _, _⟩ := token
      obtain rfl := signed _ rfl
      rfl

theorem parse_printing {text : String} {tokens : PrintTokens} (proper : tokens.Proper)
    {value : Number} (literal : tokens.numeral.literal = .number value)
    (scanned : scan text = tokens.toList.map Scanned.token) :
    parse text = ⟨[Stmt.print tokens.keyword (numeralExpr tokens.sign value)], []⟩ := by
  unfold parse
  rw [feed, scanned, feedFrom_tokens_only, readProgram_print proper literal]
  rfl

theorem faultsOf_tokens (tokens : List Token) : faultsOf (tokens.map Scanned.token) = [] := by
  rw [faultsOf, List.filterMap_map]
  exact List.filterMap_eq_nil_iff.mpr fun _ _ => rfl

/-! ### Running -/

theorem resolve_print {nesting : Nat} (enough : 6 ≤ nesting) (keyword : Token)
    (sign : Option Token) (value : Number) :
    resolve [.print keyword (numeralExpr sign value)] nesting =
      ⟨[], some [.print keyword (numeralExpr sign value)]⟩ := by
  obtain ⟨nesting, rfl⟩ := Nat.exists_eq_add_of_le' enough
  cases sign <;> rfl

/-- The number that a numeral under a sign stands for. -/
def signedValue (sign : Option Token) (value : Number) : Number :=
  if sign.isSome then value.negate else value

theorem eval_numeralExpr (lookup : Lookup) (fuel : Nat) {room : Nat} (enough : 2 ≤ room)
    (frame : Nat) (sign : Option Token) (value : Number) (machine : Machine) :
    Expr.eval lookup fuel room frame (numeralExpr sign value) machine =
      .ok (.number (signedValue sign value)) machine := by
  obtain ⟨room, rfl⟩ := Nat.exists_eq_add_of_le' enough
  cases sign <;> rfl

theorem runProgram_print (keyword : Token) (sign : Option Token) (value : Number)
    (machine : Machine) {limits : Limits} (enough : 3 ≤ limits.room) :
    runProgram [.print keyword (numeralExpr sign value)] machine limits =
      ({ machine with printed := machine.printed.push (signedValue sign value).toText }, none) := by
  obtain ⟨nesting, room, turns⟩ := limits
  obtain ⟨room, rfl⟩ := Nat.exists_eq_add_of_le' enough
  cases sign <;> rfl

/-- The sign and the numeral of a number stand for the number, bit for bit. -/
theorem signedValue_absolute {x : Number} {sign : Option Token}
    (same : sign.isSome = x.isNegative) :
    signedValue sign x.absolute = x := by
  rw [signedValue, same]
  by_cases negative : x.isNegative = true
  · rw [if_pos negative]
    exact Number.negate_absolute_of_negative negative
  · rw [if_neg negative]
    exact Number.absolute_of_positive ((Bool.not_eq_true _).mp negative)

/-- **Numbers that print plainly read back as themselves.** The statement that prints the text of a
finite number, if that has no exponent, is scanned and parsed without a complaint. It prints a
literal, under one minus if the text begins with one; that evaluates to the number, bit for bit,
wherever it stands, and a session that runs the statement prints the text again. -/
theorem Number.printing_readsBack {x : Number} (finite : x.isFinite = true)
    (plain : 'e' ∉ x.toText.toList) :
    ∃ (keyword : Token) (sign : Option Token) (value : Number),
      faultsOf (scan x.printing) = [] ∧
      parse x.printing = ⟨[.print keyword (numeralExpr sign value)], []⟩ ∧
      (sign.isSome = true ↔ x.toText.toList.head? = some '-') ∧
      (∀ nesting, 6 ≤ nesting → resolve [.print keyword (numeralExpr sign value)] nesting =
        ⟨[], some [.print keyword (numeralExpr sign value)]⟩) ∧
      (∀ lookup fuel room frame machine, 2 ≤ room →
        Expr.eval lookup fuel room frame (numeralExpr sign value) machine =
          .ok (.number x) machine) ∧
      ∀ session : Session, session.report.issues = #[] → session.checkOnly = false →
        6 ≤ session.limits.nesting → 3 ≤ session.limits.room →
        (session.run x.printing).2 = some .ok ∧
        (session.run x.printing).1.report.issues = #[] ∧
        (session.run x.printing).1.machine =
          { session.machine with printed := session.machine.printed.push x.toText } := by
  obtain ⟨tokens, proper, scanned, signed, literal, minus⟩ := scan_printing finite plain
  have parsed := parse_printing proper literal scanned
  have value := signedValue_absolute signed
  refine ⟨tokens.keyword, tokens.sign, x.absolute, ?_, parsed, ?_,
    fun _ enough => resolve_print enough _ _ _, ?_, ?_⟩
  · rw [scanned, faultsOf_tokens]
  · rw [signed, minus]
  · intro lookup fuel room frame machine enough
    rw [eval_numeralExpr lookup fuel enough, value]
  · intro session well runs deep enough
    have resolved := resolve_print deep tokens.keyword tokens.sign x.absolute
    have passes : Passes x.printing [.print tokens.keyword (numeralExpr tokens.sign x.absolute)]
        session.limits.nesting := by
      constructor <;> rw [parsed]
      · rw [resolved]
      · rw [resolved]
    obtain ⟨next, remarks, ran⟩ := session.run_eq runs well passes
    rw [ran, Session.runTree, runProgram_print _ _ _ _ enough, value]
    exact ⟨rfl, remarks.issues.trans well, rfl⟩

/-- Minus a third, rounded. -/
def minusThird : Number :=
  ⟨0xBFD5555555555555⟩

theorem Number.printing_readsBack_third :
    minusThird.toText = "-0.3333333333333333" ∧ minusThird.isFinite = true ∧
    'e' ∉ minusThird.toText.toList ∧
    ∃ (keyword : Token) (sign : Option Token) (value : Number),
      faultsOf (scan minusThird.printing) = [] ∧
      parse minusThird.printing = ⟨[.print keyword (numeralExpr sign value)], []⟩ ∧
      (sign.isSome = true ↔ minusThird.toText.toList.head? = some '-') ∧
      (∀ nesting, 6 ≤ nesting → resolve [.print keyword (numeralExpr sign value)] nesting =
        ⟨[], some [.print keyword (numeralExpr sign value)]⟩) ∧
      (∀ lookup fuel room frame machine, 2 ≤ room →
        Expr.eval lookup fuel room frame (numeralExpr sign value) machine =
          .ok (.number minusThird) machine) ∧
      ∀ session : Session, session.report.issues = #[] → session.checkOnly = false →
        6 ≤ session.limits.nesting → 3 ≤ session.limits.room →
        (session.run minusThird.printing).2 = some .ok ∧
        (session.run minusThird.printing).1.report.issues = #[] ∧
        (session.run minusThird.printing).1.machine =
          { session.machine with printed := session.machine.printed.push minusThird.toText } := by
  have finite : minusThird.isFinite = true := by decide
  have plain : 'e' ∉ minusThird.toText.toList := by decide +kernel
  exact ⟨by decide +kernel, finite, plain, Number.printing_readsBack finite plain⟩

end Lox
