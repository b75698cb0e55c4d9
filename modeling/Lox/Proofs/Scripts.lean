/-
**Scripts.** Texts from which a reader can determine what was written, and where it ends.

* A `Script` writes things down. `Script.Cancels` says of a thing that its characters determine it,
  also if others follow: whatever else is written with the same characters has the same form, and
  what follows is the same. `Script.cancels_all`: so are things one after the other.
* `Text.unescape` reads one character back that stands between quotation marks, escaped or not. So
  quoted texts are determined by their characters (`Text.quoted_cancel`).
* `Literal.toText_cancel`: so are the literals of expressions.
-/

import Lox.Expr
import Lox.Proofs.Spellings

namespace Lox

/-! ### Scripts -/

/-- A way to write things: the characters of each, what they are to determine about it, the things
that are written so, and the characters that may follow one. -/
structure Script (α β : Type) where
  chars : α → List Char
  form : α → β
  fits : α → Prop
  ends : Char → Bool

namespace Script

variable {α β : Type} (script : Script α β)

/-- The rest of a text may follow what is written. -/
def Ends (rest : List Char) : Prop :=
  ∀ c ∈ rest.head?, script.ends c = true

/-- The characters of a thing determine its form, and where they end. -/
def Cancels (item : α) : Prop :=
  ∀ other, script.fits other → ∀ rest rest', script.Ends rest → script.Ends rest' →
    script.chars item ++ rest = script.chars other ++ rest' →
      script.form item = script.form other ∧ rest = rest'

variable {script} {begins : Char → Bool}
  (opens : ∀ item, ∃ c more, script.chars item = c :: more ∧ begins c = true)
  (goesOn : ∀ c, begins c = true → script.ends c = true)

include opens goesOn in
/-- More of the same may follow, if its first characters may. -/
theorem ends_flatMap (items : List α) {rest : List Char} (ends : script.Ends rest) :
    script.Ends (items.flatMap script.chars ++ rest) := by
  cases items with
  | nil => exact ends
  | cons item more =>
      obtain ⟨first, others, split, begin⟩ := opens item
      rw [List.flatMap_cons, split]
      rintro _ ⟨⟩
      exact goesOn first begin

include opens in
/-- What may not begin a thing does not go on with one. -/
theorem flatMap_eq_nil {items : List α} {rest rest' : List Char}
    (close : ∀ c ∈ rest.head?, begins c = false)
    (same : rest = items.flatMap script.chars ++ rest') : items = [] ∧ rest = rest' := by
  cases items with
  | nil => exact ⟨rfl, same⟩
  | cons item more =>
      obtain ⟨first, others, split, begin⟩ := opens item
      rw [List.flatMap_cons, split] at same
      rw [close first (by rw [same]; rfl)] at begin
      cases begin

variable (script) in
include opens goesOn in
/-- **Things one after the other are determined by their characters**, if each of them is, and if
what follows the last one does not begin another one. -/
theorem cancels_all {items others : List α} (cancels : ∀ item ∈ items, script.Cancels item)
    (fit : ∀ other ∈ others, script.fits other) {rest rest' : List Char}
    (ends : script.Ends rest) (ends' : script.Ends rest')
    (close : ∀ c ∈ rest.head?, begins c = false) (close' : ∀ c ∈ rest'.head?, begins c = false)
    (same : items.flatMap script.chars ++ rest = others.flatMap script.chars ++ rest') :
    items.map script.form = others.map script.form ∧ rest = rest' := by
  induction items generalizing others with
  | nil =>
      obtain ⟨rfl, rfl⟩ := flatMap_eq_nil opens close same
      exact ⟨rfl, rfl⟩
  | cons item items ih =>
      cases others with
      | nil =>
          obtain ⟨none, _⟩ := flatMap_eq_nil opens close' same.symm
          cases none
      | cons other others =>
          obtain ⟨one, more⟩ := List.forall_mem_cons.mp cancels
          obtain ⟨fits, fit⟩ := List.forall_mem_cons.mp fit
          rw [List.flatMap_cons, List.flatMap_cons, List.append_assoc, List.append_assoc] at same
          obtain ⟨form, after⟩ := one other fits _ _ (ends_flatMap opens goesOn items ends)
            (ends_flatMap opens goesOn others ends') same
          obtain ⟨forms, rests⟩ := ih more fit after
          exact ⟨by rw [List.map_cons, List.map_cons, form, forms], rests⟩

end Script

/-! ### Quoted texts -/

namespace Text

/-- The number with the given digits to the base sixteen. -/
def hexValue (digits : List Char) : Nat :=
  digits.foldl (fun value digit =>
    16 * value + if Segment.isDigit digit then digit.toNat - 48 else digit.toNat - 87) 0

/-- Reads one character between quotation marks, and what follows it. -/
def unescape : List Char → Option (Char × List Char)
  | '\\' :: 'n' :: rest => some ('\n', rest)
  | '\\' :: 'r' :: rest => some ('\r', rest)
  | '\\' :: 't' :: rest => some ('\t', rest)
  | '\\' :: 'x' :: rest => some (Char.ofNat (hexValue (rest.take 2)), rest.drop 2)
  | '\\' :: 'u' :: rest => some (Char.ofNat (hexValue (rest.take 4)), rest.drop 4)
  | '\\' :: 'U' :: rest => some (Char.ofNat (hexValue (rest.take 8)), rest.drop 8)
  | '\\' :: c :: rest => some (c, rest)
  | c :: rest => some (c, rest)
  | [] => none

theorem length_hexChars (width n : Nat) : (hexChars width n).length = width := by
  induction width generalizing n with
  | zero => rfl
  | succ width ih => rw [hexChars, List.length_append, ih, List.length_singleton]

theorem hexValue_digitChar (digits : List Char) {digit : Nat} (small : digit < 16) :
    hexValue (digits ++ [Nat.digitChar digit]) = 16 * hexValue digits + digit := by
  have read : ∀ digit : Fin 16, (if Segment.isDigit (Nat.digitChar digit) then
      (Nat.digitChar digit).toNat - 48 else (Nat.digitChar digit).toNat - 87) = digit := by decide
  rw [hexValue, List.foldl_append, List.foldl_cons, List.foldl_nil, read ⟨digit, small⟩]
  rfl

/-- Enough digits determine a number. -/
theorem hexValue_hexChars {width n : Nat} (fits : n < Nat.pow 16 width) :
    hexValue (hexChars width n) = n := by
  induction width generalizing n with
  | zero =>
      have none : n = 0 := Nat.lt_one_iff.mp fits
      rw [none]
      rfl
  | succ width ih =>
      have front : n / 16 < Nat.pow 16 width := Nat.div_lt_of_lt_mul (Nat.mul_comm _ _ ▸ fits)
      rw [hexChars, hexValue_digitChar _ (Nat.mod_lt n (by decide)), ih front]
      exact Nat.div_add_mod n 16

/-- A code point is read off as many digits as it was written with. -/
theorem ofNat_hexChars {width : Nat} {c : Char} (fits : c.toNat < Nat.pow 16 width)
    (rest : List Char) :
    some (Char.ofNat (hexValue ((hexChars width c.toNat ++ rest).take width)),
      (hexChars width c.toNat ++ rest).drop width) = some (c, rest) := by
  rw [List.take_left' (length_hexChars _ _), List.drop_left' (length_hexChars _ _),
    hexValue_hexChars fits, Char.ofNat_toNat]

theorem unescape_byNumber (c : Char) (rest : List Char) :
    unescape (byNumber c ++ rest) = some (c, rest) := by
  unfold byNumber
  split
  · rename_i small
    exact ofNat_hexChars small rest
  split
  · rename_i small
    exact ofNat_hexChars small rest
  · have small : c.toNat < Nat.pow 16 8 := Nat.lt_of_lt_of_le c.val.toNat_lt (by decide)
    exact ofNat_hexChars small rest

theorem unescape_of_ne {c : Char} (plain : c ≠ '\\') (rest : List Char) :
    unescape (c :: rest) = some (c, rest) := by
  unfold unescape
  split <;> simp_all

/-- **A character is read back from what stands for it between the marks.** -/
theorem unescape_escape {mark : Char} (quote : mark = singleMark ∨ mark = doubleMark) (c : Char)
    (rest : List Char) : unescape (escape mark c ++ rest) = some (c, rest) := by
  unfold escape
  split
  · rename_i marked
    rcases marked with rfl | rfl
    · rcases quote with rfl | rfl <;> rfl
    · rfl
  split
  · rename_i feed
    rw [feed]
    rfl
  split
  · rename_i back
    rw [back]
    rfl
  split
  · rename_i tab
    rw [tab]
    rfl
  split
  · exact unescape_byNumber c rest
  · rename_i unmarked _ _ _ _
    exact unescape_of_ne (fun slash => unmarked (.inr slash)) rest

/-- The characters of a text between the given marks. -/
def escapes (mark : Char) : Script Char Char where
  chars := escape mark
  form := id
  fits _ := True
  ends _ := true

theorem escapes_cancels {mark : Char} (quote : mark = singleMark ∨ mark = doubleMark) (c : Char) :
    (escapes mark).Cancels c := by
  intro other _ rest rest' _ _ same
  have read := congrArg unescape same
  rw [escapes, unescape_escape quote, unescape_escape quote] at read
  obtain ⟨rfl, rfl⟩ := Prod.mk.inj (Option.some.inj read)
  exact ⟨rfl, rfl⟩

/-- The mark does not begin a character between the marks. -/
theorem escape_head {mark : Char} (quote : mark = singleMark ∨ mark = doubleMark) (c : Char) :
    ∃ first more, escape mark c = first :: more ∧ (first != mark) = true := by
  have slash : ('\\' != mark) = true := by
    rcases quote with rfl | rfl <;> decide
  unfold escape byNumber
  split
  · exact ⟨_, _, rfl, slash⟩
  split
  · exact ⟨_, _, rfl, slash⟩
  split
  · exact ⟨_, _, rfl, slash⟩
  split
  · exact ⟨_, _, rfl, slash⟩
  split
  · split
    · exact ⟨_, _, rfl, slash⟩
    split <;> exact ⟨_, _, rfl, slash⟩
  · rename_i unmarked _ _ _ _
    exact ⟨_, _, rfl, bne_iff_ne.mpr fun same => unmarked (.inl same)⟩

theorem chooseMark_quote (text : List Char) :
    chooseMark text = singleMark ∨ chooseMark text = doubleMark := by
  unfold chooseMark
  split
  · exact .inr rfl
  · exact .inl rfl

theorem quoted_chars (text : String) :
    (quoted text).toList = chooseMark text.toList ::
      (text.toList.flatMap (escape (chooseMark text.toList)) ++ [chooseMark text.toList]) := by
  rw [quoted, String.toList_ofList]
  rfl

/-- **A quoted text is determined by its characters**: the first one is the mark, and the next one
that is not escaped ends the text. -/
theorem quoted_cancel {text other : String} {rest rest' : List Char}
    (same : (quoted text).toList ++ rest = (quoted other).toList ++ rest') :
    text = other ∧ rest = rest' := by
  rw [quoted_chars, quoted_chars, List.cons_append, List.cons_append] at same
  obtain ⟨marks, inside⟩ := List.cons.inj same
  have quote := chooseMark_quote text.toList
  rw [← marks, List.append_assoc, List.append_assoc] at inside
  generalize chooseMark text.toList = mark at quote inside
  have close : ∀ rest : List Char, ∀ c ∈ ([mark] ++ rest).head?, (c != mark) = false := by
    rintro rest _ ⟨⟩
    exact bne_self_eq_false mark
  obtain ⟨chars, after⟩ := (escapes mark).cancels_all (escape_head quote) (fun _ _ => rfl)
    (fun c _ => escapes_cancels quote c) (fun _ _ => trivial) (fun _ _ => rfl)
    (fun _ _ => rfl) (close rest) (close rest') inside
  refine ⟨String.toList_inj.mp ?_, (List.cons.inj after).2⟩
  rwa [show (escapes mark).form = id from rfl, List.map_id, List.map_id] at chars

end Text

/-! ### Literals -/

open Segment

/-- No bracket is part of what is written for a number. -/
theorem IsWritten.not_mem {chars : List Char} {x : Number} (written : IsWritten chars x) :
    '>' ∉ chars := by
  rcases written with numeral | ⟨d, rfl, _⟩
  · exact numeral.not_mem (by decide) (by decide)
  · obtain ⟨first, rest, split, digit, digits⟩ := d.exists_digitChars
    obtain ⟨exponent, part, _, places⟩ := Decimal.exponentPart_eq d.leadingExponent
    rw [split, Decimal.scientific_cons, part]
    intro member
    rcases List.mem_append.mp member with front | back
    · rcases List.mem_cons.mp front with rfl | later
      · exact absurd digit (by decide)
      · exact not_mem_pointed digits (by decide) (by decide) later
    · rcases List.mem_cons.mp back with mark | signed
      · exact absurd mark (by decide)
      rcases List.mem_cons.mp signed with sign | later
      · split at sign <;> exact absurd sign (by decide)
      · exact absurd (places _ later) (by decide)

namespace Number

theorem not_mem_toLiteral (x : Number) : '>' ∉ x.toLiteral.toList := by
  cases nan : x.isNaN with
  | true =>
      rw [toLiteral_spells.nan x nan]
      decide
  | false =>
      obtain ⟨chars, split, written⟩ := toLiteral_spells.proper x nan
      rw [split]
      intro member
      rcases List.mem_append.mp member with front | back
      · unfold signChars at front
        split at front
        · exact absurd (List.mem_singleton.mp front) (by decide)
        · cases front
      · rcases written with written | ⟨rfl, _⟩
        · exact written.not_mem back
        · exact absurd back (by decide)

/-- The first character of a number is a digit, the minus sign, or the first letter of a word that
stands for numbers. -/
theorem toLiteral_head (x : Number) : ∃ c, x.toLiteral.toList.head? = some c ∧
    (isDigit c = true ∨ c ∈ ['-', 'i', 'n']) := by
  cases nan : x.isNaN with
  | true =>
      rw [toLiteral_spells.nan x nan]
      exact ⟨'n', rfl, .inr (by decide)⟩
  | false =>
      obtain ⟨chars, split, written⟩ := toLiteral_spells.proper x nan
      rw [split]
      unfold signChars
      split
      · exact ⟨'-', rfl, .inr (by decide)⟩
      · rcases written with written | ⟨rfl, _⟩
        · obtain ⟨c, head, digit⟩ := written.head
          exact ⟨c, head, .inl digit⟩
        · exact ⟨'i', rfl, .inr (by decide)⟩

end Number

namespace Literal

/-- Literals that can stand in a text: there are no numerals for the NaNs. -/
def Proper : Literal → Prop
  | number value => value.isNaN = false
  | _ => True

/-- The literals that are not quoted. -/
def isPlain : Literal → Bool
  | string _ => false
  | _ => true

theorem not_mem_toText {value : Literal} (plain : value.isPlain = true) :
    '>' ∉ value.toText.toList := by
  cases value with
  | nil => decide
  | bool value => cases value <;> decide
  | number value => exact value.not_mem_toLiteral
  | string value => cases plain

/-- What is written for numbers begins in its own way. -/
theorem toLiteral_ne {x : Number} {word : String} {c : Char} (head : word.toList.head? = some c)
    (letter : isDigit c = false) (other : c ∉ ['-', 'i', 'n']) : x.toLiteral ≠ word := by
  rintro rfl
  obtain ⟨first, same, digit | listed⟩ := x.toLiteral_head
  · rw [Option.some.inj (head.symm.trans same), digit] at letter
    cases letter
  · rw [Option.some.inj (head.symm.trans same)] at other
    exact other listed

/-- **Plain literals are written differently.** -/
theorem toText_injective {value other : Literal} (plain : value.isPlain = true)
    (plain' : other.isPlain = true) (proper : value.Proper)
    (same : value.toText = other.toText) : value = other := by
  have none : ∀ x : Number, x.toLiteral ≠ "None" := fun _ =>
    toLiteral_ne (c := 'N') rfl (by decide) (by decide)
  have yes : ∀ x : Number, x.toLiteral ≠ "True" := fun _ =>
    toLiteral_ne (c := 'T') rfl (by decide) (by decide)
  have no : ∀ x : Number, x.toLiteral ≠ "False" := fun _ =>
    toLiteral_ne (c := 'F') rfl (by decide) (by decide)
  cases value with
  | string => cases plain
  | nil =>
      cases other with
      | nil => rfl
      | bool other => cases other <;> exact absurd same (by decide)
      | number other => exact absurd same.symm (none other)
      | string => cases plain'
  | bool value =>
      cases other with
      | nil => cases value <;> exact absurd same (by decide)
      | bool other =>
          revert same
          cases value <;> cases other <;> decide
      | number other =>
          cases value with
          | true => exact absurd same.symm (yes other)
          | false => exact absurd same.symm (no other)
      | string => cases plain'
  | number value =>
      cases other with
      | nil => exact absurd same (none value)
      | bool other =>
          cases other with
          | true => exact absurd same (yes value)
          | false => exact absurd same (no value)
      | number other =>
          rcases (Number.toLiteral_spells.eq_iff value other).mp same with rfl | ⟨nan, _⟩
          · rfl
          · rw [show value.isNaN = false from proper] at nan
            cases nan
      | string => cases plain'

/-- The first character determines whether a literal is quoted. -/
theorem isPlain_head {value : Literal} (plain : value.isPlain = true) :
    ∃ c, value.toText.toList.head? = some c ∧ c ≠ Text.singleMark ∧ c ≠ Text.doubleMark := by
  cases value with
  | nil => exact ⟨'N', rfl, by decide, by decide⟩
  | bool value =>
      cases value with
      | true => exact ⟨'T', rfl, by decide, by decide⟩
      | false => exact ⟨'F', rfl, by decide, by decide⟩
  | number value =>
      obtain ⟨c, head, digit | listed⟩ := value.toLiteral_head
      · refine ⟨c, head, ?_, ?_⟩
        · rintro rfl
          exact absurd digit (by decide)
        · rintro rfl
          exact absurd digit (by decide)
      · have apart : ['-', 'i', 'n'].all
          (fun c => c != Text.singleMark && c != Text.doubleMark) = true := by decide
        have both := List.all_eq_true.mp apart c listed
        rw [Bool.and_eq_true, bne_iff_ne, bne_iff_ne] at both
        exact ⟨c, head, both⟩
  | string => cases plain

theorem isPlain_of_head {value : Literal} (text : String) {rest rest' : List Char}
    (same : value.toText.toList ++ rest = (Text.quoted text).toList ++ rest') :
    value.isPlain = false := by
  rw [← Bool.not_eq_true]
  intro plain
  obtain ⟨c, head, single, double⟩ := isPlain_head plain
  have first := congrArg List.head? same
  rw [Text.quoted_chars, List.head?_append, head] at first
  rcases Text.chooseMark_quote text.toList with mark | mark
  · exact single ((Option.some.inj first).trans mark)
  · exact double ((Option.some.inj first).trans mark)

/-- **A literal is determined by its characters** in front of a closing bracket. -/
theorem toText_cancel {value other : Literal} (proper : value.Proper) {rest rest' : List Char}
    (same : value.toText.toList ++ '>' :: rest = other.toText.toList ++ '>' :: rest') :
    value = other ∧ rest = rest' := by
  cases plain : value.isPlain with
  | true =>
      have plain' : other.isPlain = true := by
        cases other with
        | string text =>
            have quoted := isPlain_of_head text same
            rw [plain] at quoted
            cases quoted
        | _ => rfl
      have unclosed : ∀ {literal : Literal}, literal.isPlain = true →
          ∀ c ∈ literal.toText.toList, (c != '>') = true := by
        intro literal plain c member
        refine bne_iff_ne.mpr ?_
        rintro rfl
        exact not_mem_toText plain member
      have stop : ∀ rest : List Char, ∀ c ∈ ('>' :: rest).head?, (c != '>') = false := by
        rintro rest _ ⟨⟩
        rfl
      obtain ⟨texts, after⟩ := cancel_span (· != '>') (unclosed plain) (unclosed plain') (stop rest)
        (stop rest') same
      exact ⟨toText_injective plain plain' proper (String.toList_inj.mp texts),
        (List.cons.inj after).2⟩
  | false =>
      cases value with
      | string text =>
          have plain' := isPlain_of_head text same.symm
          cases other with
          | string text' =>
              obtain ⟨rfl, after⟩ := Text.quoted_cancel same
              exact ⟨rfl, (List.cons.inj after).2⟩
          | _ => cases plain'
      | _ => cases plain

end Literal

end Lox
