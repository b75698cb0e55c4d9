/-
**Printed trees.** The text of an expression determines the expression.

* An expression is a head with suffixes behind it: calls and properties (`Suffix`, `Expr.extend`).
* A head in parentheses is determined by what stands between them (`Body`): a sign and its operand,
  an expression, or two expressions with an operator between them. Assignments are such bodies too,
  with the target for their left operand.
* `Expr.cancelsExtended`: what is written for a legible expression determines it, in front of
  anything that is no word, no point and no parenthesis. The induction is on the expression, with
  the suffixes that stand behind it carried along: only so the callee of a call, which another
  suffix may follow, can be compared with any other expression.
* `Expr.toText_eq_iff`: so expressions that were read from texts, whatever texts, are printed alike
  just if they are the same but for their places.
-/

import Lox.Proofs.Apart
import Lox.Proofs.Legible

namespace Lox

open Segment

/-! ### Characters -/

/-- The characters of the text of an expression. -/
def Expr.chars (expr : Expr Unit) : List Char :=
  expr.toText.toList

/-- The characters of the texts of arguments. -/
def argumentsChars (args : List (Expr Unit)) : List Char :=
  (argumentsText args).toList

/-- The characters of an argument behind others. -/
def Expr.furtherChars (arg : Expr Unit) : List Char :=
  ',' :: ' ' :: arg.chars

theorem argumentsText_cons (arg next : Expr Unit) (more : List (Expr Unit)) :
    argumentsText (arg :: next :: more) = arg.toText ++ ", " ++ argumentsText (next :: more) := by
  rw [argumentsText]
  exact List.cons_ne_nil _ _

theorem argumentsChars_cons (arg : Expr Unit) (more : List (Expr Unit)) :
    argumentsChars (arg :: more) = arg.chars ++ more.flatMap Expr.furtherChars := by
  induction more generalizing arg with
  | nil => rw [argumentsChars, argumentsText, List.flatMap_nil, List.append_nil, Expr.chars]
  | cons next more ih =>
      rw [List.flatMap_cons, Expr.furtherChars, List.cons_append, List.cons_append, ← ih,
        argumentsChars, argumentsText_cons, String.toList_append, String.toList_append,
        List.append_assoc]
      rfl

/-! ### Suffixes -/

/-- What can stand behind an operand: the arguments of a call, or the name of a property. -/
inductive Suffix where
  | call (paren : Token) (args : List (Expr Unit))
  | get (name : Token)

namespace Suffix

/-- An operand with a suffix behind it. -/
def onto : Suffix → Expr Unit → Expr Unit
  | call paren args, callee => .call callee paren args
  | get name, object => .get object name

/-- The characters of a suffix. -/
def chars : Suffix → List Char
  | call _ args => '(' :: (argumentsChars args ++ [')'])
  | get name => '.' :: name.lexeme.toList

/-- A suffix without the places where its tokens stand. -/
def unplaced : Suffix → Suffix
  | call paren args => .call paren.unplaced (args.map Expr.unplaced)
  | get name => .get name.unplaced

/-- The tokens of a suffix are regular, and the expressions in it legible. -/
def Legible : Suffix → Prop
  | call paren args => paren.Regular .parenClose ∧ eachArgument Expr.Legible args
  | get name => name.Regular .name

/-- Whether a character begins a suffix. -/
def begins (c : Char) : Bool :=
  c == '(' || c == '.'

theorem opens (suffix : Suffix) : ∃ c more, suffix.chars = c :: more ∧ begins c = true := by
  cases suffix with
  | call paren args => exact ⟨_, _, rfl, by decide⟩
  | get name => exact ⟨_, _, rfl, by decide⟩

end Suffix

namespace Expr

/-- An expression with suffixes behind it. -/
def extend (expr : Expr Unit) (suffixes : List Suffix) : Expr Unit :=
  suffixes.foldl (fun inner suffix => suffix.onto inner) expr

/-- Whether an expression is no call and no property. -/
def isHead : Expr Unit → Bool
  | .call _ _ _ | .get _ _ => false
  | _ => true

theorem extend_append (expr : Expr Unit) (suffixes : List Suffix) (suffix : Suffix) :
    expr.extend (suffixes ++ [suffix]) = suffix.onto (expr.extend suffixes) := by
  rw [extend, List.foldl_append]
  rfl

theorem chars_onto (expr : Expr Unit) (suffix : Suffix) :
    (suffix.onto expr).chars = expr.chars ++ suffix.chars := by
  cases suffix with
  | call paren args =>
      rw [Suffix.onto, chars, toText, String.toList_append, String.toList_append,
        String.toList_append, List.append_assoc, List.append_assoc]
      rfl
  | get name =>
      rw [Suffix.onto, chars, toText, String.toList_append, String.toList_append,
        List.append_assoc]
      rfl

theorem chars_extend (expr : Expr Unit) (suffixes : List Suffix) :
    (expr.extend suffixes).chars = expr.chars ++ suffixes.flatMap Suffix.chars := by
  induction suffixes generalizing expr with
  | nil => exact (List.append_nil _).symm
  | cons suffix more ih =>
      rw [List.flatMap_cons, ← List.append_assoc, ← chars_onto]
      exact ih (suffix.onto expr)

theorem unplaced_extend (expr : Expr Unit) (suffixes : List Suffix) :
    (expr.extend suffixes).unplaced = expr.unplaced.extend (suffixes.map Suffix.unplaced) := by
  induction suffixes generalizing expr with
  | nil => rfl
  | cons suffix more ih =>
      have one : (suffix.onto expr).unplaced = suffix.unplaced.onto expr.unplaced := by
        cases suffix with
        | call paren args => rw [Suffix.onto, unplaced, argumentsUnplaced_eq]; rfl
        | get name => rfl
      have step := ih (suffix.onto expr)
      rw [one] at step
      exact step

theorem each_extend {expr : Expr Unit} {suffixes : List Suffix} :
    (expr.extend suffixes).Each Legible ↔
      expr.Each Legible ∧ ∀ suffix ∈ suffixes, suffix.Legible := by
  induction suffixes generalizing expr with
  | nil => exact ⟨fun each => ⟨each, List.forall_mem_nil _⟩, And.left⟩
  | cons suffix more ih =>
      have one : (suffix.onto expr).Each Legible ↔ expr.Each Legible ∧ suffix.Legible := by
        cases suffix with
        | call paren args => exact and_left_comm
        | get name => exact and_comm
      rw [List.forall_mem_cons, ← and_assoc, ← one]
      exact ih

/-- Every expression is a head with suffixes behind it. -/
theorem exists_head : (expr : Expr Unit) → ∃ (head : Expr Unit) (suffixes : List Suffix),
    expr = head.extend suffixes ∧ head.isHead = true
  | .call callee paren args => by
    obtain ⟨head, suffixes, same, isHead⟩ := exists_head callee
    refine ⟨head, suffixes ++ [.call paren args], ?_, isHead⟩
    rw [extend_append, ← same]
    rfl
  | .get object name => by
    obtain ⟨head, suffixes, same, isHead⟩ := exists_head object
    refine ⟨head, suffixes ++ [.get name], ?_, isHead⟩
    rw [extend_append, ← same]
    rfl
  | .assign _ _ | .binary _ _ _ _ | .grouping _ | .literal _ | .logical _ _ _ _ | .set _ _ _
  | .super _ _ | .this _ | .unary _ _ _ | .var _ => ⟨_, [], rfl, rfl⟩

end Expr

/-! ### Operators and names -/

theorem Sign.isFixed (sign : Sign) : sign.terminal.isFixed = true := by
  cases sign <;> decide

/-- All the operators. -/
def Operator.all : List Operator :=
  [.assign, .connect .or, .connect .and, .compute .equal, .compute .notEqual, .compute .less,
    .compute .lessEqual, .compute .greater, .compute .greaterEqual, .compute .plus,
    .compute .minus, .compute .times, .compute .divide]

namespace Operator

theorem mem_all (op : Operator) : op ∈ all := by
  rcases op with _ | op | op
  · decide
  · cases op <;> decide
  · cases op <;> decide

theorem isFixed (op : Operator) : op.terminal.isFixed = true := by
  have listed : all.all (fun op => op.terminal.isFixed) = true := by decide
  exact List.all_eq_true.mp listed op op.mem_all

/-- An operator is determined by its text. -/
theorem fixed_injective {op other : Operator} (same : op.terminal.fixed = other.terminal.fixed) :
    op = other := by
  have distinct : (all.map fun op => op.terminal.fixed).Nodup := by decide
  exact List.inj_on_of_nodup_map distinct op.mem_all other.mem_all same

/-- There are no blanks in the text of an operator. -/
theorem fixed_ne_blank (op : Operator) : ∀ c ∈ op.terminal.fixed, (c != ' ') = true := by
  have listed : all.all (fun op => op.terminal.fixed.all (· != ' ')) = true := by decide
  exact List.all_eq_true.mp (List.all_eq_true.mp listed op op.mem_all)

end Operator

/-- A name is made of the characters of words. -/
theorem Token.Regular.wordChars {token : Token} (regular : token.Regular .name) :
    ∀ c ∈ token.lexeme.toList, isWordChar c = true := by
  obtain ⟨c, more, split, letter, word⟩ := Pattern.mem_word.mp regular.name.1
  rw [split]
  refine List.forall_mem_cons.mpr ⟨?_, word⟩
  rw [isWordChar, letter]
  rfl

/-- No name is a reserved word. -/
theorem Token.Regular.ne_reserved {token : Token} (regular : token.Regular .name)
    {word : List Char} {kind : Terminal} (listed : (String.ofList word, kind) ∈ Terminal.reserved) :
    token.lexeme.toList ≠ word := by
  obtain ⟨reserved, rfl⟩ := Terminal.mem_reserved_iff.mp listed
  exact regular.name.2 kind reserved

theorem Token.Regular.ne_this {token : Token} (regular : token.Regular .name) :
    token.lexeme.toList ≠ thisName.toList :=
  regular.ne_reserved (show (_, Terminal.this_) ∈ Terminal.reserved by decide)

theorem Token.Regular.ne_super {token : Token} (regular : token.Regular .name) :
    token.lexeme.toList ≠ superName.toList :=
  regular.ne_reserved (show (_, Terminal.super_) ∈ Terminal.reserved by decide)

/-! ### Heads -/

/-- What stands between the parentheses of a head. -/
inductive Body where
  | signed (sign : Sign) (right : Expr Unit)
  | grouped (inner : Expr Unit)
  | joined (left : Expr Unit) (op : Operator) (right : Expr Unit)

namespace Body

/-- The characters between the parentheses. -/
def chars : Body → List Char
  | signed sign right => sign.terminal.fixed ++ right.chars
  | grouped inner => inner.chars
  | joined left op right => left.chars ++ ' ' :: (op.terminal.fixed ++ ' ' :: right.chars)

/-- A body without the places where its tokens stand. -/
def unplaced : Body → Body
  | signed sign right => .signed sign right.unplaced
  | grouped inner => .grouped inner.unplaced
  | joined left op right => .joined left.unplaced op right.unplaced

/-- The expressions in a body are legible. -/
def Legible : Body → Prop
  | signed _ right => right.Each Expr.Legible
  | grouped inner => inner.Each Expr.Legible
  | joined left _ right => left.Each Expr.Legible ∧ right.Each Expr.Legible

/-- The expression with a body, with operators without places. -/
def tree : Body → Expr Unit
  | signed sign right => .unary sign sign.terminal.fixedToken right
  | grouped inner => .grouping inner
  | joined left op right => Tree.binary left op op.terminal.fixedToken right

end Body

namespace Expr

/-- What stands between the parentheses of an expression that is written in some. -/
def body? : Expr Unit → Option Body
  | .assign target value => some (.joined (.var target) .assign value)
  | .binary left op _ right => some (.joined left (.compute op) right)
  | .grouping inner => some (.grouped inner)
  | .logical left op _ right => some (.joined left (.connect op) right)
  | .set object name value => some (.joined (.get object name) .assign value)
  | .unary sign _ right => some (.signed sign right)
  | _ => none

/-- The word that an expression begins with if it is one, and what stands behind it. -/
def word? : Expr Unit → Option (List Char × List Char)
  | .super _ method => some (superName.toList, '.' :: method.lexeme.toList)
  | .this _ => some (thisName.toList, [])
  | .var name => some (name.token.lexeme.toList, [])
  | _ => none

variable {expr : Expr Unit} {body : Body}

theorem chars_body (found : expr.body? = some body) (legible : expr.Legible) :
    expr.chars = '(' :: (body.chars ++ [')']) := by
  cases expr with
  | assign target value =>
      cases found
      simp [chars, toText, Body.chars]
      rfl
  | binary left op token right =>
      cases found
      simp [chars, toText, Body.chars, ← legible.fixed (Operator.isFixed _)]
  | grouping inner =>
      cases found
      simp [chars, toText, Body.chars]
  | logical left op token right =>
      cases found
      simp [chars, toText, Body.chars, ← legible.fixed (Operator.isFixed _)]
  | set object name value =>
      cases found
      simp [chars, toText, Body.chars]
      rfl
  | unary sign token right =>
      cases found
      simp [chars, toText, Body.chars, ← legible.fixed sign.isFixed]
  | _ => cases found

/-- A head is determined by its body. -/
theorem unplaced_body (found : expr.body? = some body) (legible : expr.Legible) :
    expr.unplaced = body.unplaced.tree := by
  cases expr with
  | assign target value | grouping inner | set object name value =>
      cases found
      rfl
  | binary left op token right =>
      cases found
      rw [unplaced, legible.unplaced_of_fixed (Operator.isFixed _)]
      rfl
  | logical left op token right =>
      cases found
      rw [unplaced, legible.unplaced_of_fixed (Operator.isFixed _)]
      rfl
  | unary sign token right =>
      cases found
      rw [unplaced, legible.unplaced_of_fixed sign.isFixed]
      rfl
  | _ => cases found

theorem legible_body (found : expr.body? = some body) (each : expr.Each Legible) :
    body.Legible := by
  cases expr with
  | assign target value =>
      cases found
      exact each
  | grouping inner | unary sign token right =>
      cases found
      exact each.2
  | binary left op token right | logical left op token right =>
      cases found
      exact each.2
  | set object name value =>
      cases found
      exact ⟨⟨each.1, each.2.1⟩, each.2.2⟩
  | _ => cases found

theorem chars_literal (value : Literal) :
    (Expr.literal value).chars = "<Literal ".toList ++ (value.toText.toList ++ ['>']) := by
  rw [chars, toText, String.toList_append, String.toList_append, List.append_assoc]
  rfl

theorem chars_word {word behind : List Char} (found : expr.word? = some (word, behind)) :
    expr.chars = word ++ behind := by
  cases expr with
  | super keyword method =>
      cases found
      rw [chars, toText, String.toList_append]
      rfl
  | this keyword =>
      cases found
      rw [chars, toText, List.append_nil, thisName]
  | var name =>
      cases found
      rw [chars, toText, List.append_nil]
  | _ => cases found

/-- The word that begins an expression is one. -/
theorem word_spec {word behind : List Char} (found : expr.word? = some (word, behind))
    (legible : expr.Legible) : (∃ c more, word = c :: more ∧ isLetter c = true) ∧
      ∀ c ∈ word, isWordChar c = true := by
  cases expr with
  | super keyword method =>
      cases found
      exact ⟨⟨'s', _, rfl, by decide⟩, List.all_eq_true.mp (by decide)⟩
  | this keyword =>
      cases found
      exact ⟨⟨'t', _, rfl, by decide⟩, List.all_eq_true.mp (by decide)⟩
  | var name =>
      cases found
      obtain ⟨c, more, split, letter, _⟩ := Pattern.mem_word.mp legible.name.1
      exact ⟨⟨c, more, split, letter⟩, legible.wordChars⟩
  | _ => cases found

/-- The kinds of heads: in parentheses, a literal, or a word. -/
inductive Head : Expr Unit → Prop
  | enclosed {expr : Expr Unit} {body : Body} (found : expr.body? = some body) : Head expr
  | literal (value : Literal) : Head (.literal value)
  | word {expr : Expr Unit} {word behind : List Char} (found : expr.word? = some (word, behind)) :
      Head expr

theorem head_of_isHead (isHead : expr.isHead = true) : Head expr := by
  cases expr with
  | call | get => cases isHead
  | literal value => exact .literal value
  | super | this | var => exact .word rfl
  | _ => exact .enclosed rfl

/-- Whether a character begins an expression. -/
def begins (c : Char) : Bool :=
  c == '(' || c == '<' || isLetter c

/-- The first character of a head determines its kind. -/
theorem Head.opens (head : Head expr) (legible : expr.Legible) : ∃ c more, expr.chars = c :: more ∧
    begins c = true ∧ (c = '(' → ∃ body, expr.body? = some body) ∧
    (c = '<' → ∃ value, expr = .literal value) ∧
    (isLetter c = true → ∃ word behind, expr.word? = some (word, behind)) := by
  cases head with
  | enclosed found =>
      refine ⟨_, _, chars_body found legible, by decide, fun _ => ⟨_, found⟩, ?_, ?_⟩
      · intro other
        exact absurd other (by decide)
      · intro letter
        exact absurd letter (by decide)
  | literal value =>
      refine ⟨_, _, chars_literal value, by decide, ?_, fun _ => ⟨value, rfl⟩, ?_⟩
      · intro other
        exact absurd other (by decide)
      · intro letter
        exact absurd letter (by decide)
  | word found =>
      obtain ⟨⟨c, more, rfl, letter⟩, _⟩ := word_spec found legible
      refine ⟨c, _, chars_word found, ?_, ?_, ?_, fun _ => ⟨_, _, found⟩⟩
      · rw [begins, letter, Bool.or_true]
      · rintro rfl
        exact absurd letter (by decide)
      · rintro rfl
        exact absurd letter (by decide)

/-- A head that is written with a given first character is of the kind that the character
determines. -/
theorem kind_of_same {c : Char} {more rest : List Char} (isHead : expr.isHead = true)
    (legible : expr.Legible) (same : c :: more = expr.chars ++ rest) :
    (c = '(' → ∃ body, expr.body? = some body) ∧ (c = '<' → ∃ value, expr = .literal value) ∧
      (isLetter c = true → ∃ word behind, expr.word? = some (word, behind)) := by
  obtain ⟨first, others, split, _, kinds⟩ := (head_of_isHead isHead).opens legible
  rw [split] at same
  rw [(List.cons.inj same).1]
  exact kinds

/-- What holds of every expression in one holds of the expression itself. -/
theorem Each.here {asked : Expr Unit → Prop} (each : expr.Each asked) : asked expr := by
  cases expr with
  | literal | super | this | var => exact each
  | _ => exact each.1

/-- The first character of an expression. -/
theorem opens (each : expr.Each Legible) : ∃ c more, expr.chars = c :: more ∧ begins c = true := by
  obtain ⟨head, suffixes, rfl, isHead⟩ := exists_head expr
  obtain ⟨legible, _⟩ := each_extend.mp each
  obtain ⟨c, more, split, begin, _⟩ := (head_of_isHead isHead).opens legible.here
  rw [chars_extend, split]
  exact ⟨c, _, rfl, begin⟩

/-! ### Ways to write -/

/-- How expressions are written. -/
def script : Script (Expr Unit) (Expr Unit) where
  chars := chars
  form := unplaced
  fits expr := expr.Each Legible
  ends c := !(isWordChar c || Suffix.begins c)

/-- How heads are written. -/
def headScript : Script (Expr Unit) (Expr Unit) where
  chars := chars
  form := unplaced
  fits expr := expr.isHead = true ∧ expr.Each Legible
  ends c := !isWordChar c

end Expr

/-- How suffixes are written. -/
def Suffix.script : Script Suffix Suffix where
  chars := chars
  form := unplaced
  fits := Legible
  ends c := !isWordChar c

/-- How bodies are written. -/
def Body.script : Script Body Body where
  chars := chars
  form := unplaced
  fits := Legible
  ends c := c == ')'

/-- Words are determined by their characters. -/
theorem word_cancel {word word' rest rest' : List Char} (all : ∀ c ∈ word, isWordChar c = true)
    (all' : ∀ c ∈ word', isWordChar c = true) (ends : Suffix.script.Ends rest)
    (ends' : Suffix.script.Ends rest') (same : word ++ rest = word' ++ rest') :
    word = word' ∧ rest = rest' := by
  have stop : ∀ {rest : List Char}, Suffix.script.Ends rest →
      ∀ c ∈ rest.head?, isWordChar c = false := by
    intro rest ends c head
    exact (Bool.not_eq_true' _).mp (ends c head)
  exact cancel_span isWordChar all all' (stop ends) (stop ends') same

namespace Body

variable {sign : Sign} {left right : Expr Unit} {op : Operator}

/-- Behind a closing parenthesis nothing continues an expression. -/
theorem ends_expr {rest : List Char} (ends : script.Ends rest) : Expr.script.Ends rest := by
  intro c head
  obtain rfl := beq_iff_eq.mp (ends c head)
  decide

/-- Nor does it behind a blank. -/
theorem ends_blank (rest : List Char) : Expr.script.Ends (' ' :: rest) := by
  rintro _ ⟨⟩
  decide

/-- But a blank does not end a body. -/
theorem not_ends_blank (rest : List Char) : ¬ script.Ends (' ' :: rest) := by
  intro ends
  exact absurd (ends ' ' rfl) (by decide)

/-- No expression begins with a sign. -/
theorem sign_ne {c : Char} {chars rest : List Char} (begin : Expr.begins c = true) :
    sign.terminal.fixed ++ chars ≠ c :: rest := by
  cases sign with
  | not =>
      rintro ⟨⟩
      exact absurd begin (by decide)
  | negative =>
      rintro ⟨⟩
      exact absurd begin (by decide)

theorem sign_cancel {other : Sign} {rest rest' : List Char}
    (same : sign.terminal.fixed ++ rest = other.terminal.fixed ++ rest') :
    sign = other ∧ rest = rest' := by
  cases sign <;> cases other
  · exact ⟨rfl, (List.cons.inj same).2⟩
  · exact absurd (List.cons.inj same).1 (by decide)
  · exact absurd (List.cons.inj same).1 (by decide)
  · exact ⟨rfl, (List.cons.inj same).2⟩

theorem chars_signed (rest : List Char) :
    (signed sign right).chars ++ rest = sign.terminal.fixed ++ (right.chars ++ rest) :=
  List.append_assoc _ _ _

theorem chars_joined (rest : List Char) : (joined left op right).chars ++ rest =
    left.chars ++ ' ' :: (op.terminal.fixed ++ ' ' :: (right.chars ++ rest)) := by
  rw [chars, List.append_assoc, List.cons_append, List.append_assoc, List.cons_append]

theorem cancels_signed (cancels : Expr.script.Cancels right) :
    script.Cancels (signed sign right) := by
  intro other fits rest rest' ends ends' same
  have same : (signed sign right).chars ++ rest = other.chars ++ rest' := same
  rw [chars_signed] at same
  cases other with
  | signed sign' right' =>
      rw [chars_signed] at same
      obtain ⟨rfl, after⟩ := sign_cancel same
      obtain ⟨form, rests⟩ := cancels right' fits _ _ (ends_expr ends) (ends_expr ends') after
      exact ⟨congrArg (signed sign) form, rests⟩
  | grouped inner =>
      have each : inner.Each Expr.Legible := fits
      obtain ⟨c, more, split, begin⟩ := Expr.opens each
      rw [chars, split] at same
      exact absurd same (sign_ne begin)
  | joined left op right' =>
      have each : left.Each Expr.Legible := fits.1
      obtain ⟨c, more, split, begin⟩ := Expr.opens each
      rw [chars_joined, split] at same
      exact absurd same (sign_ne begin)

theorem cancels_grouped {inner : Expr Unit} (cancels : Expr.script.Cancels inner)
    (each : inner.Each Expr.Legible) : script.Cancels (grouped inner) := by
  intro other fits rest rest' ends ends' same
  have same : inner.chars ++ rest = other.chars ++ rest' := same
  cases other with
  | signed sign right =>
      obtain ⟨c, more, split, begin⟩ := Expr.opens each
      rw [chars_signed, split] at same
      exact absurd same.symm (sign_ne begin)
  | grouped inner' =>
      obtain ⟨form, rests⟩ := cancels inner' fits _ _ (ends_expr ends) (ends_expr ends') same
      exact ⟨congrArg grouped form, rests⟩
  | joined left op right =>
      rw [chars_joined] at same
      obtain ⟨_, rests⟩ := cancels left fits.1 _ _ (ends_expr ends) (ends_blank _) same
      rw [rests] at ends
      exact absurd ends (not_ends_blank _)

theorem cancels_joined (first : Expr.script.Cancels left) (each : left.Each Expr.Legible)
    (second : Expr.script.Cancels right) : script.Cancels (joined left op right) := by
  intro other fits rest rest' ends ends' same
  have same : (joined left op right).chars ++ rest = other.chars ++ rest' := same
  rw [chars_joined] at same
  cases other with
  | signed sign right' =>
      obtain ⟨c, more, split, begin⟩ := Expr.opens each
      rw [chars_signed, split] at same
      exact absurd same.symm (sign_ne begin)
  | grouped inner =>
      obtain ⟨_, rests⟩ := first inner fits _ _ (ends_blank _) (ends_expr ends') same
      rw [← rests] at ends'
      exact absurd ends' (not_ends_blank _)
  | joined left' op' right' =>
      -- Left operands, operators up to the next blank, right operands.
      rw [chars_joined] at same
      obtain ⟨lefts, after⟩ := first left' fits.1 _ _ (ends_blank _) (ends_blank _) same
      have stop : ∀ rest : List Char, ∀ c ∈ (' ' :: rest).head?, (c != ' ') = false := by
        rintro rest _ ⟨⟩
        rfl
      obtain ⟨ops, behind⟩ := cancel_span (· != ' ') op.fixed_ne_blank op'.fixed_ne_blank (stop _)
        (stop _) (List.cons.inj after).2
      obtain rfl := Operator.fixed_injective ops
      obtain ⟨rights, rests⟩ := second right' fits.2 _ _ (ends_expr ends) (ends_expr ends')
        (List.cons.inj behind).2
      refine ⟨?_, rests⟩
      show joined left.unplaced op right.unplaced = joined left'.unplaced op right'.unplaced
      rw [show left.unplaced = left'.unplaced from lefts,
        show right.unplaced = right'.unplaced from rights]

end Body

/-! ### Telling heads -/

namespace Expr

variable {expr : Expr Unit} {body : Body}

/-- **A head in parentheses is determined** if its body is. -/
theorem cancels_enclosed (found : expr.body? = some body) (each : expr.Each Legible)
    (cancels : Body.script.Cancels body) : headScript.Cancels expr := by
  rintro other ⟨isHead, fits⟩ rest rest' _ _ same
  have same : expr.chars ++ rest = other.chars ++ rest' := same
  rw [chars_body found each.here, List.cons_append] at same
  obtain ⟨body', found'⟩ := (kind_of_same isHead fits.here same).1 rfl
  rw [chars_body found' fits.here, List.cons_append, List.append_assoc, List.append_assoc] at same
  have close : ∀ rest : List Char, Body.script.Ends ([')'] ++ rest) := by
    rintro rest _ ⟨⟩
    decide
  obtain ⟨form, rests⟩ := cancels body' (legible_body found' fits) _ _ (close rest) (close rest')
    (List.cons.inj same).2
  refine ⟨?_, (List.cons.inj rests).2⟩
  show expr.unplaced = other.unplaced
  rw [unplaced_body found each.here, unplaced_body found' fits.here]
  exact congrArg Body.tree form

/-- **A literal is determined.** -/
theorem cancels_literal {value : Literal} (proper : value.Proper) :
    headScript.Cancels (.literal value) := by
  rintro other ⟨isHead, fits⟩ rest rest' _ _ same
  have same : (Expr.literal value).chars ++ rest = other.chars ++ rest' := same
  rw [chars_literal] at same
  obtain ⟨value', rfl⟩ := (kind_of_same isHead fits.here same).2.1 rfl
  rw [chars_literal, List.append_assoc, List.append_assoc, List.append_assoc,
    List.append_assoc] at same
  obtain ⟨rfl, rests⟩ := Literal.toText_cancel proper (List.append_cancel_left same)
  exact ⟨rfl, rests⟩

/-- What stands behind a word ends it. -/
theorem ends_behind {word behind rest : List Char} (found : expr.word? = some (word, behind))
    (ends : Suffix.script.Ends rest) : Suffix.script.Ends (behind ++ rest) := by
  cases expr with
  | super keyword method =>
      cases found
      rintro _ ⟨⟩
      decide
  | this | var =>
      cases found
      exact ends
  | _ => cases found

/-- **A word is determined**: names are not reserved, and so none of them is `this` or `super`. -/
theorem cancels_word {word behind : List Char} (found : expr.word? = some (word, behind))
    (legible : expr.Legible) : headScript.Cancels expr := by
  rintro other ⟨isHead, fits⟩ rest rest' ends ends' same
  have same : expr.chars ++ rest = other.chars ++ rest' := same
  obtain ⟨⟨first, letters, start, letter⟩, all⟩ := word_spec found legible
  rw [chars_word found] at same
  obtain ⟨word', behind', found'⟩ : ∃ word behind, other.word? = some (word, behind) := by
    rw [start] at same
    exact (kind_of_same isHead fits.here same).2.2 letter
  rw [chars_word found', List.append_assoc, List.append_assoc] at same
  -- The words agree; only two words of the same kind do.
  obtain ⟨words, rests⟩ := word_cancel all (word_spec found' fits.here).2 (ends_behind found ends)
    (ends_behind found' ends') same
  cases expr with
  | var name =>
      cases found
      cases other with
      | var name' =>
          cases found'
          have tokens := legible.congr fits (String.toList_inj.mp words)
          exact ⟨congrArg (fun token => var ⟨token, ()⟩) tokens, rests⟩
      | this =>
          cases found'
          exact absurd words legible.ne_this
      | super =>
          cases found'
          exact absurd words legible.ne_super
      | _ => cases found'
  | this keyword =>
      cases found
      cases other with
      | var name' =>
          cases found'
          exact absurd words.symm (Token.Regular.ne_this fits)
      | this keyword' =>
          cases found'
          have tokens := (legible.unplaced_of_fixed rfl).trans
            (Token.Regular.unplaced_of_fixed fits rfl).symm
          exact ⟨congrArg (fun token => this ⟨token, ()⟩) tokens, rests⟩
      | super =>
          cases found'
          exact absurd words (by decide)
      | _ => cases found'
  | super keyword method =>
      cases found
      cases other with
      | var name' =>
          cases found'
          exact absurd words.symm (Token.Regular.ne_super fits)
      | this =>
          cases found'
          exact absurd words (by decide)
      | super keyword' method' =>
          cases found'
          obtain ⟨methods, rests⟩ := word_cancel legible.2.wordChars fits.2.wordChars ends ends'
            (List.cons.inj rests).2
          have tokens := (legible.1.unplaced_of_fixed rfl).trans (fits.1.unplaced_of_fixed rfl).symm
          have names := legible.2.congr fits.2 (String.toList_inj.mp methods)
          refine ⟨?_, rests⟩
          show super ⟨keyword.token.unplaced, ()⟩ method.unplaced =
            super ⟨keyword'.token.unplaced, ()⟩ method'.unplaced
          rw [tokens, names]
      | _ => cases found'
  | _ => cases found

end Expr

/-! ### Telling suffixes -/

/-- How arguments behind others are written. -/
def furtherScript : Script (Expr Unit) (Expr Unit) where
  chars := Expr.furtherChars
  form := Expr.unplaced
  fits expr := expr.Each Expr.Legible
  ends := Expr.script.ends

/-- Every argument behind others begins with a comma. -/
theorem opens_further (arg : Expr Unit) :
    ∃ c more, furtherScript.chars arg = c :: more ∧ (c == ',') = true :=
  ⟨_, _, rfl, rfl⟩

/-- Behind an argument there may be a comma. -/
theorem ends_comma (c : Char) (comma : (c == ',') = true) : furtherScript.ends c = true := by
  rw [beq_iff_eq.mp comma]
  decide

/-- Behind the last one there is a parenthesis. -/
theorem ends_close (rest : List Char) : furtherScript.Ends (')' :: rest) := by
  rintro _ ⟨⟩
  decide

theorem cancels_further {arg : Expr Unit} (cancels : Expr.script.Cancels arg) :
    furtherScript.Cancels arg := by
  intro other fits rest rest' ends ends' same
  obtain ⟨_, inner⟩ := List.cons.inj (List.cons.inj same).2
  exact cancels other fits rest rest' ends ends' inner

/-- **Arguments behind others are determined** in front of the parenthesis that closes them. -/
theorem further_cancel {args others : List (Expr Unit)}
    (cancels : ∀ arg ∈ args, Expr.script.Cancels arg) (fit : ∀ arg ∈ others, arg.Each Expr.Legible)
    {rest rest' : List Char} (same : args.flatMap Expr.furtherChars ++ ')' :: rest =
      others.flatMap Expr.furtherChars ++ ')' :: rest') :
    args.map Expr.unplaced = others.map Expr.unplaced ∧ rest = rest' := by
  have close : ∀ rest : List Char, ∀ c ∈ (')' :: rest).head?, (c == ',') = false := by
    rintro rest _ ⟨⟩
    decide
  obtain ⟨forms, rests⟩ := furtherScript.cancels_all opens_further ends_comma
    (fun arg member => cancels_further (cancels arg member)) fit (ends_close rest)
    (ends_close rest')
    (close rest) (close rest') same
  exact ⟨forms, (List.cons.inj rests).2⟩

/-- A closing parenthesis does not begin an argument. -/
theorem close_ne_arguments {arg : Expr Unit} {more : List (Expr Unit)} {rest rest' : List Char}
    (each : arg.Each Expr.Legible) : ')' :: rest ≠ argumentsChars (arg :: more) ++ rest' := by
  intro same
  obtain ⟨c, others, split, begin⟩ := Expr.opens each
  rw [argumentsChars_cons, split] at same
  rw [← (List.cons.inj same).1] at begin
  exact absurd begin (by decide)

/-- **Arguments are determined** if each of them is. -/
theorem arguments_cancel {args others : List (Expr Unit)}
    (cancels : ∀ arg ∈ args, Expr.script.Cancels arg) (each : ∀ arg ∈ args, arg.Each Expr.Legible)
    (fit : ∀ arg ∈ others, arg.Each Expr.Legible) {rest rest' : List Char}
    (same : argumentsChars args ++ ')' :: rest = argumentsChars others ++ ')' :: rest') :
    args.map Expr.unplaced = others.map Expr.unplaced ∧ rest = rest' := by
  cases args with
  | nil =>
      cases others with
      | nil => exact ⟨rfl, (List.cons.inj same).2⟩
      | cons other others => exact absurd same (close_ne_arguments (fit other List.mem_cons_self))
  | cons arg args =>
      cases others with
      | nil => exact absurd same.symm (close_ne_arguments (each arg List.mem_cons_self))
      | cons other others =>
          obtain ⟨one, more⟩ := List.forall_mem_cons.mp cancels
          obtain ⟨fits, fit⟩ := List.forall_mem_cons.mp fit
          rw [argumentsChars_cons, argumentsChars_cons, List.append_assoc,
            List.append_assoc] at same
          obtain ⟨first, after⟩ := one other fits _ _
            (Script.ends_flatMap opens_further ends_comma args (ends_close rest))
            (Script.ends_flatMap opens_further ends_comma others (ends_close rest')) same
          obtain ⟨forms, rests⟩ := further_cancel more fit after
          refine ⟨?_, rests⟩
          rw [List.map_cons, List.map_cons, forms, show arg.unplaced = other.unplaced from first]

namespace Suffix

/-- **A property is determined.** -/
theorem cancels_get {name : Token} (regular : name.Regular .name) : script.Cancels (get name) := by
  intro other fits rest rest' ends ends' same
  cases other with
  | call => exact absurd (List.cons.inj same).1 (by decide)
  | get name' =>
      obtain ⟨names, rests⟩ := word_cancel regular.wordChars (Token.Regular.wordChars fits) ends
        ends' (List.cons.inj same).2
      have tokens := regular.congr fits (String.toList_inj.mp names)
      exact ⟨congrArg get tokens, rests⟩

/-- **The arguments of a call are determined** if each of them is. -/
theorem cancels_call {paren : Token} {args : List (Expr Unit)} (regular : paren.Regular .parenClose)
    (each : eachArgument Expr.Legible args) (cancels : ∀ arg ∈ args, Expr.script.Cancels arg) :
    script.Cancels (call paren args) := by
  intro other fits rest rest' _ _ same
  cases other with
  | get => exact absurd (List.cons.inj same).1 (by decide)
  | call paren' args' =>
      have same : argumentsChars args ++ [')'] ++ rest = argumentsChars args' ++ [')'] ++ rest' :=
        (List.cons.inj same).2
      rw [List.append_assoc, List.append_assoc] at same
      obtain ⟨forms, rests⟩ := arguments_cancel cancels (eachArgument_iff.mp each)
        (eachArgument_iff.mp fits.2) same
      have tokens := (regular.unplaced_of_fixed rfl).trans (fits.1.unplaced_of_fixed rfl).symm
      refine ⟨?_, rests⟩
      show call paren.unplaced (args.map Expr.unplaced) =
        call paren'.unplaced (args'.map Expr.unplaced)
      rw [tokens, forms]

end Suffix

/-! ### Telling expressions -/

namespace Expr

variable {expr : Expr Unit}

/-- **A head with suffixes is determined** if all of them are. -/
theorem cancels_extend {head : Expr Unit} {suffixes : List Suffix}
    (cancels : headScript.Cancels head)
    (all : ∀ suffix ∈ suffixes, Suffix.script.Cancels suffix) :
    script.Cancels (head.extend suffixes) := by
  intro other fits rest rest' ends ends' same
  have same : (head.extend suffixes).chars ++ rest = other.chars ++ rest' := same
  have goesOn : ∀ c, Suffix.begins c = true → Suffix.script.ends c = true := by
    intro c begin
    rw [Suffix.begins, Bool.or_eq_true, beq_iff_eq, beq_iff_eq] at begin
    rcases begin with rfl | rfl <;> decide
  have stops : ∀ {rest : List Char}, script.Ends rest → Suffix.script.Ends rest ∧
      ∀ c ∈ rest.head?, Suffix.begins c = false := by
    intro rest ends
    have both : ∀ c ∈ rest.head?, isWordChar c = false ∧ Suffix.begins c = false := by
      intro c head
      exact Bool.or_eq_false_iff.mp ((Bool.not_eq_true' _).mp (ends c head))
    exact ⟨fun c head => (Bool.not_eq_true' _).mpr (both c head).1, fun c head => (both c head).2⟩
  -- The other expression is taken apart in the same way, so that no induction on it is needed.
  obtain ⟨head', suffixes', rfl, isHead⟩ := exists_head other
  obtain ⟨legible, fit⟩ := each_extend.mp fits
  rw [chars_extend, chars_extend, List.append_assoc, List.append_assoc] at same
  obtain ⟨heads, after⟩ := cancels head' ⟨isHead, legible⟩ _ _
    (Script.ends_flatMap Suffix.opens goesOn suffixes (stops ends).1)
    (Script.ends_flatMap Suffix.opens goesOn suffixes' (stops ends').1) same
  obtain ⟨forms, rests⟩ := Suffix.script.cancels_all Suffix.opens goesOn all fit (stops ends).1
    (stops ends').1 (stops ends).2 (stops ends').2 after
  refine ⟨?_, rests⟩
  show (head.extend suffixes).unplaced = (head'.extend suffixes').unplaced
  rw [unplaced_extend, unplaced_extend, show head.unplaced = head'.unplaced from heads]
  exact congrArg _ forms

/-- An expression is determined, with whatever suffixes stand behind it. -/
def CancelsExtended (expr : Expr Unit) : Prop :=
  ∀ suffixes : List Suffix, (∀ suffix ∈ suffixes, Suffix.script.Cancels suffix) →
    script.Cancels (expr.extend suffixes)

namespace CancelsExtended

theorem cancels (extended : CancelsExtended expr) : script.Cancels expr :=
  extended [] (List.forall_mem_nil _)

theorem head (cancels : headScript.Cancels expr) : CancelsExtended expr :=
  fun _ all => cancels_extend cancels all

theorem call {callee : Expr Unit} {paren : Token} {args : List (Expr Unit)}
    (extended : CancelsExtended callee) (regular : paren.Regular .parenClose)
    (each : eachArgument Legible args)
    (others : ∀ arg ∈ args, CancelsExtended arg) : CancelsExtended (.call callee paren args) := by
  have suffix := Suffix.cancels_call regular each fun arg member => (others arg member).cancels
  exact fun suffixes all => extended (.call paren args :: suffixes)
    (List.forall_mem_cons.mpr ⟨suffix, all⟩)

theorem get {object : Expr Unit} {name : Token} (extended : CancelsExtended object)
    (regular : name.Regular .name) : CancelsExtended (.get object name) :=
  fun suffixes all => extended (.get name :: suffixes)
    (List.forall_mem_cons.mpr ⟨Suffix.cancels_get regular, all⟩)

theorem signed {sign : Sign} {right : Expr Unit} (found : expr.body? = some (.signed sign right))
    (each : expr.Each Legible) (extended : CancelsExtended right) : CancelsExtended expr :=
  head (cancels_enclosed found each (Body.cancels_signed extended.cancels))

theorem grouped {inner : Expr Unit} (found : expr.body? = some (.grouped inner))
    (each : expr.Each Legible) (extended : CancelsExtended inner) : CancelsExtended expr :=
  head (cancels_enclosed found each
    (Body.cancels_grouped extended.cancels (legible_body found each)))

theorem joined {left right : Expr Unit} {op : Operator}
    (found : expr.body? = some (.joined left op right)) (each : expr.Each Legible)
    (first : CancelsExtended left) (second : CancelsExtended right) : CancelsExtended expr :=
  head (cancels_enclosed found each
    (Body.cancels_joined first.cancels (legible_body found each).1 second.cancels))

end CancelsExtended

mutual

/-- **A legible expression is determined by its characters.** -/
theorem cancelsExtended : (expr : Expr Unit) → expr.Each Legible → CancelsExtended expr
  | .call callee _ args, each =>
    (cancelsExtended callee each.2.1).call each.1 each.2.2 (arguments_cancelExtended args each.2.2)
  | .get object _, each => (cancelsExtended object each.2).get each.1
  | .unary _ _ right, each => .signed rfl each (cancelsExtended right each.2)
  | .grouping inner, each => .grouped rfl each (cancelsExtended inner each.2)
  | .binary left _ _ right, each | .logical left _ _ right, each =>
    .joined rfl each (cancelsExtended left each.2.1) (cancelsExtended right each.2.2)
  | .assign target value, each =>
    have named : (Expr.var target).Legible := each.1
    .joined rfl each (.head (cancels_word rfl named)) (cancelsExtended value each.2)
  | .set object _ value, each =>
    .joined rfl each ((cancelsExtended object each.2.1).get each.1) (cancelsExtended value each.2.2)
  | .literal _, each => .head (cancels_literal each)
  | .super _ _, each | .this _, each | .var _, each => .head (cancels_word rfl each)

theorem arguments_cancelExtended : (args : List (Expr Unit)) → eachArgument Legible args →
    ∀ arg ∈ args, CancelsExtended arg
  | [], _ => List.forall_mem_nil _
  | arg :: more, each =>
    List.forall_mem_cons.mpr ⟨cancelsExtended arg each.1, arguments_cancelExtended more each.2⟩

end

/-- **Legible expressions with the same text are the same**, but for their places. -/
theorem unplaced_of_toText {expr other : Expr Unit} (each : expr.Each Legible)
    (each' : other.Each Legible) (same : expr.toText = other.toText) :
    expr.unplaced = other.unplaced := by
  have alike : expr.chars ++ [] = other.chars ++ [] := by
    rw [chars, same, chars]
  have ends : script.Ends [] := by rintro _ ⟨⟩
  exact ((cancelsExtended expr each).cancels other each' [] [] ends ends alike).1

mutual

/-- Places are not printed. -/
theorem toText_unplaced : (expr : Expr Unit) → expr.unplaced.toText = expr.toText
  | .assign _ value => by
    rw [unplaced, toText, toText, toText_unplaced value]
    rfl
  | .binary left _ _ right => by
    rw [unplaced, toText, toText, toText_unplaced left, toText_unplaced right]
    rfl
  | .call callee _ args => by
    rw [unplaced, toText, toText, toText_unplaced callee, argumentsText_unplaced args]
  | .get object _ => by
    rw [unplaced, toText, toText, toText_unplaced object]
    rfl
  | .grouping inner => by
    rw [unplaced, toText, toText, toText_unplaced inner]
  | .literal _ => rfl
  | .logical left _ _ right => by
    rw [unplaced, toText, toText, toText_unplaced left, toText_unplaced right]
    rfl
  | .set object _ value => by
    rw [unplaced, toText, toText, toText_unplaced object, toText_unplaced value]
    rfl
  | .super _ _ => by
    rw [unplaced, toText, toText]
    rfl
  | .this _ => by
    rw [unplaced, toText, toText]
  | .unary _ _ right => by
    rw [unplaced, toText, toText, toText_unplaced right]
    rfl
  | .var _ => by
    rw [unplaced, toText, toText]
    rfl

theorem argumentsText_unplaced : (args : List (Expr Unit)) →
    argumentsText (argumentsUnplaced args) = argumentsText args
  | [] => rfl
  | [arg] => by
    rw [argumentsUnplaced, argumentsUnplaced, argumentsText, argumentsText, toText_unplaced arg]
  | arg :: next :: more => by
    have rest := argumentsText_unplaced (next :: more)
    rw [argumentsUnplaced] at rest
    rw [argumentsUnplaced, argumentsUnplaced, argumentsText_cons, argumentsText_cons,
      toText_unplaced arg, rest]

end

/-- **The printed form of an expression determines it.** Take any two expressions in what any two
texts were read into, with errors or without, in whatever reports. They are printed alike just if
they are the same tree with the same operators, names and literals; only the lines and offsets of
their tokens may differ. -/
theorem toText_eq_iff {first second : Report} {text text' : String}
    {tree tree' : List (Stmt Unit)} (read : (first.parseText text).2 = some tree)
    (read' : (second.parseText text').2 = some tree') {expr other : Expr Unit}
    (member : expr ∈ expressionsIn tree) (member' : other ∈ expressionsIn tree') :
    expr.toText = other.toText ↔ expr.unplaced = other.unplaced := by
  obtain rfl := Report.parseText_tree read
  obtain rfl := Report.parseText_tree read'
  have each := eachIn.expressions _ (parse_legible text) expr member
  have each' := eachIn.expressions _ (parse_legible text') other member'
  refine ⟨unplaced_of_toText each each', fun same => ?_⟩
  rw [← toText_unplaced expr, same, toText_unplaced]

/-- A text with a property that is set, the arguments of a call, and signs. -/
def straight : String :=
  "print a.b(1, \"(\").c = -d or !this.e;"

/-- The same behind a declaration that is skipped, with other blanks. -/
def spread : String :=
  "var = 1; print a . b (1,\n\"(\") . c = - d\n or ! this . e ;"

theorem toText_eq_iff_spread :
    (({} : Report).parseText spread).1.issues.size = 1 ∧
    ∃ tree, (({} : Report).parseText straight).2 = some tree ∧
    ∃ tree', (({} : Report).parseText spread).2 = some tree' ∧
    ∃ expr ∈ expressionsIn tree, ∃ other ∈ expressionsIn tree',
      expr.toText = "(a.b(<Literal 1.0>, <Literal '('>).c = ((-d) or (!this.e)))" ∧
      other.toText = "(a.b(<Literal 1.0>, <Literal '('>).c = ((-d) or (!this.e)))" ∧
      expr.unplaced = other.unplaced := by
  have whole : (({} : Report).parseText straight).2.isSome = true := by decide +kernel
  have whole' : (({} : Report).parseText spread).2.isSome = true := by decide +kernel
  have printed : (expressionsIn (parse straight).tree).head?.map toText =
      some "(a.b(<Literal 1.0>, <Literal '('>).c = ((-d) or (!this.e)))" := by decide +kernel
  have printed' : (expressionsIn (parse spread).tree).head?.map toText =
      some "(a.b(<Literal 1.0>, <Literal '('>).c = ((-d) or (!this.e)))" := by decide +kernel
  obtain ⟨tree, read⟩ := Option.isSome_iff_exists.mp whole
  obtain ⟨tree', read'⟩ := Option.isSome_iff_exists.mp whole'
  rw [← Report.parseText_tree read] at printed
  rw [← Report.parseText_tree read'] at printed'
  obtain ⟨expr, first, text⟩ := Option.map_eq_some_iff.mp printed
  obtain ⟨other, first', text'⟩ := Option.map_eq_some_iff.mp printed'
  have member := List.mem_of_head? first
  have member' := List.mem_of_head? first'
  exact ⟨by decide +kernel, tree, read, tree', read', expr, member, other, member', text, text',
    (toText_eq_iff read read' member member').mp (text.trans text'.symm)⟩

end Expr

end Lox
