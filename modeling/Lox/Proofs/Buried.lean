/-
**Buried expressions.** Texts in which an expression stands under as many negations as one likes.

* `negated` is such an expression. Exclamation marks are scanned into the tokens that it is written
  with (`scan_bangs`), and what is read from them is as deep (`Expr.like_negated`).
* `parse_buried`: a text with exclamation marks in it is read as it is written.
-/

import Lox.Proofs.Nesting
import Lox.Proofs.ReadBack

namespace Lox

/-! ### Negations -/

/-- An expression, negated a number of times. -/
def negated (inner : Expr Unit) : Nat → Expr Unit
  | 0 => inner
  | count + 1 => .unary .not ⟨.bang, "!", .nil, 0, 0⟩ (negated inner count)

section Negated

variable {inner : Expr Unit}

theorem unaryLevel_le_negated (tight : Operator.unaryLevel ≤ inner.level) (count : Nat) :
    Operator.unaryLevel ≤ (negated inner count).level := by
  cases count with
  | zero => exact tight
  | succ count => exact Nat.le_refl Operator.unaryLevel

theorem negated_writable (tight : Operator.unaryLevel ≤ inner.level)
    (writable : inner.Each Expr.Writable) (count : Nat) :
    (negated inner count).Each Expr.Writable := by
  induction count with
  | zero => exact writable
  | succ count ih => exact ⟨⟨rfl, unaryLevel_le_negated tight count⟩, ih⟩

/-- What is the same as a negated expression, but for places, has the same in it, as deep down. -/
theorem Expr.like_negated {expr : Expr Unit} {count : Nat}
    (same : expr.unplaced = (negated inner count).unplaced) :
    ∃ own : Expr Unit, own.unplaced = inner.unplaced ∧ expr.references = own.references ∧
      expr.depth = own.depth + 2 * count := by
  induction count generalizing expr with
  | zero => exact ⟨expr, same, rfl, rfl⟩
  | succ count ih =>
      cases expr with
      | unary sign token right =>
          obtain ⟨own, like, references, depth⟩ := ih (Expr.unary.inj same).2.2
          refine ⟨own, like, references, ?_⟩
          rw [Expr.depth, depth]
          omega
      | _ => cases same

end Negated

/-! ### Exclamation marks -/

theorem cut_bang {rest : List Char} (apart : rest.head? ≠ some '=') :
    Segment.cut '!' rest = (⟨.token .bang, ['!']⟩, rest) := by
  rw [Segment.cut, if_neg (by decide), if_neg (by decide), if_neg (by decide), if_neg (by decide),
    if_neg (by decide)]
  fun_cases Segment.cutMark '!' rest with
  | case1 single double after found => exact absurd rfl apart
  | case2 rest single double found =>
      obtain ⟨rfl, _⟩ := Prod.mk.inj (Option.some.inj found)
      rfl
  | case3 _ none => cases none
  | case4 _ none => cases none

theorem segments_bangs {rest : List Char} (apart : rest.head? ≠ some '=') (count : Nat) :
    segments (List.replicate count '!' ++ rest) =
      List.replicate count ⟨.token .bang, ['!']⟩ ++ segments rest := by
  induction count with
  | zero => rfl
  | succ count ih =>
      have next : (List.replicate count '!' ++ rest).head? ≠ some '=' := by
        cases count with
        | zero => exact apart
        | succ count =>
            show some '!' ≠ some '='
            decide
      rw [List.replicate_succ, List.cons_append, segments, cut_bang next, ih]
      rfl

/-- Exclamation marks are scanned into tokens that are written like negations. -/
theorem scan_bangs (inner : Expr Unit) (more : List Segment) (offset count : Nat) :
    ∃ tokens, Scan.ofSegments (List.replicate count ⟨.token .bang, ['!']⟩ ++ more) 1 offset =
        tokens.map Scanned.token ++ Scan.ofSegments more 1 (offset + count) ∧
      ∀ {marks : List Mark} {rest : List Token}, Writes (inner.written ++ marks) rest →
        Writes ((negated inner count).written ++ marks) (tokens ++ rest) := by
  induction count generalizing offset with
  | zero => exact ⟨[], rfl, fun writes => writes⟩
  | succ count ih =>
      obtain ⟨tokens, scanned, written⟩ := ih (offset + 1)
      refine ⟨⟨.bang, "!", .nil, 1, offset⟩ :: tokens, ?_,
        fun writes => List.Forall₂.cons rfl (written writes)⟩
      rw [List.replicate_succ, List.cons_append, Scan.ofSegments, Nat.add_comm count 1,
        ← Nat.add_assoc]
      exact congrArg _ scanned

/-- **A text with exclamation marks is read as it is written**: what stands in front of them, the
negations, and what stands behind them. -/
theorem parse_buried {text : String} {count offset : Nat} {before after : List Segment}
    {front back : List Token} {tree : List (Stmt Unit)} {inner : Expr Unit}
    {opening closing : List Mark}
    (cut : segments text.toList =
      before ++ (List.replicate count ⟨.token .bang, ['!']⟩ ++ after))
    (begins : ∀ more, Scan.ofSegments (before ++ more) 1 0 =
      front.map Scanned.token ++ Scan.ofSegments more 1 offset)
    (ends : Scan.ofSegments after 1 (offset + count) = back.map Scanned.token)
    (writable : eachIn Writable tree)
    (shape : programWritten tree = opening ++ ((negated inner count).written ++ closing))
    (opens : Writes opening front) (closes : Writes (inner.written ++ closing) back) :
    (parse text).tree.map Stmt.unplaced = tree.map Stmt.unplaced := by
  obtain ⟨marks, scanned, written⟩ := scan_bangs inner after offset count
  have tokens : scan text = (front ++ (marks ++ back)).map Scanned.token := by
    rw [scan, cut, begins, scanned, ends, List.map_append, List.map_append]
  have writes : Writes (programWritten tree) (front ++ (marks ++ back)) := by
    rw [shape]
    exact List.rel_append opens (written closes)
  obtain ⟨again, read, same⟩ := readProgram_written writable writes
  rw [parse_tree, feed, tokens, feedFrom_tokens_only, read]
  exact same

end Lox
