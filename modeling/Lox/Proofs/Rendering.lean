/-
**Rendering.** Tokens that are read into a value by a grouped derivation.

`Renders` hides the derivation, so that phrases can be put together by what they read, how tightly
they bind and what they stand for: `Renders.node` makes a phrase of its parts, which `RendersAll`
lists.
-/

import Lox.Proofs.Acceptance

namespace Lox

variable {M : Symbol → Type} {σ : Semantics M}

/-! ### Tokens that are read into values -/

/-- Tokens are read into a value, by a grouped derivation to which nothing is objected. -/
def Renders (σ : Semantics M) (symbol : Symbol) (tokens : List Token) (grade : Grade symbol)
    (value : M symbol) : Prop :=
  ∃ derivation : Derivation symbol, derivation.Grouped ∧ derivation.Quiet σ ∧
    derivation.yield = tokens ∧ derivation.grade = grade ∧ derivation.value σ = value

/-- Tokens are read into values one after the other. -/
def RendersAll (σ : Semantics M) (shape : List Symbol) (tokens : List Token)
    (graded : Values Grade shape) (values : Values M shape) : Prop :=
  ∃ parts : Derivations shape, parts.Grouped ∧ parts.Quiet σ ∧ parts.yield = tokens ∧
    parts.values grades = graded ∧ parts.values σ = values

namespace RendersAll

variable {shape : List Symbol} {tokens rest : List Token} {graded : Values Grade shape}
  {values : Values M shape}

theorem nil : RendersAll σ [] [] () () :=
  ⟨.nil, trivial, trivial, rfl, rfl, rfl⟩

theorem cons {symbol : Symbol} {grade : Grade symbol} {value : M symbol}
    (one : Renders σ symbol tokens grade value) (others : RendersAll σ shape rest graded values) :
    RendersAll σ (symbol :: shape) (tokens ++ rest) (grade, graded) (value, values) := by
  obtain ⟨first, grouped, quiet, rfl, rfl, rfl⟩ := one
  obtain ⟨parts, allGrouped, allQuiet, rfl, rfl, rfl⟩ := others
  exact ⟨.cons first parts, ⟨grouped, allGrouped⟩, ⟨quiet, allQuiet⟩, rfl, rfl, rfl⟩

theorem last {symbol : Symbol} {grade : Grade symbol} {value : M symbol}
    (one : Renders σ symbol tokens grade value) :
    RendersAll σ [symbol] tokens (grade, ()) (value, ()) := by
  rw [← List.append_nil tokens]
  exact cons one nil

theorem leaf {kind : Terminal} {token : Token} (same : token.kind = kind) (inside : kind ≠ .gap)
    (others : RendersAll σ shape rest graded values) :
    RendersAll σ (.terminal kind :: shape) (token :: rest) ((), graded)
      (σ.leaf kind token, values) := by
  have yield : (Derivation.leaf kind token).yield = [token] := by
    rw [Derivation.yield, if_neg inside]
  have one : Renders σ (.terminal kind) [token] () (σ.leaf kind token) :=
    ⟨.leaf kind token, ⟨same, inside⟩, trivial, yield, rfl, rfl⟩
  exact cons one others

end RendersAll

/-- A phrase is read where its parts are, if the rule lets them be grouped so and objects to
nothing. -/
theorem Renders.node (rule : Rule) {tokens : List Token} {graded : Values Grade rule.rhs}
    {values : Values M rule.rhs} (parts : RendersAll σ rule.rhs tokens graded values)
    (groups : rule.Groups graded) (quiet : σ.objections rule values = []) :
    Renders σ (.nonterminal rule.lhs) tokens (rule.grade graded) (σ.node rule values) := by
  obtain ⟨parts, allGrouped, allQuiet, rfl, rfl, rfl⟩ := parts
  exact ⟨.node rule parts, ⟨groups, allGrouped⟩, ⟨quiet, allQuiet⟩, rfl, rfl, rfl⟩

theorem Operator.terminal_ne_gap (op : Operator) : op.terminal ≠ .gap := by
  intro same
  have known := State.ofTerminal?_terminal op
  rw [same] at known
  cases known

/-- An operator between two operands that bind as tightly as it asks. -/
theorem Renders.binary (op : Operator) {front back : List Token} {token : Token}
    {first second : Nat} {left right : M (.nonterminal .expr)}
    (leftRendered : Renders σ (.nonterminal .expr) front first left)
    (kind : token.kind = op.terminal)
    (rightRendered : Renders σ (.nonterminal .expr) back second right)
    (leftTight : op.leftLevel ≤ first) (rightTight : op.rightLevel ≤ second)
    (quiet : σ.objections (.binary op) (left, σ.leaf op.terminal token, right, ()) = []) :
    Renders σ (.nonterminal .expr) (front ++ token :: back) op.level
      (σ.node (.binary op) (left, σ.leaf op.terminal token, right, ())) :=
  .node (.binary op)
    (.cons leftRendered (.leaf kind op.terminal_ne_gap (.last rightRendered)))
    ⟨leftTight, rightTight⟩ quiet

/-- **What renders a program is read into it.** -/
theorem Renders.reads {tokens : List Token} {value : M (.nonterminal .program)}
    (renders : Renders σ (.nonterminal .program) tokens () value) {closing : Token}
    (last : closing.kind = .eof) : Stack.Reads σ [] (tokens ++ [closing]) value := by
  obtain ⟨derivation, grouped, quiet, rfl, _, rfl⟩ := renders
  exact .of_grouped grouped quiet last

end Lox
