/-
**Derivations.** Trees of rules, and the stacks that are explained by them.

* `Derivation` is a tree of rules with tokens for leaves. Its `yield` is what it reads, from left to
  right, and its `value` is what a semantics makes of it, from the bottom up.
* `Stack.Backed` says that a stack holds the values of derivations that together yield given tokens.
  What the automaton does to a stack keeps that: `reduce_backed` for one phrase, `seek_backed` and
  `settle_backed` for as many as there are, `shiftAll_backed` for tokens read behind a gap.

Nothing here looks at the states of the automaton: a phrase is only made of what lies on top of the
stack under the right names. Whether a derivation is free of objections is carried along under the
condition `clean`, so that one invariant serves texts with and without errors.
-/

import Lox.Proofs.Progress

set_option linter.unusedSectionVars false

namespace Lox

/-! ### Derivations -/

mutual

/-- How a symbol was read: as a token, or by a rule from its parts. -/
inductive Derivation : Symbol → Type where
  | leaf (kind : Terminal) (token : Token) : Derivation (.terminal kind)
  | node (rule : Rule) (parts : Derivations rule.rhs) : Derivation (.nonterminal rule.lhs)

/-- How a list of symbols was read. -/
inductive Derivations : List Symbol → Type where
  | nil : Derivations []
  | cons {symbol : Symbol} {more : List Symbol} (first : Derivation symbol)
      (rest : Derivations more) : Derivations (symbol :: more)

end

mutual

/-- The tokens that a derivation reads, in order. A gap stands for tokens that were not read. -/
def Derivation.yield : {symbol : Symbol} → Derivation symbol → List Token
  | _, .leaf kind token => if kind = .gap then [] else [token]
  | _, .node _ parts => parts.yield

/-- The tokens that derivations read, in order. -/
def Derivations.yield : {shape : List Symbol} → Derivations shape → List Token
  | _, .nil => []
  | _, .cons first rest => first.yield ++ rest.yield

end

section Values

variable {M : Symbol → Type} (σ : Semantics M)

mutual

/-- What a semantics makes of a derivation, from the bottom up. -/
def Derivation.value : {symbol : Symbol} → Derivation symbol → M symbol
  | _, .leaf kind token => σ.leaf kind token
  | _, .node rule parts => σ.node rule parts.values

/-- What a semantics makes of derivations. -/
def Derivations.values : {shape : List Symbol} → Derivations shape → Values M shape
  | _, .nil => ()
  | _, .cons first rest => (first.value, rest.values)

end

variable (leafOk : Terminal → Token → Prop) (nodeOk : (rule : Rule) → Values M rule.rhs → Prop)

mutual

/-- Every leaf and every node of a derivation meets a condition, which for a node is about the
values of its parts. -/
def Derivation.Each : {symbol : Symbol} → Derivation symbol → Prop
  | _, .leaf kind token => leafOk kind token
  | _, .node rule parts => nodeOk rule (parts.values σ) ∧ parts.Each

/-- Every leaf and every node of some derivations meets a condition. -/
def Derivations.Each : {shape : List Symbol} → Derivations shape → Prop
  | _, .nil => True
  | _, .cons first rest => first.Each ∧ rest.Each

end

end Values

variable {M : Symbol → Type} {σ : Semantics M}

section Mono

variable {leafOk leafOk' : Terminal → Token → Prop}
  {nodeOk nodeOk' : (rule : Rule) → Values M rule.rhs → Prop}
  (leaves : ∀ kind token, leafOk kind token → leafOk' kind token)
  (nodes : ∀ rule values, nodeOk rule values → nodeOk' rule values)

include leaves nodes

mutual

theorem Derivation.Each.mono : {symbol : Symbol} → (derivation : Derivation symbol) →
    derivation.Each σ leafOk nodeOk → derivation.Each σ leafOk' nodeOk'
  | _, .leaf kind token => leaves kind token
  | _, .node rule parts => fun each =>
    ⟨nodes rule _ each.1, Derivations.Each.mono parts each.2⟩

theorem Derivations.Each.mono : {shape : List Symbol} → (parts : Derivations shape) →
    parts.Each σ leafOk nodeOk → parts.Each σ leafOk' nodeOk'
  | _, .nil => id
  | _, .cons first rest => fun each =>
    ⟨Derivation.Each.mono first each.1, Derivations.Each.mono rest each.2⟩

end

end Mono

/-- A derivation as the automaton makes them: a leaf is a token of its class or a gap. If all is
clean there are no gaps, and nothing is objected to in any node. -/
def Derivation.Accounted (σ : Semantics M) (clean : Prop) {symbol : Symbol}
    (derivation : Derivation symbol) : Prop :=
  derivation.Each σ (fun kind token => (kind = .gap ∨ token.kind = kind) ∧ (clean → kind ≠ .gap))
    (fun rule values => clean → σ.objections rule values = [])

/-- Derivations as the automaton makes them. -/
def Derivations.Accounted (σ : Semantics M) (clean : Prop) {shape : List Symbol}
    (parts : Derivations shape) : Prop :=
  parts.Each σ (fun kind token => (kind = .gap ∨ token.kind = kind) ∧ (clean → kind ≠ .gap))
    (fun rule values => clean → σ.objections rule values = [])

theorem Derivation.Accounted.weaken {clean clean' : Prop} (stronger : clean' → clean)
    {symbol : Symbol} {derivation : Derivation symbol} (accounted : derivation.Accounted σ clean) :
    derivation.Accounted σ clean' :=
  Derivation.Each.mono (fun _ _ leaf => ⟨leaf.1, leaf.2 ∘ stronger⟩)
    (fun _ _ node => node ∘ stronger) derivation accounted

/-! ### Stacks -/

namespace Stack

/-- A stack of the values of derivations that together yield the given tokens. -/
inductive Backed (σ : Semantics M) (clean : Prop) : Stack M → List Token → Prop
  | nil : Backed σ clean [] []
  | cons {rest : Stack M} {read : List Token} (below : Backed σ clean rest read) (state : State)
      {symbol : Symbol} (derivation : Derivation symbol)
      (accounted : derivation.Accounted σ clean) :
      Backed σ clean (⟨state, symbol, derivation.value σ⟩ :: rest) (read ++ derivation.yield)

variable {clean : Prop} {stack : Stack M} {read : List Token}

theorem Backed.weaken {clean' : Prop} (stronger : clean' → clean)
    (backed : Backed σ clean stack read) : Backed σ clean' stack read := by
  induction backed with
  | nil => exact .nil
  | cons _ state derivation accounted ih =>
      exact .cons ih state derivation (accounted.weaken stronger)

/-- The values that are taken off a stack are those of derivations, which read the last tokens. -/
theorem pop_backed (backed : Backed σ clean stack read) (shape : List Symbol)
    {values : Values M shape} {rest : Stack M} (popped : pop shape stack = some (values, rest)) :
    ∃ (parts : Derivations shape) (before : List Token), parts.values σ = values ∧
      parts.Accounted σ clean ∧ Backed σ clean rest before ∧ read = before ++ parts.yield := by
  induction shape generalizing rest with
  | nil =>
      cases popped
      exact ⟨.nil, read, rfl, trivial, backed, by simp [Derivations.yield]⟩
  | cons symbol more ih =>
      unfold pop at popped
      split at popped
      · cases popped
      · cases popped
      · rename_i others entry deeper inner
        obtain ⟨parts, before, sameValues, accounted, below, split⟩ := ih inner
        split at popped
        · rename_i same
          cases below with
          | @cons _ earlier lower state found derivation first =>
              subst same
              cases popped
              refine ⟨.cons derivation parts, earlier, ?_, ⟨first, accounted⟩, lower, ?_⟩
              · rw [Derivations.values, sameValues]
              · rw [split, Derivations.yield, List.append_assoc]
        · cases popped

/-- **Making a phrase** keeps a stack backed, and reads nothing. -/
theorem reduce_backed (backed : Backed σ clean stack read) {rule : Rule} {reduced : Stack M}
    {complaints : List Complaint} (made : reduce σ rule stack = some (reduced, complaints))
    (quiet : clean → complaints = []) : Backed σ clean reduced read := by
  unfold reduce at made
  split at made
  · cases made
  · rename_i values rest popped
    split at made
    · cases made
    · rename_i target found
      obtain ⟨parts, before, rfl, accounted, below, rfl⟩ := pop_backed backed rule.rhs popped
      cases made
      refine .cons below target (.node rule parts) ⟨fun holds => ?_, accounted⟩
      exact List.map_eq_nil_iff.mp (quiet holds)

/-- Looking for a shift keeps a stack backed. -/
theorem seek_backed (kind : Terminal) (limit : Nat) {stack : Stack M}
    (backed : Backed σ clean stack read)
    (quiet : clean → (seek σ kind limit stack).complaints = []) :
    Backed σ clean (seek σ kind limit stack).stack read := by
  induction limit generalizing stack with
  | zero => exact backed
  | succ limit ih =>
      unfold seek at quiet ⊢
      split
      · exact backed
      · exact backed
      · rename_i rule action
        rw [action] at quiet
        simp only at quiet
        split
        · exact backed
        · rename_i reduced complaints made
          rw [made] at quiet
          simp only [List.append_eq_nil_iff] at quiet
          exact ih (reduce_backed backed made fun holds => (quiet holds).1)
            fun holds => (quiet holds).2

/-- Making phrases that are whole keeps a stack backed. -/
theorem settle_backed (limit : Nat) {stack : Stack M} (backed : Backed σ clean stack read)
    (quiet : clean → (settle σ limit stack).2 = []) :
    Backed σ clean (settle σ limit stack).1 read := by
  induction limit generalizing stack with
  | zero => exact backed
  | succ limit ih =>
      unfold settle at quiet ⊢
      split
      · exact backed
      · rename_i rule settled
        rw [settled] at quiet
        simp only at quiet
        split
        · exact backed
        · rename_i reduced complaints made
          rw [made] at quiet
          simp only [List.append_eq_nil_iff] at quiet
          exact ih (reduce_backed backed made fun holds => (quiet holds).1)
            fun holds => (quiet holds).2

/-- Putting a token on a stack reads it. -/
theorem push_backed (backed : Backed σ clean stack read) (target : State) {kind : Terminal}
    {token : Token} (same : token.kind = kind) (inside : kind ≠ .gap) :
    Backed σ clean (push σ target kind token stack) (read ++ [token]) := by
  have yield : (Derivation.leaf kind token).yield = [token] := by
    rw [Derivation.yield, if_neg inside]
  rw [← yield]
  exact .cons backed target (.leaf kind token) ⟨Or.inr same, fun _ => inside⟩

/-- Putting a gap on a stack reads nothing. A stack with a gap is not clean. -/
theorem push_gap_backed (backed : Backed σ clean stack read) (unclean : ¬ clean) (target : State)
    (token : Token) : Backed σ clean (push σ target .gap token stack) read := by
  have extended := Backed.cons backed target (.leaf .gap token)
    ⟨Or.inl rfl, fun holds => absurd holds unclean⟩
  rwa [Derivation.yield, if_pos rfl, List.append_nil] at extended

/-- Reading tokens one after the other keeps a stack backed. -/
theorem shiftAll_backed (unclean : ¬ clean) (limit : Nat) (tokens : List Token)
    (inside : ∀ token ∈ tokens, token.kind ≠ .gap) {stack : Stack M} {read : List Token}
    (backed : Backed σ clean stack read) {finished : Stack M} {complaints : List Complaint}
    (shifted : shiftAll σ limit tokens stack = some (finished, complaints)) :
    Backed σ clean finished (read ++ tokens) := by
  induction tokens generalizing stack read complaints with
  | nil =>
      cases shifted
      rwa [List.append_nil]
  | cons token more ih =>
      obtain ⟨first, others⟩ := List.forall_mem_cons.mp inside
      unfold shiftAll at shifted
      split at shifted
      · cases shifted
      · rename_i next found one
        split at shifted
        · cases shifted
        · rename_i last further rest
          cases shifted
          unfold shift at one
          obtain ⟨target, _, pushed⟩ := Option.map_eq_some_iff.mp one
          cases pushed
          have sought := seek_backed token.kind limit backed fun holds => absurd holds unclean
          have extended := ih others (push_backed sought target rfl first) rest
          rwa [List.append_assoc, List.singleton_append] at extended

/-- What lies deeper on a backed stack is backed by the tokens that were read first. -/
theorem Backed.suffix (backed : Backed σ clean stack read) {deeper : Stack M}
    (part : deeper <:+ stack) : ∃ before, Backed σ clean deeper before ∧ before <+: read := by
  induction backed with
  | nil =>
      rw [List.suffix_nil.mp part]
      exact ⟨[], .nil, List.prefix_rfl⟩
  | cons below state derivation accounted ih =>
      rcases List.suffix_cons_iff.mp part with rfl | inner
      · exact ⟨_, .cons below state derivation accounted, List.prefix_rfl⟩
      · obtain ⟨before, backed, first⟩ := ih inner
        exact ⟨before, backed, first.trans (List.prefix_append _ _)⟩

/-- The place of a gap lies on the stack. -/
theorem gapPoint_suffix (limit : Nat) (culprit : Token) (stack : Stack M) (shape : Stack Shape) :
    gapPoint limit culprit stack shape <:+ stack := by
  induction stack generalizing shape with
  | nil => exact List.suffix_rfl
  | cons entry rest ih =>
      unfold gapPoint
      split
      · exact List.suffix_rfl
      · exact (ih shape.tail).trans (List.suffix_cons entry rest)

end Stack

end Lox
