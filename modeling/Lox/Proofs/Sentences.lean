/-
**Sentences.** The token sequences that the grammar derives, and how they begin.

* `Sentence` are the tokens of a derivation of the grammar proper with the end of the text behind
  them, and `BeginsSentence` what can be continued to one.
* Every symbol but the gap derives something (`Symbol.productive`), so that the rest of a rule can
  always be filled in.
* `Stack.Sensible.completes`: the tokens that a sensible stack was read from begin a sentence.
-/

import Lox.Proofs.Items
import Lox.Proofs.Rendering

namespace Lox

/-- A sentence: tokens that are derived from the grammar proper, and the end of the text. -/
def Sentence (tokens : List Token) : Prop :=
  ∃ (derivation : Derivation (.nonterminal .program)) (closing : Token), derivation.Lawful ∧
    closing.kind = .eof ∧ tokens = derivation.yield ++ [closing]

/-- Tokens with which a sentence begins. -/
def BeginsSentence (tokens : List Token) : Prop :=
  ∃ rest, Sentence (tokens ++ rest)

theorem BeginsSentence.front {tokens more : List Token} (begins : BeginsSentence (tokens ++ more)) :
    BeginsSentence tokens := by
  obtain ⟨rest, sentence⟩ := begins
  exact ⟨more ++ rest, by rwa [← List.append_assoc]⟩

/-! ### Lawful derivations -/

section Leaves

variable {M M' : Symbol → Type} {σ : Semantics M} {σ' : Semantics M'}
  {leafOk leafOk' : Terminal → Token → Prop} {nodeOk : (rule : Rule) → Values M rule.rhs → Prop}

mutual

/-- What is asked of the leaves of a derivation has nothing to do with values. -/
theorem Derivation.Each.leaves (leaves : ∀ kind token, leafOk kind token → leafOk' kind token) :
    {symbol : Symbol} → (derivation : Derivation symbol) →
    derivation.Each σ leafOk nodeOk → derivation.Each σ' leafOk' fun _ _ => True
  | _, .leaf kind token => leaves kind token
  | _, .node _ parts => fun each => ⟨trivial, Derivations.Each.leaves leaves parts each.2⟩

theorem Derivations.Each.leaves (leaves : ∀ kind token, leafOk kind token → leafOk' kind token) :
    {shape : List Symbol} → (parts : Derivations shape) →
    parts.Each σ leafOk nodeOk → parts.Each σ' leafOk' fun _ _ => True
  | _, .nil => id
  | _, .cons first rest => fun each =>
    ⟨Derivation.Each.leaves leaves first each.1, Derivations.Each.leaves leaves rest each.2⟩

end

end Leaves

variable {M : Symbol → Type} {σ : Semantics M}

theorem Terminal.fits_of_accounted (kind : Terminal) (token : Token)
    (leaf : (kind = .gap ∨ token.kind = kind) ∧ (True → kind ≠ .gap)) : kind.Fits token :=
  ⟨leaf.1.resolve_left (leaf.2 trivial), leaf.2 trivial⟩

theorem Derivation.Accounted.lawful {symbol : Symbol} {derivation : Derivation symbol}
    (accounted : derivation.Accounted σ True) : derivation.Lawful :=
  Derivation.Each.leaves Terminal.fits_of_accounted derivation accounted

/-- What renders a symbol is derived from it. -/
theorem Renders.lawful {symbol : Symbol} {tokens : List Token} {grade : Grade symbol}
    (renders : Renders .shape symbol tokens grade ()) :
    ∃ derivation : Derivation symbol, derivation.Lawful := by
  obtain ⟨derivation, grouped, _⟩ := renders
  exact ⟨derivation, Derivation.Each.leaves (fun _ _ fits => fits) derivation grouped⟩

/-- Derivations one after the other. -/
def Derivations.append : {front back : List Symbol} → Derivations front → Derivations back →
    Derivations (front ++ back)
  | _, _, .nil, parts => parts
  | _, _, .cons first rest, parts => .cons first (rest.append parts)

theorem Derivations.yield_append {front back : List Symbol} (parts : Derivations front)
    (others : Derivations back) : (parts.append others).yield = parts.yield ++ others.yield := by
  induction front with
  | nil =>
      cases parts
      rfl
  | cons symbol more ih =>
      match parts with
      | .cons first rest =>
          show first.yield ++ (rest.append others).yield = _
          rw [ih rest, Derivations.yield, List.append_assoc]

theorem Derivations.lawful_append {front back : List Symbol} {parts : Derivations front}
    {others : Derivations back} (lawful : parts.Lawful) (lawfulOthers : others.Lawful) :
    (parts.append others).Lawful := by
  induction front with
  | nil =>
      cases parts
      exact lawfulOthers
  | cons symbol more ih =>
      match parts, lawful with
      | .cons first rest, ⟨here, further⟩ => exact ⟨here, ih further⟩

/-- A rule can be applied to derivations of its first symbols and of the others. -/
theorem Derivation.exists_node (rule : Rule) (dot : Nat) {others : List Symbol}
    (shaped : rule.rhs.drop dot = others) {front : Derivations (rule.rhs.take dot)}
    {back : Derivations others} (lawful : front.Lawful) (further : back.Lawful) :
    ∃ derivation : Derivation (.nonterminal rule.lhs), derivation.Lawful ∧
      derivation.yield = front.yield ++ back.yield := by
  subst shaped
  have whole {shape : List Symbol} (same : shape = rule.rhs) {parts : Derivations shape}
      (lawful : parts.Lawful) : ∃ derivation : Derivation (.nonterminal rule.lhs),
        derivation.Lawful ∧ derivation.yield = parts.yield := by
    subst same
    exact ⟨.node rule parts, ⟨trivial, lawful⟩, rfl⟩
  rw [← Derivations.yield_append]
  exact whole (List.take_append_drop dot rule.rhs) (Derivations.lawful_append lawful further)

/-! ### Filling in -/

/-- Some token of a class. -/
def Terminal.sample (kind : Terminal) : Token :=
  ⟨kind, "", .nil, 0, 0⟩

theorem Nonterminal.productive (phrase : Nonterminal) :
    ∃ derivation : Derivation (.nonterminal phrase), derivation.Lawful := by
  have word (kind : Terminal) : kind.sample.kind = kind := rfl
  have none : Renders .shape (.nonterminal .statements) [] () () :=
    .node .noStatements .nil trivial rfl
  have block : Renders .shape (.nonterminal .block) _ () () :=
    .node .block (.leaf (word _) nofun (.cons none (.leaf (word _) nofun .nil))) trivial rfl
  have value : Renders .shape (.nonterminal .expr) _ Operator.postfixLevel () :=
    .node .nil_ (.leaf (word _) nofun .nil) trivial rfl
  have stmt : Renders .shape (.nonterminal .statement) _ false () :=
    .node .ofBlock (.last block) trivial rfl
  have function : Renders .shape (.nonterminal .function) _ () () :=
    .node .function (.leaf (word _) nofun (.leaf (word _) nofun (.cons
      (.node .noParams .nil trivial rfl) (.leaf (word _) nofun (.last block))))) trivial rfl
  cases phrase with
  | program => exact Renders.lawful (.node .program (.last none) trivial rfl)
  | statements => exact none.lawful
  | declaration => exact Renders.lawful (.node .ofStatement (.last stmt) trivial rfl)
  | classDecl =>
      exact Renders.lawful (.node .classDecl (.leaf (word _) nofun (.leaf (word _) nofun (.cons
        (.node .noSuperclass .nil trivial rfl) (.leaf (word _) nofun (.cons
          (.node .noMethods .nil trivial rfl) (.leaf (word _) nofun .nil)))))) trivial rfl)
  | superclass => exact Renders.lawful (.node .noSuperclass .nil trivial rfl)
  | methods => exact Renders.lawful (.node .noMethods .nil trivial rfl)
  | funDecl =>
      exact Renders.lawful (.node .funDecl (.leaf (word _) nofun (.last function)) trivial rfl)
  | function => exact function.lawful
  | params => exact Renders.lawful (.node .noParams .nil trivial rfl)
  | paramList => exact Renders.lawful (.node .firstParam (.leaf (word _) nofun .nil) trivial rfl)
  | varDecl =>
      exact Renders.lawful (.node .varPlain (.leaf (word _) nofun (.leaf (word _) nofun
        (.leaf (word _) nofun .nil))) trivial rfl)
  | statement => exact stmt.lawful
  | block => exact block.lawful
  | forInit => exact Renders.lawful (.node .noInit (.leaf (word _) nofun .nil) trivial rfl)
  | forCond => exact Renders.lawful (.node .noCond (.leaf (word _) nofun .nil) trivial rfl)
  | forStep => exact Renders.lawful (.node .noStep (.leaf (word _) nofun .nil) trivial rfl)
  | expr => exact value.lawful
  | argumentsOpt => exact Renders.lawful (.node .noArguments .nil trivial rfl)
  | arguments => exact Renders.lawful (.node .firstArgument (.last value) trivial rfl)

/-- **Every symbol but the gap derives something.** -/
theorem Symbol.productive (symbol : Symbol) (inside : symbol ≠ .terminal .gap) :
    ∃ derivation : Derivation symbol, derivation.Lawful := by
  cases symbol with
  | terminal kind =>
      exact ⟨.leaf kind kind.sample, rfl, fun same => inside (congrArg Symbol.terminal same)⟩
  | nonterminal phrase => exact phrase.productive

theorem Derivations.productive (shape : List Symbol) (inside : Symbol.terminal .gap ∉ shape) :
    ∃ parts : Derivations shape, parts.Lawful := by
  induction shape with
  | nil => exact ⟨.nil, trivial⟩
  | cons symbol more ih =>
      obtain ⟨first, here⟩ := symbol.productive (Ne.symm (List.ne_of_not_mem_cons inside))
      obtain ⟨rest, further⟩ := ih (List.not_mem_of_not_mem_cons inside)
      exact ⟨.cons first rest, here, further⟩

/-- A gap stands nowhere but at the front of a rule. -/
theorem Rule.gap_not_mem_tail (rule : Rule) : Symbol.terminal .gap ∉ rule.rhs.tail := by
  cases rule with
  | binary op => simp [rhs, t, n, op.terminal_ne_gap.symm]
  | _ => simp [rhs, t, n]

theorem Rule.gap_not_mem_drop (rule : Rule) (dot : Nat) :
    Symbol.terminal .gap ∉ rule.rhs.drop (dot + 1) := by
  rw [Nat.add_comm, ← List.drop_drop, List.drop_one]
  exact fun member => rule.gap_not_mem_tail (List.mem_of_mem_drop member)

/-- A state that is in the midst of a rule has read some of it, if there is anything to read. -/
theorem State.gap_not_mem_drop {state : State} {rule : Rule} {dot : Nat}
    (item : state.item? = some (rule, dot)) : Symbol.terminal .gap ∉ rule.rhs.drop dot := by
  cases state with
  | done whole =>
      cases item
      rw [List.drop_length]
      exact List.not_mem_nil
  | statements nest => cases nest <;> cases item <;> exact Rule.gap_not_mem_drop _ _
  | _ => cases item <;> exact Rule.gap_not_mem_drop _ _

/-! ### Stacks -/

namespace Stack

/-- What lies on top of a stack under the given names are derivations that read the last tokens. -/
theorem Backed.split {top base : Stack M} {read : List Token} {shape : List Symbol}
    (backed : Backed σ True (top ++ base) read) (named : symbols top = shape.reverse) :
    ∃ (parts : Derivations shape) (before : List Token), parts.Lawful ∧
      Backed σ True base before ∧ read = before ++ parts.yield := by
  induction top generalizing shape read with
  | nil =>
      cases List.reverse_eq_nil_iff.mp named.symm
      exact ⟨.nil, read, trivial, backed, (List.append_nil read).symm⟩
  | cons entry rest ih =>
      have shaped : shape = (symbols rest).reverse ++ [entry.symbol] := by
        rw [← List.reverse_reverse shape, ← named, symbols, List.map_cons, List.reverse_cons]
        rfl
      subst shaped
      cases backed with
      | cons below state derivation accounted =>
          obtain ⟨parts, before, lawful, deeper, rfl⟩ := ih below (List.reverse_reverse _).symm
          refine ⟨parts.append (.cons derivation .nil), before, ?_, deeper, ?_⟩
          · exact Derivations.lawful_append lawful ⟨accounted.lawful, trivial⟩
          · rw [Derivations.yield_append, List.append_assoc]
            simp only [Derivations.yield, List.append_nil]

/-- **What is awaited completes what was read.** -/
theorem Awaits.completes {stack : Stack M} {symbol : Symbol} (awaits : Awaits stack symbol)
    {read : List Token} (backed : Backed σ True stack read) {derivation : Derivation symbol}
    (lawful : derivation.Lawful) : BeginsSentence (read ++ derivation.yield) := by
  induction awaits generalizing read with
  | program =>
      cases backed
      exact ⟨[Terminal.eof.sample], derivation, Terminal.eof.sample, lawful, rfl, rfl⟩
  | @inside top base rule dot symbol below named next ih =>
      -- What was read of the rule, what is awaited, and anything for the rest make a phrase.
      obtain ⟨front, before, read, deeper, rfl⟩ := backed.split named
      obtain ⟨back, further⟩ := Derivations.productive _ (rule.gap_not_mem_drop dot)
      have shaped : rule.rhs.drop dot = symbol :: rule.rhs.drop (dot + 1) := by
        obtain ⟨inside, rfl⟩ := List.getElem?_eq_some_iff.mp next
        exact List.drop_eq_getElem_cons inside
      have others : (Derivations.cons derivation back).Lawful := ⟨lawful, further⟩
      obtain ⟨phrase, made, yields⟩ := Derivation.exists_node rule dot shaped read others
      have begins := ih deeper made
      rw [yields, Derivations.yield, ← List.append_assoc, ← List.append_assoc] at begins
      exact begins.front

/-- **The tokens that a sensible stack was read from begin a sentence.** -/
theorem Sensible.completes {stack : Stack M} (sensible : Sensible stack) (rooted : Rooted stack)
    {read : List Token} (backed : Backed σ True stack read) : BeginsSentence read := by
  cases item : (state stack).item? with
  | some place =>
      obtain ⟨rule, dot⟩ := place
      obtain ⟨top, base, rfl, named, below⟩ := sensible.within rfl item
      obtain ⟨front, before, lawful, deeper, rfl⟩ := backed.split named
      obtain ⟨back, further⟩ := Derivations.productive _ (State.gap_not_mem_drop item)
      obtain ⟨phrase, made, yields⟩ := Derivation.exists_node rule dot rfl lawful further
      have begins := below.completes deeper made
      rw [yields, ← List.append_assoc] at begins
      exact begins.front
  | none =>
      cases here : state stack with
      | start =>
          cases rooted.empty here
          obtain ⟨program, lawful⟩ := Nonterminal.productive .program
          exact (Awaits.program.completes backed lawful).front
      | accept =>
          obtain ⟨value, rfl⟩ := rooted.program here
          cases backed with
          | cons below _ derivation accounted =>
              exact Awaits.program.completes below accounted.lawful
      | statements nest =>
          rw [here] at item
          cases nest <;> cases item
      | _ =>
          rw [here] at item
          cases item

end Stack

end Lox
