/-
**The automaton.** The stack of the phrases read so far, and what can be read on it.

Each phrase has a value. What the values are is left to a `Semantics`, so that the same automaton
reads trees, and tries out with values that say nothing whether it could read on.

* `Stack.reduce` makes a phrase, and tells what is objected to in it.
* `Stack.seek` reduces phrases until a token can be read or an error is met, and `Stack.shift` reads
  the token.
* `Mode` is what the automaton is about: reading, or looking after an error for a few tokens that
  can be read with a gap in front of them.
-/

import Lox.Expectation
import Lox.Grammar.State

namespace Lox

/-! ### Values -/

/-- Values for a list of symbols. -/
def Values (M : Symbol → Type) : List Symbol → Type
  | [] => Unit
  | symbol :: more => M symbol × Values M more

/-- How values of phrases are made of the values of their parts, and what is objected to in
doing so. -/
structure Semantics (M : Symbol → Type) where
  leaf : (kind : Terminal) → Token → M (.terminal kind)
  node : (rule : Rule) → Values M rule.rhs → M (.nonterminal rule.lhs)
  objections : (rule : Rule) → Values M rule.rhs → List (Token × Objection)

/-- Values that say nothing. -/
def Shape : Symbol → Type := fun _ => Unit

/-- The semantics that makes nothing and objects to nothing. -/
def Semantics.shape : Semantics Shape where
  leaf _ _ := ()
  node _ _ := ()
  objections _ _ := []

variable {M : Symbol → Type}

/-! ### The stack -/

/-- A symbol that was read, its value, and the state after it. -/
structure Entry (M : Symbol → Type) where
  state : State
  symbol : Symbol
  value : M symbol

/-- What was read, the last symbol first. -/
abbrev Stack (M : Symbol → Type) := List (Entry M)

namespace Stack

/-- The state after all that was read. -/
def state : Stack M → State
  | [] => .start
  | entry :: _ => entry.state

/-- The symbols that were read, the last one first. -/
def symbols (stack : Stack M) : List Symbol :=
  stack.map Entry.symbol

/-- The stack without its values. -/
def forget (stack : Stack M) : Stack Shape :=
  stack.map fun entry => ⟨entry.state, entry.symbol, ()⟩

/-- Takes the values of the given symbols off the stack, if those are on top. -/
def pop : (shape : List Symbol) → Stack M → Option (Values M shape × Stack M)
  | [], stack => some ((), stack)
  | symbol :: more, stack =>
    match pop more stack with
    | none => none
    | some (_, []) => none
    | some (values, entry :: rest) =>
      if same : entry.symbol = symbol then some ((same ▸ entry.value, values), rest) else none

/-- Puts a token on the stack. -/
def push (σ : Semantics M) (target : State) (kind : Terminal) (token : Token) (stack : Stack M) :
    Stack M :=
  ⟨target, .terminal kind, σ.leaf kind token⟩ :: stack

/-- Makes a phrase of what is on top of the stack. -/
def reduce (σ : Semantics M) (rule : Rule) (stack : Stack M) :
    Option (Stack M × List Complaint) :=
  match pop rule.rhs stack with
  | none => none
  | some (values, rest) =>
    match state rest |>.goto? rule.lhs with
    | none => none
    | some target =>
      some (⟨target, .nonterminal rule.lhs, σ.node rule values⟩ :: rest,
        (σ.objections rule values).map fun (token, objection) => .syntactic token objection)

/-- What came of looking for a shift: the stack after reductions, where the token leads if it can
be read, and what was objected to on the way. -/
structure Sought (M : Symbol → Type) where
  stack : Stack M
  target : Option State
  complaints : List Complaint

/-- Reduces phrases, at most `limit` of them, until the token can be read or an error is met. -/
def seek (σ : Semantics M) (kind : Terminal) : Nat → Stack M → Sought M
  | 0, stack => ⟨stack, none, []⟩
  | limit + 1, stack =>
    match (state stack).action kind with
    | none => ⟨stack, none, []⟩
    | some (.shift target) => ⟨stack, some target, []⟩
    | some (.reduce rule) =>
      match reduce σ rule stack with
      | none => ⟨stack, none, []⟩
      | some (reduced, complaints) =>
        let sought := seek σ kind limit reduced
        { sought with complaints := complaints ++ sought.complaints }

/-- Reads a token, if that is possible, and leaves whole phrases as they are. -/
def shift (σ : Semantics M) (limit : Nat) (kind : Terminal) (token : Token) (stack : Stack M) :
    Option (Stack M × List Complaint) :=
  let sought := seek σ kind limit stack
  sought.target.map fun target => (push σ target kind token sought.stack, sought.complaints)

/-- Reads tokens one after the other, if that is possible. -/
def shiftAll (σ : Semantics M) (limit : Nat) :
    List Token → Stack M → Option (Stack M × List Complaint)
  | [], stack => some (stack, [])
  | token :: more, stack =>
    match shift σ limit token.kind token stack with
    | none => none
    | some (shifted, complaints) =>
      match shiftAll σ limit more shifted with
      | none => none
      | some (finished, further) => some (finished, complaints ++ further)

/-- The value of the program, if one has been read. The token that closes the text may stand
behind it. -/
def program? : Stack M → Option (M (.nonterminal .program))
  | [⟨_, .nonterminal .program, value⟩] => some value
  | [⟨_, .terminal .eof, _⟩, ⟨_, .nonterminal .program, value⟩] => some value
  | _ => none

/-- What was expected instead of a token that cannot be read. -/
def expectation (kind : Terminal) (stack : Stack M) : Expectation :=
  let accepts := fun other => ((state stack).action other).isSome
  Expectation.ofStack (kind = .eof) accepts (symbols stack)

/-- The part of the stack, as long as possible, on which a gap can be read. -/
def gapPoint (limit : Nat) (culprit : Token) : Stack M → Stack Shape → Stack M
  | [], _ => []
  | entry :: rest, shape =>
    if (shift .shape limit .gap culprit shape).isSome then entry :: rest
    else gapPoint limit culprit rest shape.tail

end Stack

/-! ### Reading a text -/

/-- What the automaton is about. -/
inductive Mode (M : Symbol → Type) where
  /-- Reading on. -/
  | reading (stack : Stack M)
  /-- Looking, after an error at the culprit, for tokens that can be read with a gap in front of
  them. The window holds the last few tokens; `trial` is the stack with the gap, without values. -/
  | skipping (stack : Stack M) (trial : Stack Shape) (culprit : Token) (window : List Token)
  /-- Having read a program. -/
  | accepted (value : M (.nonterminal .program))
  /-- Having found no way to go on. -/
  | lost

namespace Mode

/-- The program, if it has been read. -/
def program? : Mode M → Option (M (.nonterminal .program))
  | accepted value => some value
  | _ => none

/-- The number of tokens that have to be readable behind a gap. -/
def windowSize : Nat := 3

/-- Whether a window reaches the end of the text. -/
def atEnd (window : List Token) : Bool :=
  window.getLast?.any fun token => token.kind == .eof

/-- Whether the tokens of a window can be read behind the gap. -/
def readable (limit : Nat) (trial : Stack Shape) (window : List Token) : Bool :=
  (Stack.shiftAll .shape limit window trial).isSome

end Mode

/-- A number of reductions that are never all needed for one token of a text with the given number
of tokens. -/
def reductionLimit (tokens : Nat) : Nat :=
  8 * tokens + 16

end Lox
