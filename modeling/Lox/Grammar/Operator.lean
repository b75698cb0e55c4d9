/-
**Operators.** The binary operators with their precedence, and the unary ones.

* `Operator.level` orders the binary operators by how tightly they bind.
* `Operator.takes` settles `a op₁ b op₂ c`: whether `op₂` takes `b` for its left operand.
-/

import Lox.Token

namespace Lox

/-- The operators that compute a value from the values of both operands. -/
inductive BinaryOp where
  | equal | notEqual
  | less | lessEqual | greater | greaterEqual
  | plus | minus
  | times | divide
deriving DecidableEq, Inhabited

/-- The operators that may leave their right operand alone. -/
inductive Connective where
  | or | and
deriving DecidableEq, Inhabited

/-- What can stand between two operands. -/
inductive Operator where
  | assign
  | connect (op : Connective)
  | compute (op : BinaryOp)
deriving DecidableEq, Inhabited

/-- The unary operators. -/
inductive Sign where
  | not | negative
deriving DecidableEq, Inhabited

namespace Operator

/-- How tightly an operator binds. -/
def level : Operator → Nat
  | assign => 0
  | connect .or => 1
  | connect .and => 2
  | compute .equal | compute .notEqual => 3
  | compute .less | compute .lessEqual | compute .greater | compute .greaterEqual => 4
  | compute .plus | compute .minus => 5
  | compute .times | compute .divide => 6

/-- The token of an operator. -/
def terminal : Operator → Terminal
  | assign => .equal
  | connect .or => .or_
  | connect .and => .and_
  | compute .equal => .equalEqual
  | compute .notEqual => .bangEqual
  | compute .less => .less
  | compute .lessEqual => .lessEqual
  | compute .greater => .greater
  | compute .greaterEqual => .greaterEqual
  | compute .plus => .plus
  | compute .minus => .minus
  | compute .times => .star
  | compute .divide => .slash

/-- The operator of a token. -/
def ofTerminal? : Terminal → Option Operator
  | .equal => some assign
  | .or_ => some (connect .or)
  | .and_ => some (connect .and)
  | .equalEqual => some (compute .equal)
  | .bangEqual => some (compute .notEqual)
  | .less => some (compute .less)
  | .lessEqual => some (compute .lessEqual)
  | .greater => some (compute .greater)
  | .greaterEqual => some (compute .greaterEqual)
  | .plus => some (compute .plus)
  | .minus => some (compute .minus)
  | .star => some (compute .times)
  | .slash => some (compute .divide)
  | _ => none

/-- Whether the right one of two operators takes the operand between them: if it binds tighter, or
if both are assignments, which group to the right. -/
def takes (left right : Operator) : Bool :=
  left.level < right.level || (left == assign && right == assign)

end Operator

/-- The token of a unary operator. -/
def Sign.terminal : Sign → Terminal
  | not => .bang
  | negative => .minus

end Lox
