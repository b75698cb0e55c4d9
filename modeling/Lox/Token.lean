/-
**Tokens.** The alphabet of the grammar, and its occurrences in a text.

* `Terminal` is the alphabet. Its `label` is the name under which a token is shown.
* `Terminal.ofWord` tells the reserved words from the names.
* `Token` is an occurrence: its lexeme, what it denotes, its line and its offset.
-/

import Lox.Number.Basic

namespace Lox

/-- The classes of tokens. `eof` closes every text. `gap` stands for a stretch of text that was
given up: rules of the grammar mention it, and no token of a text has it. -/
inductive Terminal where
  | parenOpen | parenClose | braceOpen | braceClose
  | comma | dot | minus | plus | semicolon | star | slash
  | bang | bangEqual | equal | equalEqual | less | lessEqual | greater | greaterEqual
  | and_ | class_ | else_ | false_ | for_ | fun_ | if_ | nil_
  | or_ | print_ | return_ | super_ | this_ | true_ | var_ | while_
  | name | number | string
  | eof | gap
deriving DecidableEq, Inhabited

namespace Terminal

/-- The name of a class of tokens: a mark is its own name, and reserved words are in capitals. -/
def label : Terminal → String
  | parenOpen => "(" | parenClose => ")" | braceOpen => "\x7b" | braceClose => "\x7d"
  | comma => "," | dot => "." | minus => "-" | plus => "+" | semicolon => ";"
  | star => "*" | slash => "/"
  | bang => "!" | bangEqual => "!=" | equal => "=" | equalEqual => "=="
  | less => "<" | lessEqual => "<=" | greater => ">" | greaterEqual => ">="
  | and_ => "AND" | class_ => "CLASS" | else_ => "ELSE" | false_ => "FALSE"
  | for_ => "FOR" | fun_ => "FUN" | if_ => "IF" | nil_ => "NIL"
  | or_ => "OR" | print_ => "PRINT" | return_ => "RETURN" | super_ => "SUPER"
  | this_ => "THIS" | true_ => "TRUE" | var_ => "VAR" | while_ => "WHILE"
  | name => "name" | number => "number" | string => "string"
  | eof => "EOF" | gap => "gap"

/-- The reserved words, as they are spelled. -/
def reserved : List (String × Terminal) :=
  [("and", and_), ("class", class_), ("else", else_), ("false", false_), ("for", for_),
    ("fun", fun_), ("if", if_), ("nil", nil_), ("or", or_), ("print", print_),
    ("return", return_), ("super", super_), ("this", this_), ("true", true_), ("var", var_),
    ("while", while_)]

/-- The class of a word: reserved if it is spelled exactly so, and otherwise a name. -/
def ofWord (word : String) : Terminal :=
  (reserved.lookup word).getD name

end Terminal

/-- What a token or a literal expression denotes by itself. -/
inductive Literal where
  | nil
  | bool (value : Bool)
  | number (value : Number)
  | string (value : String)
deriving DecidableEq, Inhabited

/-- An occurrence of a lexeme in a text. The literal is nil except for numbers and strings. -/
structure Token where
  kind : Terminal
  lexeme : String
  literal : Literal
  line : Nat
  offset : Nat
deriving DecidableEq, Inhabited

/-- The number of characters to point at: the end of a text is pointed at with one. -/
def Token.width (token : Token) : Nat :=
  max token.lexeme.length 1

end Lox
