/-
**Legible trees.** How the tokens and the literals in the trees of a text are spelled.

* `Token.Regular` says of a token that it is spelled like those of a class, and that its lexeme
  tells what it denotes. `scan_regular`: the tokens of a text are.
* `Expr.Legible` asks of an expression that its own tokens are regular tokens of the right classes,
  and that a literal is one for which there is a lexeme. A rule makes legible trees of legible ones
  (`node_legible`), so whatever a text is read into is legible (`parse_legible`), errors or not.
* `expressionsIn` are all the expressions in a tree, however deep.
-/

import Lox.Proofs.Culprits
import Lox.Proofs.Scripts
import Lox.Proofs.Written

namespace Lox

/-! ### Tokens -/

/-- A token of a class as scanning makes them: it is spelled like one, and denotes what its lexeme
says. -/
structure Token.Regular (kind : Terminal) (token : Token) : Prop where
  classed : token.kind = kind
  lexeme : kind.IsLexeme token.lexeme.toList
  literal : token.literal = Scan.literal kind token.lexeme.toList

/-- **The tokens of a text are regular**, but for the one that closes it. -/
theorem scan_regular {text : String} {token : Token} (member : token ∈ tokensOf (scan text))
    (inside : token.kind ≠ .eof) : token.Regular token.kind := by
  rw [(scan_placed text).1, tokensAt, List.mem_append] at member
  rcases member with found | closing
  · obtain ⟨⟨⟨form, chars⟩, offset⟩, placed, made⟩ := List.mem_filterMap.mp found
    obtain ⟨front, back, split, _⟩ := mem_placed placed
    have proper := (divides_segments text.toList).proper ⟨form, chars⟩ (by rw [split]; simp)
    cases form with
    | token kind =>
        cases made
        refine ⟨rfl, ?_, ?_⟩
        · rw [String.toList_ofList]
          exact proper
        · rw [String.toList_ofList]
    | ignored | unterminated | stuck => cases made
  · rw [List.mem_singleton.mp closing] at inside
    exact absurd rfl inside

/-- The text of the tokens of a class that has only one: a reserved word or a mark. -/
def Terminal.fixed (kind : Terminal) : List Char :=
  if kind.isWord then kind.spelling else kind.label.toList

/-- Whether the tokens of a class have all the same text. -/
def Terminal.isFixed (kind : Terminal) : Bool :=
  kind ≠ .name && kind ≠ .number && kind ≠ .string

/-- The token of such a class, without a place. -/
def Terminal.fixedToken (kind : Terminal) : Token :=
  ⟨kind, String.ofList kind.fixed, Scan.literal kind kind.fixed, 0, 0⟩

/-- A mark is no word: it begins with another character. -/
theorem Terminal.isWord_of_mark {kind : Terminal}
    (mark : kind.label.toList ∈ Pattern.mark.language ∨
      kind.label.toList ∈ Pattern.comparison.language) : kind.isWord = false := by
  have begins : kind.label.toList.head?.any
      (Pattern.markChars ++ Pattern.comparisonChars).contains = true := by
    rcases mark with member | member
    · obtain ⟨c, listed, same⟩ := Pattern.mem_mark.mp member
      rw [same]
      exact List.contains_iff_mem.mpr (List.mem_append_left _ listed)
    · obtain ⟨c, listed, same | same⟩ := Pattern.mem_comparison.mp member <;> rw [same] <;>
        exact List.contains_iff_mem.mpr (List.mem_append_right _ listed)
  revert begins
  cases kind <;> decide

theorem Terminal.IsLexeme.fixed {kind : Terminal} {text : List Char} (lexeme : kind.IsLexeme text)
    (fixed : kind.isFixed = true) : text = kind.fixed := by
  cases lexeme with
  | string | number | name => cases fixed
  | reserved reserved =>
      have listed : (String.ofList kind.spelling, kind) ∈ Terminal.reserved :=
        mem_reserved_iff.mpr ⟨reserved, rfl⟩
      have word : kind.isWord = true := by
        rw [isWord, List.any_eq_true.mpr ⟨_, listed, decide_eq_true rfl⟩, Bool.or_true]
      rw [Terminal.fixed, if_pos word]
  | mark member =>
      rw [Terminal.fixed, isWord_of_mark member]
      rfl

/-- No numeral stands for a NaN. -/
theorem Number.isNaN_ofRatio (num den : Nat) : (ofRatio num den).isNaN = false := by
  have bound : nearestMagnitude num den ≤ infiniteMagnitude.toNat := Nat.min_le_left _ _
  have bits : (ofRatio num den).bits.toNat = nearestMagnitude num den :=
    UInt64.toNat_ofNat_of_lt' (Nat.lt_of_le_of_lt bound (by decide))
  have size : (ofRatio num den).magnitude.toNat ≤ infiniteMagnitude.toNat := by
    rw [magnitude_toNat, bits]
    exact Nat.le_trans (Nat.mod_le _ _) bound
  rw [isNaN, decide_eq_false_iff_not, UInt64.lt_iff_toNat_lt]
  exact Nat.not_lt_of_le size

namespace Token.Regular

variable {kind : Terminal} {token other : Token}

theorem unplaced_eq (regular : token.Regular kind) :
    token.unplaced = ⟨kind, token.lexeme, Scan.literal kind token.lexeme.toList, 0, 0⟩ := by
  rw [Token.unplaced, regular.classed, regular.literal]

/-- A token is told by its lexeme, but for its place. -/
theorem congr (regular : token.Regular kind) (regular' : other.Regular kind)
    (same : token.lexeme = other.lexeme) : token.unplaced = other.unplaced := by
  rw [regular.unplaced_eq, regular'.unplaced_eq, same]

theorem fixed (regular : token.Regular kind) (fixed : kind.isFixed = true) :
    token.lexeme.toList = kind.fixed :=
  regular.lexeme.fixed fixed

/-- All tokens of a reserved word or of a mark are the same, but for their places. -/
theorem unplaced_of_fixed (regular : token.Regular kind) (fixed : kind.isFixed = true) :
    token.unplaced = kind.fixedToken := by
  have lexeme := regular.fixed fixed
  rw [regular.unplaced_eq, lexeme, Terminal.fixedToken, ← lexeme, String.ofList_toList]

/-- A name is a word that is not reserved. -/
theorem name (regular : token.Regular .name) :
    token.lexeme.toList ∈ Pattern.word.language ∧
      ∀ kind : Terminal, kind.Reserved → token.lexeme.toList ≠ kind.spelling := by
  have lexeme := regular.lexeme
  generalize token.lexeme.toList = chars at lexeme
  cases lexeme with
  | name member free => exact ⟨member, free⟩
  | reserved reserved => exact absurd (reserved.capitals 'n' (by decide)) (by decide)
  | mark member => exact absurd (Terminal.isWord_of_mark member) (by decide)

theorem proper (regular : token.Regular kind) : token.literal.Proper := by
  rw [regular.literal]
  cases kind with
  | number => exact Number.isNaN_ofRatio _ _
  | _ => trivial

end Token.Regular

/-! ### Trees -/

/-- The tokens of an expression itself are regular and of the right classes, and if it is a literal,
then a proper one. -/
def Expr.Legible : Expr Unit → Prop
  | .assign target _ => target.token.Regular .name
  | .binary _ op token _ => token.Regular (Operator.compute op).terminal
  | .call _ paren _ => paren.Regular .parenClose
  | .get _ name => name.Regular .name
  | .grouping _ => True
  | .literal value => value.Proper
  | .logical _ op token _ => token.Regular (Operator.connect op).terminal
  | .set _ name _ => name.Regular .name
  | .super keyword method => keyword.token.Regular .super_ ∧ method.Regular .name
  | .this keyword => keyword.token.Regular .this_
  | .unary sign token _ => token.Regular sign.terminal
  | .var name => name.token.Regular .name

/-- All expressions of a tree are legible. -/
def legible : Demands Unit where
  expr := Expr.Legible
  stmt _ := True
  function _ := True

/-- What a phrase stands for is legible. -/
def Nonterminal.Legible : (phrase : Nonterminal) → phrase.Tree → Prop
  | .program, body | .block, body => eachIn legible body
  | .statements, body => eachIn legible (Array.toList body)
  | .declaration, found | .forInit, found =>
    ∀ stmt : Stmt Unit, found = some stmt → stmt.Each legible
  | .classDecl, stmt | .funDecl, stmt | .varDecl, stmt | .statement, stmt =>
    Stmt.Each legible stmt
  | .superclass, _ | .params, _ | .paramList, _ => True
  | .methods, decls => eachMethod legible (Array.toList decls)
  | .function, decl => Function.Each legible decl
  | .forCond, found | .forStep, found =>
    ∀ expr : Expr Unit, found = some expr → expr.Each Expr.Legible
  | .expr, value => Expr.Each Expr.Legible value
  | .argumentsOpt, args => eachArgument Expr.Legible args
  | .arguments, args => eachArgument Expr.Legible (Array.toList args)

/-- What a symbol stands for is legible. No rule asks for the end of a text, and a gap stands for no
token. -/
def Symbol.Legible : (symbol : Symbol) → symbol.Tree → Prop
  | .terminal kind, token => kind ≠ .gap → kind ≠ .eof → Token.Regular kind token
  | .nonterminal phrase, tree => phrase.Legible tree

/-- What symbols stand for is legible. -/
def Values.Legible : (shape : List Symbol) → Values Symbol.Tree shape → Prop
  | [], _ => True
  | symbol :: more, (first, rest) => symbol.Legible first ∧ Values.Legible more rest

/-- The loop with three clauses. -/
theorem Stmt.each_forLoop {init : Option (Stmt Unit)} {cond increment : Option (Expr Unit)}
    {body : Stmt Unit} (first : ∀ stmt, init = some stmt → stmt.Each legible)
    (test : ∀ expr, cond = some expr → expr.Each Expr.Legible)
    (step : ∀ expr, increment = some expr → expr.Each Expr.Legible)
    (inner : body.Each legible) : (Stmt.forLoop init cond increment body).Each legible := by
  have tested : (cond.getD (.literal (.bool true))).Each Expr.Legible := by
    cases cond with
    | none => trivial
    | some expr => exact test expr rfl
  have turn : (body.withIncrement increment).Each legible := by
    cases increment with
    | none => exact inner
    | some expr => exact ⟨trivial, inner, ⟨trivial, step expr rfl⟩, trivial⟩
  cases init with
  | none => exact ⟨trivial, tested, turn⟩
  | some stmt => exact ⟨trivial, first stmt rfl, ⟨trivial, tested, turn⟩, trivial⟩

/-- What an operator makes of legible operands is legible. -/
theorem Expr.each_binary {left right : Expr Unit} {op : Operator} {token : Token}
    (first : left.Each Legible) (regular : token.Regular op.terminal)
    (second : right.Each Legible) : (Tree.binary left op token right).Each Legible := by
  cases op with
  | compute op => exact ⟨regular, first, second⟩
  | connect op => exact ⟨regular, first, second⟩
  | assign =>
      cases left with
      | var name => exact ⟨first, second⟩
      | get object name => exact ⟨first.1, first.2, second⟩
      | _ => exact first

/-- **A rule makes legible trees of legible ones**, whichever the rule. -/
theorem node_legible (rule : Rule) (values : Values Symbol.Tree rule.rhs)
    (parts : Values.Legible rule.rhs values) : rule.lhs.Legible (Tree.node rule values) := by
  cases rule with
  | program => exact parts.1
  | noStatements | noMethods | noArguments => exact trivial
  | noSuperclass | superclass | noParams | someParams | firstParam | moreParams => exact trivial
  | skipped | noInit | noCond | noStep => rintro _ ⟨⟩
  | true_ | false_ | nil_ => exact trivial
  | moreStatements =>
      obtain ⟨body, found, _⟩ := values
      obtain ⟨front, last, _⟩ := parts
      cases found with
      | none => exact front
      | some stmt => exact eachIn_iff.mpr (forall_mem_push (eachIn_iff.mp front) (last stmt rfl))
  | ofClass | ofFun | ofVar | ofStatement | initVar =>
      rintro stmt ⟨⟩
      exact parts.1
  | classDecl =>
      obtain ⟨_, _, _, _, methods, _⟩ := parts
      exact ⟨trivial, methods⟩
  | moreMethods =>
      obtain ⟨front, last, _⟩ := parts
      exact eachMethod_iff.mpr (forall_mem_push (eachMethod_iff.mp front) last)
  | funDecl =>
      obtain ⟨_, decl, _⟩ := parts
      exact ⟨trivial, decl⟩
  | function =>
      obtain ⟨_, _, _, _, body, _⟩ := parts
      exact ⟨trivial, body⟩
  | varPlain | returnNothing => exact ⟨trivial, by rintro _ ⟨⟩⟩
  | varInit =>
      obtain ⟨_, _, _, init, _⟩ := parts
      refine ⟨trivial, ?_⟩
      rintro expr ⟨⟩
      exact init
  | returnValue =>
      obtain ⟨_, value, _⟩ := parts
      refine ⟨trivial, ?_⟩
      rintro expr ⟨⟩
      exact value
  | expression => exact ⟨trivial, parts.1⟩
  | print =>
      obtain ⟨_, value, _⟩ := parts
      exact ⟨trivial, value⟩
  | ofBlock => exact ⟨trivial, parts.1⟩
  | ifThen | whileLoop =>
      obtain ⟨_, _, cond, _, branch, _⟩ := parts
      exact ⟨trivial, cond, branch⟩
  | ifElse =>
      obtain ⟨_, _, cond, _, yes, _, no, _⟩ := parts
      exact ⟨trivial, cond, yes, no⟩
  | forLoop =>
      obtain ⟨_, _, init, cond, increment, body, _⟩ := parts
      exact Stmt.each_forLoop init cond increment body
  | block =>
      obtain ⟨_, body, _⟩ := parts
      exact body
  | initExpr =>
      rintro stmt ⟨⟩
      exact ⟨trivial, parts.1⟩
  | someCond | someStep =>
      rintro expr ⟨⟩
      exact parts.1
  | binary op =>
      obtain ⟨left, token, right, _⟩ := parts
      have regular := token op.terminal_ne_gap op.terminal_ne_eof
      exact Expr.each_binary left regular right
  | unary sign =>
      obtain ⟨token, right, _⟩ := parts
      exact ⟨token (by cases sign <;> decide) (by cases sign <;> decide), right⟩
  | call =>
      obtain ⟨callee, _, args, paren, _⟩ := parts
      exact ⟨paren (by decide) (by decide), callee, args⟩
  | get =>
      obtain ⟨object, _, name, _⟩ := parts
      exact ⟨name (by decide) (by decide), object⟩
  | grouping =>
      obtain ⟨_, inner, _⟩ := parts
      exact ⟨trivial, inner⟩
  | variable_ | this => exact parts.1 (by decide) (by decide)
  | number | string => exact (parts.1 (by decide) (by decide)).proper
  | super =>
      obtain ⟨keyword, _, method, _⟩ := parts
      exact ⟨keyword (by decide) (by decide), method (by decide) (by decide)⟩
  | someArguments => exact parts.1
  | firstArgument => exact ⟨parts.1, trivial⟩
  | moreArguments =>
      obtain ⟨front, _, last, _⟩ := parts
      exact eachArgument_iff.mpr (forall_mem_push (eachArgument_iff.mp front) last)

mutual

/-- **What a derivation stands for is legible**, if the tokens that it reads are regular. -/
theorem Derivation.legible {clean : Prop} : {symbol : Symbol} → (derivation : Derivation symbol) →
    derivation.Accounted trees clean →
    (∀ token ∈ derivation.yield, token.kind ≠ .eof → token.Regular token.kind) →
    symbol.Legible (derivation.value trees)
  | _, .leaf kind token, accounted, regular => by
    intro gap eof
    obtain rfl := accounted.1.resolve_left gap
    rw [Derivation.yield, if_neg gap] at regular
    exact regular token (List.mem_singleton_self _) eof
  | _, .node rule parts, accounted, regular =>
    node_legible rule (parts.values trees) (Derivations.legible parts accounted.2 regular)

theorem Derivations.legible {clean : Prop} : {shape : List Symbol} →
    (parts : Derivations shape) → parts.Accounted trees clean →
    (∀ token ∈ parts.yield, token.kind ≠ .eof → token.Regular token.kind) →
    Values.Legible shape (parts.values trees)
  | _, .nil, _, _ => trivial
  | _, .cons first rest, accounted, regular =>
    ⟨Derivation.legible first accounted.1 fun token member =>
        regular token (List.mem_append_left _ member),
      Derivations.legible rest accounted.2 fun token member =>
        regular token (List.mem_append_right _ member)⟩

end

/-- **Every text is read into legible trees**, errors or not. -/
theorem parse_legible (text : String) : eachIn legible (parse text).tree := by
  rw [parse_tree]
  cases found : (readProgram trees (feed text)).1 with
  | none => trivial
  | some program =>
      obtain ⟨derivation, same, accounted, part⟩ :=
        readProgram_sound (feed text) (feed_inside text) found
      rw [feed_tokens] at part
      have read := derivation.legible accounted fun token member =>
        scan_regular (part.subset member)
      rw [same] at read
      exact read

/-! ### Expressions in trees -/

section Expressions

variable {ρ : Type}

mutual

/-- An expression and all the expressions inside it. -/
def Expr.parts : Expr ρ → List (Expr ρ)
  | .assign target value => .assign target value :: value.parts
  | .binary left op token right => .binary left op token right :: (left.parts ++ right.parts)
  | .call callee paren args => .call callee paren args :: (callee.parts ++ argumentParts args)
  | .get object name => .get object name :: object.parts
  | .grouping inner => .grouping inner :: inner.parts
  | .literal value => [.literal value]
  | .logical left op token right => .logical left op token right :: (left.parts ++ right.parts)
  | .set object name value => .set object name value :: (object.parts ++ value.parts)
  | .super keyword method => [.super keyword method]
  | .this keyword => [.this keyword]
  | .unary sign token right => .unary sign token right :: right.parts
  | .var name => [.var name]

/-- All the expressions in the arguments of a call. -/
def argumentParts : List (Expr ρ) → List (Expr ρ)
  | [] => []
  | arg :: more => arg.parts ++ argumentParts more

end

/-- All the expressions in one that may be missing. -/
def optionalParts : Option (Expr ρ) → List (Expr ρ)
  | none => []
  | some value => value.parts

mutual

/-- All the expressions in a statement. -/
def Stmt.expressions : Stmt ρ → List (Expr ρ)
  | .block body => expressionsIn body
  | .function decl => decl.expressions
  | .class_ _ _ methods => methodExpressions methods
  | .expression value | .print _ value => value.parts
  | .ifThen cond branch | .while_ cond branch => cond.parts ++ branch.expressions
  | .ifElse cond yes no => cond.parts ++ (yes.expressions ++ no.expressions)
  | .return_ _ value | .var _ value => optionalParts value

/-- All the expressions in statements. -/
def expressionsIn : List (Stmt ρ) → List (Expr ρ)
  | [] => []
  | stmt :: more => stmt.expressions ++ expressionsIn more

/-- All the expressions in a function. -/
def Function.expressions : Function ρ → List (Expr ρ)
  | .mk _ _ body => expressionsIn body

/-- All the expressions in the methods of a class. -/
def methodExpressions : List (Function ρ) → List (Expr ρ)
  | [] => []
  | method :: more => method.expressions ++ methodExpressions more

end

mutual

/-- What is asked of every expression in one is asked of every expression in its parts. -/
theorem Expr.Each.parts {asked : Expr ρ → Prop} : (expr : Expr ρ) → expr.Each asked →
    ∀ part ∈ expr.parts, part.Each asked
  | .assign _ inner, each | .get inner _, each | .grouping inner, each | .unary _ _ inner, each =>
    List.forall_mem_cons.mpr ⟨each, Expr.Each.parts inner each.2⟩
  | .binary left _ _ right, each | .logical left _ _ right, each | .set left _ right, each =>
    List.forall_mem_cons.mpr ⟨each, List.forall_mem_append.mpr
      ⟨Expr.Each.parts left each.2.1, Expr.Each.parts right each.2.2⟩⟩
  | .call callee _ args, each =>
    List.forall_mem_cons.mpr ⟨each, List.forall_mem_append.mpr
      ⟨Expr.Each.parts callee each.2.1, eachArgument.parts args each.2.2⟩⟩
  | .literal _, each | .super _ _, each | .this _, each | .var _, each =>
    List.forall_mem_singleton.mpr each

theorem eachArgument.parts {asked : Expr ρ → Prop} : (args : List (Expr ρ)) →
    eachArgument asked args → ∀ part ∈ argumentParts args, part.Each asked
  | [], _ => List.forall_mem_nil _
  | arg :: more, each => List.forall_mem_append.mpr
    ⟨Expr.Each.parts arg each.1, eachArgument.parts more each.2⟩

end

theorem optionalParts_each {asked : Expr ρ → Prop} {value : Option (Expr ρ)}
    (each : ∀ expr ∈ value, expr.Each asked) : ∀ part ∈ optionalParts value, part.Each asked := by
  cases value with
  | none => exact List.forall_mem_nil _
  | some expr => exact Expr.Each.parts expr (each expr rfl)

mutual

theorem Stmt.Each.expressions {asked : Demands ρ} : (stmt : Stmt ρ) → stmt.Each asked →
    ∀ expr ∈ stmt.expressions, expr.Each asked.expr
  | .block body, each => eachIn.expressions body each.2
  | .function decl, each => Function.Each.expressions decl each.2
  | .class_ _ _ methods, each => eachMethod.expressions methods each.2
  | .expression value, each | .print _ value, each => Expr.Each.parts value each.2
  | .ifThen cond branch, each | .while_ cond branch, each => List.forall_mem_append.mpr
    ⟨Expr.Each.parts cond each.2.1, Stmt.Each.expressions branch each.2.2⟩
  | .ifElse cond yes no, each => List.forall_mem_append.mpr
    ⟨Expr.Each.parts cond each.2.1, List.forall_mem_append.mpr
      ⟨Stmt.Each.expressions yes each.2.2.1, Stmt.Each.expressions no each.2.2.2⟩⟩
  | .return_ _ _, each | .var _ _, each => optionalParts_each each.2

/-- What is asked of every expression in a tree holds of all its expressions. -/
theorem eachIn.expressions {asked : Demands ρ} : (body : List (Stmt ρ)) → eachIn asked body →
    ∀ expr ∈ expressionsIn body, expr.Each asked.expr
  | [], _ => List.forall_mem_nil _
  | stmt :: more, each => List.forall_mem_append.mpr
    ⟨Stmt.Each.expressions stmt each.1, eachIn.expressions more each.2⟩

theorem Function.Each.expressions {asked : Demands ρ} : (decl : Function ρ) → decl.Each asked →
    ∀ expr ∈ decl.expressions, expr.Each asked.expr
  | .mk _ _ body, each => eachIn.expressions body each.2

theorem eachMethod.expressions {asked : Demands ρ} : (methods : List (Function ρ)) →
    eachMethod asked methods → ∀ expr ∈ methodExpressions methods, expr.Each asked.expr
  | [], _ => List.forall_mem_nil _
  | method :: more, each => List.forall_mem_append.mpr
    ⟨Function.Each.expressions method each.1, eachMethod.expressions more each.2⟩

end

end Expressions

end Lox
