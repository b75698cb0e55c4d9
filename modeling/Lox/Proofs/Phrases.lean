/-
**Phrases and their trees.** What the trees of a text have in common, rule by rule.

* `Expr.Read`, `Stmt.Read` and `Function.Read` say that a tree was read from a stretch of a text:
  the names in it lie in the stretch, `this` and `super` are spelled so and nothing else is, and
  the tree meets what is asked of all trees (`asRead`).
* `Values.Read.each`: what symbols stand for was read from the whole stretch. Only where something
  is declared does it matter in which order, and the stretch is cut there.
* `node_read`: a rule makes such a tree from such trees, whichever the rule.
* `Derivation.read`: so the value of a derivation is such a tree, if the tokens in it are in order.
-/

import Lox.Proofs.Reading
import Lox.Proofs.Trees

namespace Lox

/-! ### Stretches of a text -/

/-- A token lies in a stretch of a text. -/
def Token.Within (low high : Nat) (token : Token) : Prop :=
  low ≤ token.offset ∧ token.offset < high

theorem Token.Within.mono {low low' high high' : Nat} {token : Token}
    (within : token.Within low high) (lower : low' ≤ low) (higher : high ≤ high') :
    token.Within low' high' :=
  ⟨Nat.le_trans lower within.1, Nat.lt_of_lt_of_le within.2 higher⟩

/-- What lies in a stretch stands before what lies in a later one. -/
theorem before_of_within {low mid : Nat} (high : Nat) {earlier later : List Token}
    (first : ∀ token ∈ earlier, token.Within low mid)
    (second : ∀ token ∈ later, token.Within mid high) : Before earlier later :=
  fun one here other there => Nat.lt_of_lt_of_le (first one here).2 (second other there).1

/-! ### Trees that were read -/

/-- What is asked of the trees that are read: that they are well formed and ordered, and within the
limits if nothing was objected to. -/
def asRead (clean : Prop) : Demands Unit where
  expr expr := clean → expr.argumentCount ≤ maxArguments
  stmt stmt := stmt.Formed ∧ stmt.Ordered
  function decl := decl.Formed ∧ decl.Ordered ∧ (clean → decl.params.length ≤ maxArguments)

section Read

variable (clean : Prop) (low high : Nat)

/-- A reference was read from a stretch: it has a name that suits its use. -/
def Placed (used : Use × Reference Unit) : Prop :=
  used.1.Suits used.2.token.lexeme ∧ used.2.token.Within low high

/-- A proper name was read from a stretch. -/
def Token.Named (token : Token) : Prop :=
  ProperName token.lexeme ∧ token.Within low high

/-- An expression was read from a stretch. -/
structure Expr.Read (expr : Expr Unit) : Prop where
  used : ∀ used ∈ expr.references, Placed low high used
  each : expr.Each (asRead clean).expr

/-- A statement was read from a stretch. -/
structure Stmt.Read (stmt : Stmt Unit) : Prop where
  used : ∀ used ∈ stmt.references, Placed low high used
  declared : ∀ name ∈ stmt.declarations, name.Within low high
  each : stmt.Each (asRead clean)

/-- A function was read from a stretch, but for its name. -/
structure Function.Read (decl : Function Unit) : Prop where
  used : ∀ used ∈ decl.references, Placed low high used
  declared : ∀ name ∈ decl.declarations, name.Within low high
  each : decl.Each (asRead clean)

/-- Statements were read from a stretch, one after the other. -/
structure BodyRead (body : List (Stmt Unit)) : Prop where
  each : ∀ stmt ∈ body, stmt.Read clean low high
  order : InOrder body

/-- Arguments were read from a stretch. -/
structure ArgumentsRead (args : List (Expr Unit)) : Prop where
  each : ∀ arg ∈ args, arg.Read clean low high
  limit : clean → args.length ≤ maxArguments

/-- What a phrase stands for was read from a stretch. -/
def Nonterminal.Read : (phrase : Nonterminal) → Nonterminal.Tree phrase → Prop
  | .program, body | .block, body => BodyRead clean low high body
  | .statements, body => BodyRead clean low high (Array.toList body)
  | .declaration, found | .forInit, found =>
    ∀ stmt : Stmt Unit, found = some stmt → stmt.Read clean low high
  | .classDecl, stmt | .funDecl, stmt | .varDecl, stmt => Stmt.Read clean low high stmt
  | .statement, stmt => Stmt.Read clean low high stmt ∧ Stmt.declared? stmt = none
  | .superclass, found =>
    ∀ name : Reference Unit, found = some name → name.token.Named low high
  | .methods, decls => ∀ decl ∈ Array.toList decls, Function.Read clean low high decl
  | .function, decl => ∃ mid, low ≤ mid ∧ mid ≤ high ∧
    (Function.name decl).Named low mid ∧ Function.Read clean mid high decl
  | .params, names => ∀ name : Token, List.Mem name names → name.Named low high
  | .paramList, names => ∀ name ∈ Array.toList names, Token.Named low high name
  | .forCond, found | .forStep, found =>
    ∀ expr : Expr Unit, found = some expr → expr.Read clean low high
  | .expr, value => Expr.Read clean low high value
  | .argumentsOpt, args => ArgumentsRead clean low high args
  | .arguments, args => ArgumentsRead clean low high (Array.toList args)

/-- What a symbol stands for was read from a stretch. A gap stands for nothing in it. -/
def Symbol.Read : (symbol : Symbol) → symbol.Tree → Prop
  | .terminal kind, token =>
    kind ≠ .gap → Token.kind token = kind ∧ Token.Spelled token ∧ Token.Within low high token
  | .nonterminal phrase, tree => Nonterminal.Read clean low high phrase tree

end Read

/-- What symbols stand for was read from stretches that follow each other. -/
def Values.Read (clean : Prop) :
    (shape : List Symbol) → Values Symbol.Tree shape → (low high : Nat) → Prop
  | [], _, low, high => low ≤ high
  | symbol :: more, (first, rest), low, high =>
    ∃ mid, low ≤ mid ∧ Symbol.Read clean low mid symbol first ∧ Values.Read clean more rest mid high

variable {clean : Prop} {low low' mid high high' : Nat}

/-! ### Wider stretches -/

section Mono

variable (lower : low' ≤ low) (higher : high ≤ high')

include lower higher

theorem Placed.mono {used : Use × Reference Unit} (placed : Placed low high used) :
    Placed low' high' used :=
  ⟨placed.1, placed.2.mono lower higher⟩

theorem Token.Named.mono {token : Token} (named : token.Named low high) :
    token.Named low' high' :=
  ⟨named.1, named.2.mono lower higher⟩

theorem Expr.Read.mono {expr : Expr Unit} (read : expr.Read clean low high) :
    expr.Read clean low' high' :=
  ⟨fun used member => (read.used used member).mono lower higher, read.each⟩

theorem Stmt.Read.mono {stmt : Stmt Unit} (read : stmt.Read clean low high) :
    stmt.Read clean low' high' :=
  ⟨fun used member => (read.used used member).mono lower higher,
    fun name member => (read.declared name member).mono lower higher, read.each⟩

theorem Function.Read.mono {decl : Function Unit} (read : decl.Read clean low high) :
    decl.Read clean low' high' :=
  ⟨fun used member => (read.used used member).mono lower higher,
    fun name member => (read.declared name member).mono lower higher, read.each⟩

theorem BodyRead.mono {body : List (Stmt Unit)} (read : BodyRead clean low high body) :
    BodyRead clean low' high' body :=
  ⟨fun stmt member => (read.each stmt member).mono lower higher, read.order⟩

theorem ArgumentsRead.mono {args : List (Expr Unit)} (read : ArgumentsRead clean low high args) :
    ArgumentsRead clean low' high' args :=
  ⟨fun arg member => (read.each arg member).mono lower higher, read.limit⟩

theorem Nonterminal.Read.mono {phrase : Nonterminal} {tree : Nonterminal.Tree phrase}
    (read : Nonterminal.Read clean low high phrase tree) :
    Nonterminal.Read clean low' high' phrase tree := by
  cases phrase with
  | program | block | statements => exact BodyRead.mono lower higher read
  | declaration | forInit => exact fun stmt found => (read stmt found).mono lower higher
  | classDecl | funDecl | varDecl => exact Stmt.Read.mono lower higher read
  | statement => exact ⟨read.1.mono lower higher, read.2⟩
  | superclass => exact fun name found => (read name found).mono lower higher
  | methods => exact fun decl member => (read decl member).mono lower higher
  | function =>
      obtain ⟨mid, before, behind, name, decl⟩ := read
      exact ⟨mid, Nat.le_trans lower before, Nat.le_trans behind higher,
        name.mono lower (Nat.le_refl mid), decl.mono (Nat.le_refl mid) higher⟩
  | params | paramList => exact fun name member => (read name member).mono lower higher
  | forCond | forStep => exact fun expr found => (read expr found).mono lower higher
  | expr => exact Expr.Read.mono lower higher read
  | argumentsOpt | arguments => exact ArgumentsRead.mono lower higher read

theorem Symbol.Read.mono {symbol : Symbol} {tree : symbol.Tree}
    (read : Symbol.Read clean low high symbol tree) : Symbol.Read clean low' high' symbol tree := by
  cases symbol with
  | terminal kind =>
      intro solid
      obtain ⟨same, spelled, within⟩ := read solid
      exact ⟨same, spelled, within.mono lower higher⟩
  | nonterminal phrase => exact Nonterminal.Read.mono lower higher read

end Mono

/-! ### Parts of a stretch -/

/-- What symbols stand for was read from a stretch, each somewhere in it. -/
def Values.EachRead (clean : Prop) (low high : Nat) :
    (shape : List Symbol) → Values Symbol.Tree shape → Prop
  | [], _ => True
  | symbol :: more, (first, rest) =>
    Symbol.Read clean low high symbol first ∧ EachRead clean low high more rest

namespace Values.Read

theorem le : {shape : List Symbol} → {values : Values Symbol.Tree shape} → {low : Nat} →
    Values.Read clean shape values low high → low ≤ high
  | [], _, _, read => read
  | _ :: _, (_, _), _, ⟨_, lower, _, rest⟩ => Nat.le_trans lower rest.le

theorem each {shape : List Symbol} {values : Values Symbol.Tree shape}
    (read : Values.Read clean shape values low high) :
    Values.EachRead clean low high shape values := by
  suffices wide : ∀ {low' : Nat}, low' ≤ low → Values.EachRead clean low' high shape values from
    wide (Nat.le_refl low)
  intro low' below
  induction shape generalizing low with
  | nil => trivial
  | cons symbol more ih =>
      obtain ⟨first, rest⟩ := values
      obtain ⟨mid, lower, here, behind⟩ := read
      exact ⟨here.mono below behind.le, ih behind (Nat.le_trans below lower)⟩

/-- Without the first symbol, in the same stretch. -/
theorem tail {symbol : Symbol} {shape : List Symbol} {first : symbol.Tree}
    {rest : Values Symbol.Tree shape}
    (read : Values.Read clean (symbol :: shape) (first, rest) low high) :
    Values.Read clean shape rest low high := by
  obtain ⟨mid, lower, _, behind⟩ := read
  cases shape with
  | nil => exact Nat.le_trans lower behind
  | cons next more =>
      obtain ⟨second, others⟩ := rest
      obtain ⟨last, higher, here, final⟩ := behind
      exact ⟨last, Nat.le_trans lower higher, here.mono lower (Nat.le_refl last), final⟩

end Values.Read

/-! ### Expressions -/

namespace Expr.Read

theorem plain {expr : Expr Unit} (none : expr.references = [])
    (each : expr.Each (asRead clean).expr) : expr.Read clean low high :=
  ⟨by simp [none], each⟩

/-- An expression that consists of another one and tokens around it. -/
theorem around {inner whole : Expr Unit} (read : inner.Read clean low high)
    (same : whole.references = inner.references)
    (each : inner.Each (asRead clean).expr → whole.Each (asRead clean).expr) :
    whole.Read clean low high :=
  ⟨same ▸ read.used, each read.each⟩

theorem one {use : Use} {token : Token} {expr : Expr Unit}
    (same : expr.references = [(use, Tree.reference token)])
    (each : expr.Each (asRead clean).expr) (suits : use.Suits token.lexeme)
    (within : token.Within low high) : expr.Read clean low high := by
  refine ⟨?_, each⟩
  rw [same]
  exact List.forall_mem_singleton.mpr ⟨suits, within⟩

theorem two {first second whole : Expr Unit} (left : first.Read clean low high)
    (right : second.Read clean low high)
    (same : whole.references = first.references ++ second.references)
    (each : first.Each (asRead clean).expr → second.Each (asRead clean).expr →
      whole.Each (asRead clean).expr) : whole.Read clean low high := by
  refine ⟨?_, each left.each right.each⟩
  rw [same]
  exact List.forall_mem_append.mpr ⟨left.used, right.used⟩

/-- What an operator makes was read if its operands were. -/
theorem binary {left right : Expr Unit} (first : left.Read clean low high)
    (second : right.Read clean low high) (op : Operator) (token : Token) :
    (Tree.binary left op token right).Read clean low high := by
  cases op with
  | compute op => exact two first second rfl fun one other => ⟨fun _ => Nat.zero_le _, one, other⟩
  | connect op => exact two first second rfl fun one other => ⟨fun _ => Nat.zero_le _, one, other⟩
  | assign =>
      cases left with
      | var name =>
          refine ⟨List.forall_mem_cons.mpr ⟨?_, second.used⟩, fun _ => Nat.zero_le _, second.each⟩
          exact first.used (.read, name) (List.mem_singleton_self _)
      | get object name =>
          have inner : object.Read clean low high := ⟨first.used, first.each.2⟩
          exact two inner second rfl fun one other => ⟨fun _ => Nat.zero_le _, one, other⟩
      | _ => exact first

/-- A call was read if what it calls and its arguments were. -/
theorem call {callee : Expr Unit} {args : List (Expr Unit)} (first : callee.Read clean low high)
    (second : ArgumentsRead clean low high args) (paren : Token) :
    (Expr.call callee paren args).Read clean low high := by
  refine ⟨?_, second.limit, first.each, eachArgument_iff.mpr fun arg member =>
    (second.each arg member).each⟩
  refine List.forall_mem_append.mpr ⟨first.used, ?_⟩
  rw [argumentReferences_eq]
  intro used member
  obtain ⟨arg, here, inside⟩ := List.mem_flatMap.mp member
  exact (second.each arg here).used used inside

end Expr.Read

/-! ### Statements -/

theorem Stmt.Read.mentions {stmt : Stmt Unit} (read : stmt.Read clean low high) :
    ∀ token ∈ stmt.mentions, token.Within low high := by
  refine List.forall_mem_append.mpr ⟨read.declared, ?_⟩
  intro token member
  obtain ⟨used, here, rfl⟩ := List.mem_map.mp member
  exact (read.used used here).2

theorem Function.Read.mentions {decl : Function Unit} (read : decl.Read clean low high) :
    ∀ token ∈ decl.mentions, token.Within low high := by
  refine List.forall_mem_append.mpr ⟨read.declared, ?_⟩
  intro token member
  obtain ⟨used, here, rfl⟩ := List.mem_map.mp member
  exact (read.used used here).2

namespace BodyRead

theorem nil : BodyRead clean low high [] :=
  ⟨by simp, .nil⟩

/-- One more statement behind others. -/
theorem push {body : List (Stmt Unit)} {stmt : Stmt Unit} (front : BodyRead clean low mid body)
    (last : stmt.Read clean mid high) (lower : low ≤ mid) (higher : mid ≤ high) :
    BodyRead clean low high (body ++ [stmt]) := by
  refine ⟨List.forall_mem_append.mpr ⟨?_, ?_⟩, List.pairwise_append.mpr ⟨front.order, ?_, ?_⟩⟩
  · exact fun other member => (front.each other member).mono (Nat.le_refl low) higher
  · exact List.forall_mem_singleton.mpr (last.mono lower (Nat.le_refl high))
  · exact List.pairwise_singleton _ stmt
  · intro other member
    refine List.forall_mem_singleton.mpr fun _ => ?_
    exact before_of_within high (front.each other member).mentions last.mentions

theorem push_array {body : Array (Stmt Unit)} {stmt : Stmt Unit}
    (front : BodyRead clean low mid body.toList) (last : stmt.Read clean mid high)
    (lower : low ≤ mid) (higher : mid ≤ high) :
    BodyRead clean low high (body.push stmt).toList := by
  rw [Array.toList_push]
  exact push front last lower higher

theorem used {body : List (Stmt Unit)} (read : BodyRead clean low high body) :
    ∀ used ∈ treeReferences body, Placed low high used := by
  intro used member
  rw [treeReferences_eq] at member
  obtain ⟨stmt, here, inside⟩ := List.mem_flatMap.mp member
  exact (read.each stmt here).used used inside

theorem declared {body : List (Stmt Unit)} (read : BodyRead clean low high body) :
    ∀ name ∈ treeDeclarations body, name.Within low high := by
  intro name member
  rw [treeDeclarations_eq] at member
  obtain ⟨stmt, here, inside⟩ := List.mem_flatMap.mp member
  exact (read.each stmt here).declared name inside

theorem eachIn {body : List (Stmt Unit)} (read : BodyRead clean low high body) :
    Lox.eachIn (asRead clean) body :=
  eachIn_iff.mpr fun stmt member => (read.each stmt member).each

end BodyRead

/-- A function was read if its parameters were, and behind them its body. -/
theorem Function.Read.of_body {name : Token} {params : List Token} {body : List (Stmt Unit)}
    (named : ∀ param ∈ params, param.Named low mid) (read : BodyRead clean mid high body)
    (lower : low ≤ mid) (higher : mid ≤ high) (limit : clean → params.length ≤ maxArguments) :
    (Function.mk name params body).Read clean low high := by
  have wide := read.mono lower (Nat.le_refl high)
  refine ⟨wide.used, List.forall_mem_append.mpr ⟨?_, wide.declared⟩, ?_, wide.eachIn⟩
  · exact fun param member => (named param member).2.mono (Nat.le_refl low) higher
  · refine ⟨fun param member => (named param member).1, ⟨?_, read.order⟩, limit⟩
    refine before_of_within high (fun param member => (named param member).2) fun token member => ?_
    obtain ⟨stmt, here, inside⟩ := List.mem_flatMap.mp member
    exact (read.each stmt here).mentions token inside

theorem Stmt.Formed.plain {stmt : Stmt Unit} (unnamed : stmt.declared? = none)
    (unbranched : stmt.branches = []) : stmt.Formed :=
  ⟨by simp [unnamed], by simp [unbranched]⟩

theorem Stmt.Formed.named {stmt : Stmt Unit} {name : Token} (declared : stmt.declared? = some name)
    (proper : ProperName name.lexeme) (unbranched : stmt.branches = []) : stmt.Formed :=
  ⟨by simpa [declared] using proper, by simp [unbranched]⟩

theorem Stmt.Formed.branched {stmt : Stmt Unit} (unnamed : stmt.declared? = none)
    (plain : ∀ branch ∈ stmt.branches, branch.declared? = none) : stmt.Formed :=
  ⟨by simp [unnamed], plain⟩

theorem Stmt.Ordered.plain {stmt : Stmt Unit} (unnamed : stmt.declared? = none)
    (unblocked : ∀ body, stmt ≠ .block body) : stmt.Ordered :=
  ⟨by simp [unnamed], fun body same => absurd same (unblocked body)⟩

theorem Stmt.Ordered.block {body : List (Stmt Unit)} (order : InOrder body) :
    (Stmt.block body).Ordered :=
  ⟨by simp [declared?], fun _ same => Stmt.block.inj same ▸ order⟩

theorem Stmt.Ordered.named {stmt : Stmt Unit} {name : Token} (declared : stmt.declared? = some name)
    (before : Before [name] stmt.inner) : stmt.Ordered := by
  refine ⟨by simpa [declared] using before, ?_⟩
  rintro body rfl
  exact absurd declared nofun

namespace Stmt.Read

theorem block {body : List (Stmt Unit)} (read : BodyRead clean low high body) :
    (Stmt.block body).Read clean low high :=
  ⟨read.used, read.declared, ⟨.plain rfl rfl, .block read.order⟩, read.eachIn⟩

theorem function {decl : Function Unit} (named : decl.name.Named low mid)
    (read : decl.Read clean mid high) (lower : low ≤ mid) (higher : mid ≤ high) :
    (Stmt.function decl).Read clean low high := by
  have wide := read.mono lower (Nat.le_refl high)
  refine ⟨wide.used, List.forall_mem_cons.mpr ⟨?_, wide.declared⟩,
    ⟨.named rfl named.1 rfl, ?_⟩, wide.each⟩
  · exact named.2.mono (Nat.le_refl low) higher
  · exact .named rfl (before_of_within high (List.forall_mem_singleton.mpr named.2) read.mentions)

theorem class_ {name : Token} {superclass : Option (Reference Unit)}
    {methods : List (Function Unit)} (named : name.Named low mid)
    (parent : ∀ reference, superclass = some reference → reference.token.Named mid high)
    (read : ∀ decl ∈ methods, decl.Read clean mid high) (lower : low ≤ mid) (higher : mid ≤ high) :
    (Stmt.class_ name superclass methods).Read clean low high := by
  have wide := fun decl member => (read decl member).mono lower (Nat.le_refl high)
  refine ⟨List.forall_mem_append.mpr ⟨?_, ?_⟩, List.forall_mem_cons.mpr ⟨?_, ?_⟩,
    ⟨.named rfl named.1 rfl, .named rfl (before_of_within high
      (List.forall_mem_singleton.mpr named.2) (List.forall_mem_append.mpr ⟨?_, ?_⟩))⟩, ?_⟩
  · intro used member
    obtain ⟨reference, here, rfl⟩ := List.mem_map.mp member
    exact (parent reference (Option.mem_toList.mp here)).mono lower (Nat.le_refl high)
  · intro used member
    rw [methodReferences_eq] at member
    obtain ⟨decl, here, inside⟩ := List.mem_flatMap.mp member
    exact (wide decl here).used used inside
  · exact named.2.mono (Nat.le_refl low) higher
  · intro inner member
    rw [methodDeclarations_eq] at member
    obtain ⟨decl, here, inside⟩ := List.mem_flatMap.mp member
    exact (wide decl here).declared inner inside
  · intro token member
    obtain ⟨reference, here, rfl⟩ := List.mem_map.mp member
    exact (parent reference (Option.mem_toList.mp here)).2
  · intro token member
    obtain ⟨decl, here, inside⟩ := List.mem_flatMap.mp member
    exact (read decl here).mentions token inside
  · exact eachMethod_iff.mpr fun decl member => (wide decl member).each

theorem var {name : Token} {init : Option (Expr Unit)} (named : name.Named low mid)
    (read : ∀ expr, init = some expr → expr.Read clean mid high) (lower : low ≤ mid)
    (higher : mid ≤ high) : (Stmt.var name init).Read clean low high := by
  have used : ∀ used ∈ optionalReferences init, Placed mid high used := by
    intro used member
    rw [optionalReferences_eq] at member
    obtain ⟨expr, here, inside⟩ := List.mem_flatMap.mp member
    exact (read expr (Option.mem_toList.mp here)).used used inside
  refine ⟨fun reference member => (used reference member).mono lower (Nat.le_refl high),
    List.forall_mem_singleton.mpr (named.2.mono (Nat.le_refl low) higher),
    ⟨.named rfl named.1 rfl, ?_⟩, fun expr here => (read expr here).each⟩
  refine .named rfl (before_of_within high (List.forall_mem_singleton.mpr named.2) ?_)
  intro token member
  obtain ⟨reference, here, rfl⟩ := List.mem_map.mp member
  exact (used reference here).2

theorem expression {value : Expr Unit} (read : value.Read clean low high) :
    (Stmt.expression value).Read clean low high :=
  ⟨read.used, List.forall_mem_nil _, ⟨.plain rfl rfl, .plain rfl nofun⟩, read.each⟩

theorem print {value : Expr Unit} (keyword : Token) (read : value.Read clean low high) :
    (Stmt.print keyword value).Read clean low high :=
  ⟨read.used, List.forall_mem_nil _, ⟨.plain rfl rfl, .plain rfl nofun⟩, read.each⟩

theorem return_ {value : Option (Expr Unit)} (keyword : Token)
    (read : ∀ expr, value = some expr → expr.Read clean low high) :
    (Stmt.return_ keyword value).Read clean low high := by
  refine ⟨fun used member => ?_, List.forall_mem_nil _, ⟨.plain rfl rfl, .plain rfl nofun⟩,
    fun expr here =>
    (read expr here).each⟩
  rw [references, optionalReferences_eq] at member
  obtain ⟨expr, here, inside⟩ := List.mem_flatMap.mp member
  exact (read expr (Option.mem_toList.mp here)).used used inside

section Branches

variable {cond : Expr Unit} {yes no : Stmt Unit} (tested : cond.Read clean low high)
  (read : yes.Read clean low high) (plain : yes.declared? = none)

include tested read plain

theorem ifThen : (Stmt.ifThen cond yes).Read clean low high :=
  ⟨List.forall_mem_append.mpr ⟨tested.used, read.used⟩, read.declared,
    ⟨.branched rfl (List.forall_mem_singleton.mpr plain), .plain rfl nofun⟩, tested.each, read.each⟩

theorem while_ : (Stmt.while_ cond yes).Read clean low high :=
  ⟨List.forall_mem_append.mpr ⟨tested.used, read.used⟩, read.declared,
    ⟨.branched rfl (List.forall_mem_singleton.mpr plain), .plain rfl nofun⟩, tested.each, read.each⟩

theorem ifElse (other : no.Read clean low high) (plain' : no.declared? = none) :
    (Stmt.ifElse cond yes no).Read clean low high :=
  ⟨List.forall_mem_append.mpr ⟨List.forall_mem_append.mpr ⟨tested.used, read.used⟩, other.used⟩,
    List.forall_mem_append.mpr ⟨read.declared, other.declared⟩,
    ⟨.branched rfl (List.forall_mem_cons.mpr ⟨plain, List.forall_mem_singleton.mpr plain'⟩),
      .plain rfl nofun⟩,
    tested.each, read.each, other.each⟩

end Branches

/-- The body of a loop with its increment. The increment stands before the body in the text, but
neither declares anything. -/
theorem withIncrement {body : Stmt Unit} {increment : Option (Expr Unit)}
    (step : ∀ expr, increment = some expr → expr.Read clean low high)
    (read : body.Read clean low high) (plain : body.declared? = none) :
    (body.withIncrement increment).Read clean low high ∧
      (body.withIncrement increment).declared? = none := by
  cases increment with
  | none => exact ⟨read, plain⟩
  | some increment =>
      have last := expression (step increment rfl)
      refine ⟨block ⟨?_, List.pairwise_pair.mpr ?_⟩, rfl⟩
      · exact List.forall_mem_cons.mpr ⟨read, List.forall_mem_singleton.mpr last⟩
      · rw [plain]
        nofun

/-- The loop with three clauses. -/
theorem forLoop {init : Option (Stmt Unit)} {cond increment : Option (Expr Unit)}
    {body : Stmt Unit} (first : ∀ stmt, init = some stmt → stmt.Read clean low mid)
    (test : ∀ expr, cond = some expr → expr.Read clean mid high)
    (step : ∀ expr, increment = some expr → expr.Read clean mid high)
    (read : body.Read clean mid high) (plain : body.declared? = none) (lower : low ≤ mid)
    (higher : mid ≤ high) :
    (Stmt.forLoop init cond increment body).Read clean low high ∧
      (Stmt.forLoop init cond increment body).declared? = none := by
  obtain ⟨inner, innerPlain⟩ := withIncrement step read plain
  have tested : (cond.getD (.literal (.bool true))).Read clean mid high := by
    cases cond with
    | none => exact .plain rfl fun _ => Nat.zero_le _
    | some expr => exact test expr rfl
  have loop := while_ tested inner innerPlain
  cases init with
  | none => exact ⟨loop.mono lower (Nat.le_refl high), rfl⟩
  | some stmt =>
      have single := BodyRead.nil.push (first stmt rfl) (Nat.le_refl low) lower
      exact ⟨block (single.push loop lower higher), rfl⟩

end Stmt.Read

/-! ### Rules -/

theorem Symbol.Read.named {token : Token}
    (read : Symbol.Read clean low high (.terminal .name) token) : token.Named low high := by
  obtain ⟨kind, spelled, within⟩ := read nofun
  exact ⟨spelled.name kind, within⟩

/-- What holds of the elements of an array and of one more holds of all of them. -/
theorem forall_mem_push {α : Type} {holds : α → Prop} {front : Array α} {last : α}
    (all : ∀ item ∈ front.toList, holds item) (one : holds last) :
    ∀ item ∈ (front.push last).toList, holds item := by
  rw [Array.toList_push]
  exact List.forall_mem_append.mpr ⟨all, List.forall_mem_singleton.mpr one⟩

theorem ArgumentsRead.push {args : Array (Expr Unit)} {arg : Expr Unit}
    (front : ArgumentsRead clean low high args.toList) (last : arg.Read clean low high)
    (limit : clean → args.size < maxArguments) :
    ArgumentsRead clean low high (args.push arg).toList := by
  refine ⟨forall_mem_push front.each last, fun quiet => ?_⟩
  rw [Array.toList_push, List.length_append, Array.length_toList]
  exact limit quiet

/-- The rules for statements. None of them declares anything. -/
theorem node_read_statement {rule : Rule} (makes : rule.lhs = .statement)
    {values : Values Symbol.Tree rule.rhs} (read : Values.Read clean rule.rhs values low high) :
    Nonterminal.Read clean low high rule.lhs (Tree.node rule values) := by
  cases rule with
  | expression =>
      obtain ⟨value, _⟩ := read.each
      exact ⟨.expression value, rfl⟩
  | print =>
      obtain ⟨_, value, _⟩ := read.each
      exact ⟨.print _ value, rfl⟩
  | returnNothing => exact ⟨.return_ _ nofun, rfl⟩
  | returnValue =>
      obtain ⟨_, value, _⟩ := read.each
      refine ⟨.return_ _ ?_, rfl⟩
      rintro expr ⟨⟩
      exact value
  | ofBlock =>
      obtain ⟨body, _⟩ := read.each
      exact ⟨.block body, rfl⟩
  | ifThen =>
      obtain ⟨_, _, cond, _, ⟨yes, plain⟩, _⟩ := read.each
      exact ⟨.ifThen cond yes plain, rfl⟩
  | ifElse =>
      obtain ⟨_, _, cond, _, ⟨yes, plain⟩, _, ⟨no, plain'⟩, _⟩ := read.each
      exact ⟨.ifElse cond yes plain no plain', rfl⟩
  | whileLoop =>
      obtain ⟨_, _, cond, _, ⟨body, plain⟩, _⟩ := read.each
      exact ⟨.while_ cond body plain, rfl⟩
  | forLoop =>
      -- The other clauses stand behind the initializer, which may declare a variable.
      obtain ⟨mid, lower, init, rest⟩ := read.tail.tail
      obtain ⟨cond, step, ⟨body, plain⟩, _⟩ := rest.each
      exact Stmt.Read.forLoop init cond step body plain lower rest.le
  | _ => cases makes

/-- The rules for expressions. -/
theorem node_read_expr {rule : Rule} (makes : rule.lhs = .expr)
    {values : Values Symbol.Tree rule.rhs} (read : Values.Read clean rule.rhs values low high) :
    Nonterminal.Read clean low high rule.lhs (Tree.node rule values) := by
  have few : clean → 0 ≤ maxArguments := fun _ => Nat.zero_le _
  cases rule with
  | binary op =>
      obtain ⟨left, _, right, _⟩ := read.each
      exact Expr.Read.binary left right op _
  | unary sign =>
      obtain ⟨_, right, _⟩ := read.each
      exact Expr.Read.around right rfl fun each => ⟨few, each⟩
  | call =>
      obtain ⟨callee, _, args, _⟩ := read.each
      exact Expr.Read.call callee args _
  | get =>
      obtain ⟨object, _⟩ := read.each
      exact Expr.Read.around object rfl fun each => ⟨few, each⟩
  | grouping =>
      obtain ⟨_, inner, _⟩ := read.each
      exact Expr.Read.around inner rfl fun each => ⟨few, each⟩
  | variable_ =>
      obtain ⟨name, _⟩ := read.each
      obtain ⟨proper, within⟩ := name.named
      exact .one rfl few proper within
  | number | string | true_ | false_ | nil_ => exact .plain rfl few
  | this =>
      obtain ⟨keyword, _⟩ := read.each
      obtain ⟨kind, spelled, within⟩ := keyword nofun
      exact .one rfl few (spelled.this kind) within
  | super =>
      obtain ⟨keyword, _⟩ := read.each
      obtain ⟨kind, spelled, within⟩ := keyword nofun
      exact .one rfl few (spelled.super kind) within
  | _ => cases makes

/-- The rules for classes, functions and variables. What is inside of them stands behind their
names. -/
theorem node_read_declared {rule : Rule}
    (makes : rule.lhs = .classDecl ∨ rule.lhs = .funDecl ∨ rule.lhs = .varDecl)
    {values : Values Symbol.Tree rule.rhs} (read : Values.Read clean rule.rhs values low high) :
    Nonterminal.Read clean low high rule.lhs (Tree.node rule values) := by
  cases rule with
  | classDecl =>
      obtain ⟨mid, lower, name, rest⟩ := read.tail
      obtain ⟨parent, _, methods, _⟩ := rest.each
      exact Stmt.Read.class_ name.named parent methods lower rest.le
  | funDecl =>
      obtain ⟨_, ⟨mid, lower, higher, name, decl⟩, _⟩ := read.each
      exact Stmt.Read.function name decl lower higher
  | varPlain =>
      obtain ⟨mid, lower, name, rest⟩ := read.tail
      exact Stmt.Read.var name.named nofun lower rest.le
  | varInit =>
      obtain ⟨mid, lower, name, rest⟩ := read.tail
      obtain ⟨_, init, _⟩ := rest.each
      refine Stmt.Read.var name.named ?_ lower rest.le
      rintro expr ⟨⟩
      exact init
  | _ => rcases makes with makes | makes | makes <;> cases makes

/-- The rule for what a function consists of: its name, its parameters and its body. -/
theorem node_read_function {values : Values Symbol.Tree Rule.function.rhs}
    (read : Values.Read clean Rule.function.rhs values low high)
    (quiet : clean → Tree.objections .function values = []) :
    Nonterminal.Read clean low high .function (Tree.node .function values) := by
  obtain ⟨mid, lower, name, rest⟩ := read
  obtain ⟨last, inner, params, body⟩ := rest.tail
  refine ⟨mid, lower, rest.le, name.named, ?_⟩
  refine Function.Read.of_body params body.each.2.1 inner body.le fun clean => ?_
  exact List.drop_eq_nil_iff.mp (List.map_eq_nil_iff.mp (quiet clean))

/-- **What a rule makes of what was read was read**, whichever the rule. -/
theorem node_read (rule : Rule) (values : Values Symbol.Tree rule.rhs)
    (read : Values.Read clean rule.rhs values low high)
    (quiet : clean → Tree.objections rule values = []) :
    Nonterminal.Read clean low high rule.lhs (Tree.node rule values) := by
  cases rule with
  | program | someParams | someArguments => exact read.each.1
  | block => exact read.each.2.1
  | noStatements => exact BodyRead.nil
  | moreStatements =>
      obtain ⟨body, declaration, _⟩ := values
      obtain ⟨mid, lower, front, rest⟩ := read
      cases declaration with
      | none => exact BodyRead.mono (Nat.le_refl low) rest.le front
      | some stmt => exact BodyRead.push_array front (rest.each.1 stmt rfl) lower rest.le
  | ofClass | ofFun | ofVar | initVar | someCond | someStep =>
      rintro found ⟨⟩
      exact read.each.1
  | ofStatement =>
      rintro found ⟨⟩
      exact read.each.1.1
  | initExpr =>
      rintro stmt ⟨⟩
      exact .expression read.each.1
  | skipped | noInit | noSuperclass | noCond | noStep => rintro _ ⟨⟩
  | superclass =>
      rintro found ⟨⟩
      exact read.each.2.1.named
  | classDecl => exact node_read_declared (.inl rfl) read
  | funDecl => exact node_read_declared (.inr (.inl rfl)) read
  | varPlain | varInit => exact node_read_declared (.inr (.inr rfl)) read
  | function => exact node_read_function read quiet
  | noMethods | noParams => exact List.forall_mem_nil _
  | moreMethods =>
      obtain ⟨front, ⟨mid, lower, _, _, last⟩, _⟩ := read.each
      exact forall_mem_push front (last.mono lower (Nat.le_refl high))
  | firstParam => exact List.forall_mem_singleton.mpr read.each.1.named
  | moreParams =>
      obtain ⟨front, _, last, _⟩ := read.each
      exact forall_mem_push front last.named
  | expression | print | returnNothing | returnValue | ofBlock | ifThen | ifElse | whileLoop
  | forLoop => exact node_read_statement rfl read
  | binary | unary | call | get | grouping | variable_ | number | string | true_ | false_ | nil_
  | this | super => exact node_read_expr rfl read
  | noArguments => exact ⟨List.forall_mem_nil _, fun _ => Nat.zero_le _⟩
  | firstArgument =>
      exact ⟨List.forall_mem_singleton.mpr read.each.1, fun _ => show 1 ≤ maxArguments by decide⟩
  | moreArguments =>
      obtain ⟨args, comma, arg, _⟩ := values
      obtain ⟨front, _, last, _⟩ := read.each
      refine ArgumentsRead.push front last fun clean => Nat.lt_of_not_le fun many => ?_
      have objected : (if maxArguments ≤ Array.size args then [(comma, Objection.tooManyArguments)]
        else []) = [] := quiet clean
      rw [if_pos many] at objected
      exact absurd objected nofun

/-! ### Derivations -/

/-- Tokens that fill a stretch of a text, as scanning makes them. -/
structure Fills (low high : Nat) (tokens : List Token) : Prop where
  le : low ≤ high
  within : ∀ token ∈ tokens, token.Within low high
  increasing : tokens.Pairwise (·.offset < ·.offset)
  spelled : ∀ token ∈ tokens, token.Spelled

/-- A stretch can be cut between any two tokens. -/
theorem Fills.cut {front rest : List Token} (filled : Fills low high (front ++ rest)) :
    ∃ mid, Fills low mid front ∧ Fills mid high rest := by
  obtain ⟨le, within, increasing, spelled⟩ := filled
  obtain ⟨first, second⟩ := List.forall_mem_append.mp within
  obtain ⟨spelledFront, spelledRest⟩ := List.forall_mem_append.mp spelled
  obtain ⟨inFront, inRest, across⟩ := List.pairwise_append.mp increasing
  cases rest with
  | nil =>
      exact ⟨high, ⟨le, first, inFront, spelledFront⟩,
        ⟨Nat.le_refl high, List.forall_mem_nil _, inRest, spelledRest⟩⟩
  | cons token more =>
      obtain ⟨least, upper⟩ := second token List.mem_cons_self
      refine ⟨token.offset, ⟨least, ?_, inFront, spelledFront⟩,
        ⟨Nat.le_of_lt upper, ?_, inRest, spelledRest⟩⟩
      · exact fun other member =>
          ⟨(first other member).1, across other member token List.mem_cons_self⟩
      · refine List.forall_mem_cons.mpr ⟨⟨Nat.le_refl _, upper⟩, fun other member => ?_⟩
        exact ⟨Nat.le_of_lt (List.rel_of_pairwise_cons inRest member),
          (second other (List.mem_cons_of_mem _ member)).2⟩

mutual

/-- **What a derivation stands for was read from the stretch that it yields.** -/
theorem Derivation.read : {symbol : Symbol} → {low high : Nat} →
    (derivation : Derivation symbol) → derivation.Accounted trees clean →
    Fills low high derivation.yield → Symbol.Read clean low high symbol (derivation.value trees)
  | _, _, _, .leaf kind token, accounted, filled => by
    intro inside
    rw [Derivation.yield, if_neg inside] at filled
    exact ⟨accounted.1.resolve_left inside, filled.spelled token (List.mem_singleton_self _),
      filled.within token (List.mem_singleton_self _)⟩
  | _, _, _, .node rule parts, accounted, filled =>
    node_read rule (parts.values trees) (Derivations.read parts accounted.2 filled) accounted.1

theorem Derivations.read : {shape : List Symbol} → {low high : Nat} →
    (parts : Derivations shape) → parts.Accounted trees clean →
    Fills low high parts.yield → Values.Read clean shape (parts.values trees) low high
  | _, _, _, .nil, _, filled => filled.le
  | _, _, _, .cons first rest, accounted, filled => by
    obtain ⟨mid, front, back⟩ := filled.cut
    exact ⟨mid, front.le, Derivation.read first accounted.1 front,
      Derivations.read rest accounted.2 back⟩

end

end Lox
