/-
**Violations.** What may be read but must not stand where it does.

* `Occurs` says where statements stand: which functions, methods and classes are around them
  (`Surrounding`), the innermost first.
* `Offends` says what is wrong with a statement at its place: returns, uses of `this` and `super`,
  superclasses, and the declarations of the scopes that it opens (`Misdeclares`).
* `Violates` collects what is wrong anywhere in a tree.
* `Stmt.objections` finds the same by a walk that knows the names of the scope so far:
  `mem_objectionsIn`.
-/

import Lox.Proofs.Trees

namespace Lox

variable {ρ : Type}

/-! ### Places -/

/-- What can stand around a statement. -/
inductive Surrounding (ρ : Type) where
  | function (decl : Function ρ)
  | method (decl : Function ρ)
  | class_ (superclass : Option (Reference ρ))

namespace Surrounding

/-- Functions and methods. -/
def isRoutine : Surrounding ρ → Bool
  | function _ | method _ => true
  | class_ _ => false

/-- The superclass of a class, if the frame is one. -/
def class? : Surrounding ρ → Option (Option (Reference ρ))
  | function _ | method _ => none
  | class_ superclass => some superclass

end Surrounding

/-- The nearest function or method around a place. -/
def nearestRoutine (frames : List (Surrounding ρ)) : Option (Surrounding ρ) :=
  frames.find? Surrounding.isRoutine

/-- The superclass of the nearest class around a place. -/
def nearestClass (frames : List (Surrounding ρ)) : Option (Option (Reference ρ)) :=
  frames.findSome? Surrounding.class?

/-- The statements directly inside a statement, with what stands around them. -/
def Stmt.parts (frames : List (Surrounding ρ)) :
    Stmt ρ → List (List (Surrounding ρ) × List (Stmt ρ))
  | .block body => [(frames, body)]
  | .function decl => [(.function decl :: frames, decl.body)]
  | .class_ _ superclass methods =>
    methods.map fun decl => (.method decl :: .class_ superclass :: frames, decl.body)
  | .ifThen _ yes => [(frames, [yes])]
  | .ifElse _ yes no => [(frames, [yes, no])]
  | .while_ _ body => [(frames, [body])]
  | .expression _ | .print _ _ | .return_ _ _ | .var _ _ => []

/-- A statement stands somewhere in statements, with the given frames around it. -/
inductive Occurs (around : List (Surrounding ρ)) (body : List (Stmt ρ)) :
    List (Surrounding ρ) → Stmt ρ → Prop
  | here {stmt : Stmt ρ} (member : stmt ∈ body) : Occurs around body around stmt
  | inside {frames inner : List (Surrounding ρ)} {outer stmt : Stmt ρ} {part : List (Stmt ρ)}
      (occurs : Occurs around body frames outer) (listed : (inner, part) ∈ outer.parts frames)
      (member : stmt ∈ part) : Occurs around body inner stmt

/-! ### Offences -/

/-- The references in the expressions that belong to a statement itself. -/
def Stmt.ownReferences : Stmt ρ → List (Use × Reference ρ)
  | .expression value | .print _ value | .ifThen value _ | .ifElse value _ _ | .while_ value _ =>
    value.references
  | .return_ _ value | .var _ value => optionalReferences value
  | .block _ | .function _ | .class_ _ _ _ => []

/-- The local scopes that a statement opens: their parameters and their statements. -/
def Stmt.scopes : Stmt ρ → List (List Token × List (Stmt ρ))
  | .block body => [([], body)]
  | .function decl => [(decl.params, decl.body)]
  | .class_ _ _ methods => methods.map fun decl => (decl.params, decl.body)
  | .expression _ | .ifThen _ _ | .ifElse _ _ _ | .print _ _ | .return_ _ _ | .var _ _
  | .while_ _ _ => []

/-- A use of `this` or `super` that has no class, or none with a superclass, around it. -/
inductive Misuses (frames : List (Surrounding ρ)) : Use → Violation → Prop
  | thisOutside (outside : nearestClass frames = none) : Misuses frames .this .thisOutside
  | superOutside (outside : nearestClass frames = none) : Misuses frames .super .superOutside
  | superWithoutSuperclass (plain : nearestClass frames = some none) :
      Misuses frames .super .superWithoutSuperclass

/-- A local scope declares a name that it declared before, or reads a variable in the initializer of
that variable. -/
inductive Misdeclares (params : List Token) (body : List (Stmt ρ)) : Token → Violation → Prop
  | redeclared {before after : List Token} {earlier token : Token}
      (declared : params ++ body.filterMap Stmt.declared? = before ++ token :: after)
      (member : earlier ∈ before) (same : earlier.lexeme = token.lexeme) :
      Misdeclares params body token .redeclared
  | ownInitializer {name : Token} {init : Expr ρ} {reference : Reference ρ}
      (member : .var name (some init) ∈ body) (read : (.read, reference) ∈ init.references)
      (same : reference.token.lexeme = name.lexeme) :
      Misdeclares params body reference.token .ownInitializer

/-- What is wrong with a statement where it stands. -/
inductive Offends (frames : List (Surrounding ρ)) : Stmt ρ → Token → Violation → Prop
  | topLevelReturn {keyword : Token} {value : Option (Expr ρ)}
      (outside : nearestRoutine frames = none) :
      Offends frames (.return_ keyword value) keyword .topLevelReturn
  | initializerReturn {keyword : Token} {value : Expr ρ} {decl : Function ρ}
      (inside : nearestRoutine frames = some (.method decl))
      (named : decl.name.lexeme = initName) :
      Offends frames (.return_ keyword (some value)) keyword .initializerReturn
  | selfInheritance {name : Token} {superclass : Reference ρ} {methods : List (Function ρ)}
      (same : superclass.token.lexeme = name.lexeme) :
      Offends frames (.class_ name (some superclass) methods) superclass.token .selfInheritance
  | use {stmt : Stmt ρ} {use : Use} {reference : Reference ρ} {violation : Violation}
      (member : (use, reference) ∈ stmt.ownReferences) (misuses : Misuses frames use violation) :
      Offends frames stmt reference.token violation
  | scope {stmt : Stmt ρ} {params : List Token} {body : List (Stmt ρ)} {token : Token}
      {violation : Violation} (opened : (params, body) ∈ stmt.scopes)
      (misdeclares : Misdeclares params body token violation) :
      Offends frames stmt token violation

/-- Something is wrong at a token somewhere in statements with the given frames around them. -/
def Violates (around : List (Surrounding ρ)) (body : List (Stmt ρ)) (token : Token)
    (violation : Violation) : Prop :=
  ∃ frames stmt, Occurs around body frames stmt ∧ Offends frames stmt token violation

/-! ### Violations by parts -/

theorem Occurs.trans {around frames inner : List (Surrounding ρ)} {body part : List (Stmt ρ)}
    {outer stmt : Stmt ρ} {final : List (Surrounding ρ)} (occurs : Occurs around body frames outer)
    (listed : (inner, part) ∈ outer.parts frames) (deeper : Occurs inner part final stmt) :
    Occurs around body final stmt := by
  induction deeper with
  | here member => exact .inside occurs listed member
  | inside _ listed member ih => exact .inside ih listed member

/-- What occurs in statements is one of them, or occurs inside one. -/
theorem occurs_iff {around frames : List (Surrounding ρ)} {body : List (Stmt ρ)} {stmt : Stmt ρ} :
    Occurs around body frames stmt ↔ ∃ top ∈ body, (frames = around ∧ stmt = top) ∨
      ∃ part ∈ top.parts around, Occurs part.1 part.2 frames stmt := by
  constructor
  · intro occurs
    induction occurs with
    | here member => exact ⟨_, member, .inl ⟨rfl, rfl⟩⟩
    | inside _ listed member ih =>
        obtain ⟨top, atTop, ⟨rfl, rfl⟩ | ⟨part, listedAbove, deeper⟩⟩ := ih
        · exact ⟨_, atTop, .inr ⟨_, listed, .here member⟩⟩
        · exact ⟨top, atTop, .inr ⟨part, listedAbove, .inside deeper listed member⟩⟩
  · rintro ⟨top, member, ⟨rfl, rfl⟩ | ⟨part, listed, deeper⟩⟩
    · exact .here member
    · exact .trans (.here member) listed deeper

/-- What is wrong in statements is wrong with one of them, or inside one. -/
theorem violates_iff {around : List (Surrounding ρ)} {body : List (Stmt ρ)} {token : Token}
    {violation : Violation} : Violates around body token violation ↔
      ∃ stmt ∈ body, Offends around stmt token violation ∨
        ∃ part ∈ stmt.parts around, Violates part.1 part.2 token violation := by
  constructor
  · rintro ⟨frames, stmt, occurs, offends⟩
    obtain ⟨top, member, ⟨rfl, rfl⟩ | ⟨part, listed, deeper⟩⟩ := occurs_iff.mp occurs
    · exact ⟨_, member, .inl offends⟩
    · exact ⟨top, member, .inr ⟨part, listed, frames, stmt, deeper, offends⟩⟩
  · rintro ⟨stmt, member, offends | ⟨part, listed, frames, inner, deeper, offends⟩⟩
    · exact ⟨around, stmt, .here member, offends⟩
    · exact ⟨frames, inner, occurs_iff.mpr ⟨stmt, member, .inr ⟨part, listed, deeper⟩⟩, offends⟩

/-! ### The walk -/

/-- The nearest function around a place, in the terms of resolution. -/
def routineOf (frames : List (Surrounding ρ)) : Enclosing.Routine :=
  match nearestRoutine frames with
  | some (.function _) => .function
  | some (.method decl) => methodRoutine decl.name
  | _ => .none

/-- The nearest class around a place, in the terms of resolution. -/
def classOf (frames : List (Surrounding ρ)) : Enclosing.Class :=
  match nearestClass frames with
  | none => .none
  | some none => .plain
  | some (some _) => .derived

/-- What is wrong with a reference, in the nearest class and in the initializer of a local
variable. -/
def useObjections (class_ : Enclosing.Class) (initialized : Option String) :
    Use × Reference ρ → List (Token × Violation)
  | (.read, reference) =>
    if initialized = some reference.token.lexeme then [(reference.token, .ownInitializer)] else []
  | (.assign, _) => []
  | (.this, reference) => if class_ = .none then [(reference.token, .thisOutside)] else []
  | (.super, reference) =>
    (if class_ = .none then [(reference.token, .superOutside)] else []) ++
      (if class_ = .plain then [(reference.token, .superWithoutSuperclass)] else [])

/-- What is wrong with references. -/
def usesObjections (frames : List (Surrounding ρ)) (initialized : Option String)
    (references : List (Use × Reference ρ)) : List (Token × Violation) :=
  references.flatMap (useObjections (classOf frames) initialized)

/-- What is wrong with a declaration in a local scope that has some names already. -/
def again (known : List Token) (name : Token) : List (Token × Violation) :=
  if ∃ earlier ∈ known, earlier.lexeme = name.lexeme then [(name, .redeclared)] else []

/-- What is wrong with declarations in a local scope, one after the other. -/
def repeats (known : List Token) : List Token → List (Token × Violation)
  | [] => []
  | name :: more => again known name ++ repeats (known ++ [name]) more

/-- What is wrong with a return. -/
def returnObjections (routine : Enclosing.Routine) (keyword : Token) (valued : Bool) :
    List (Token × Violation) :=
  (if routine = .none then [(keyword, .topLevelReturn)] else []) ++
    (if valued = true ∧ routine = .initializer then [(keyword, .initializerReturn)] else [])

/-- What is wrong with a superclass. -/
def inheritsObjections (name : Token) : Option (Reference ρ) → List (Token × Violation)
  | none => []
  | some superclass =>
    if superclass.token.lexeme = name.lexeme then [(superclass.token, .selfInheritance)] else []

mutual

/-- What is wrong in a statement, by a walk through it. The names are those that the local scope
around it has so far; at top level there is none. -/
def Stmt.objections (frames : List (Surrounding ρ)) (names : Option (List Token)) :
    Stmt ρ → List (Token × Violation)
  | .block body => objectionsIn frames (some []) body
  | .function decl =>
    (names.elim [] fun known => again known decl.name) ++
      decl.objections (.function decl :: frames)
  | .class_ name superclass methods =>
    (names.elim [] fun known => again known name) ++ inheritsObjections name superclass ++
      methodObjections (.class_ superclass :: frames) methods
  | .expression value | .print _ value => usesObjections frames none value.references
  | .ifThen cond yes => usesObjections frames none cond.references ++ yes.objections frames none
  | .ifElse cond yes no =>
    usesObjections frames none cond.references ++ yes.objections frames none ++
      no.objections frames none
  | .return_ keyword value =>
    returnObjections (routineOf frames) keyword value.isSome ++
      usesObjections frames none (optionalReferences value)
  | .var name init =>
    (names.elim [] fun known => again known name) ++
      usesObjections frames (names.map fun _ => name.lexeme) (optionalReferences init)
  | .while_ cond body =>
    usesObjections frames none cond.references ++ body.objections frames none

/-- What is wrong in statements, one after the other. -/
def objectionsIn (frames : List (Surrounding ρ)) (names : Option (List Token)) :
    List (Stmt ρ) → List (Token × Violation)
  | [] => []
  | stmt :: more =>
    stmt.objections frames names ++
      objectionsIn frames (names.map (· ++ stmt.declared?.toList)) more

/-- What is wrong in a function. -/
def Function.objections (frames : List (Surrounding ρ)) : Function ρ → List (Token × Violation)
  | .mk _ params body => repeats [] params ++ objectionsIn frames (some params) body

/-- What is wrong in the methods of a class. -/
def methodObjections (frames : List (Surrounding ρ)) : List (Function ρ) → List (Token × Violation)
  | [] => []
  | method :: more =>
    method.objections (.method method :: frames) ++ methodObjections frames more

end

/-! ### The walk finds the violations -/

theorem mem_again {known : List Token} {name token : Token} {violation : Violation} :
    (token, violation) ∈ again known name ↔ token = name ∧ violation = .redeclared ∧
      ∃ earlier ∈ known, earlier.lexeme = name.lexeme := by
  unfold again
  split <;> rename_i found
  · simp [found]
  · simp [found]

theorem repeats_append (known first second : List Token) :
    repeats known (first ++ second) = repeats known first ++ repeats (known ++ first) second := by
  induction first generalizing known with
  | nil => simp [repeats]
  | cons name more ih => simp [repeats, ih]

/-- A declaration repeats an earlier one of its scope. -/
theorem mem_repeats {known names : List Token} {token : Token} {violation : Violation} :
    (token, violation) ∈ repeats known names ↔ violation = .redeclared ∧
      ∃ before after, names = before ++ token :: after ∧
        ∃ earlier ∈ known ++ before, earlier.lexeme = token.lexeme := by
  induction names generalizing known with
  | nil => simp [repeats]
  | cons name more ih =>
      rw [repeats, List.mem_append, mem_again, ih]
      constructor
      · rintro (⟨rfl, rfl, earlier⟩ | ⟨rfl, before, after, rfl, earlier⟩)
        · exact ⟨rfl, [], more, rfl, by simpa using earlier⟩
        · exact ⟨rfl, name :: before, after, rfl, by simpa using earlier⟩
      · rintro ⟨rfl, before, after, split, earlier⟩
        cases before with
        | nil =>
            obtain ⟨rfl, rfl⟩ := List.cons.inj split
            exact .inl ⟨rfl, rfl, by simpa using earlier⟩
        | cons first before =>
            obtain ⟨rfl, rfl⟩ := List.cons.inj split
            exact .inr ⟨rfl, before, after, rfl, by simpa using earlier⟩

/-- A variable is read in its own initializer by one of the statements of a scope. -/
def ReadsItself (body : List (Stmt ρ)) (token : Token) : Prop :=
  ∃ name init reference, .var name (some init) ∈ body ∧ (.read, reference) ∈ init.references ∧
    reference.token.lexeme = name.lexeme ∧ reference.token = token

theorem misdeclares_iff {params : List Token} {body : List (Stmt ρ)} {token : Token}
    {violation : Violation} : Misdeclares params body token violation ↔
      (token, violation) ∈ repeats [] (params ++ body.filterMap Stmt.declared?) ∨
      violation = .ownInitializer ∧ ReadsItself body token := by
  rw [mem_repeats]
  constructor
  · intro misdeclares
    cases misdeclares with
    | redeclared declared member same => exact .inl ⟨rfl, _, _, declared, _, member, same⟩
    | ownInitializer member read same => exact .inr ⟨rfl, _, _, _, member, read, same, rfl⟩
  · rintro (⟨rfl, before, after, declared, earlier, member, same⟩ |
      ⟨rfl, name, init, reference, member, read, same, rfl⟩)
    · exact .redeclared declared member same
    · exact .ownInitializer member read same

theorem classOf_eq_none {frames : List (Surrounding ρ)} :
    classOf frames = .none ↔ nearestClass frames = none := by
  unfold classOf
  split <;> rename_i found <;> simp [found]

theorem classOf_eq_plain {frames : List (Surrounding ρ)} :
    classOf frames = .plain ↔ nearestClass frames = some none := by
  unfold classOf
  split <;> rename_i found <;> simp [found]

theorem mem_useObjections {frames : List (Surrounding ρ)} {initialized : Option String} {use : Use}
    {reference : Reference ρ} {token : Token} {violation : Violation} :
    (token, violation) ∈ useObjections (classOf frames) initialized (use, reference) ↔
      token = reference.token ∧ (Misuses frames use violation ∨
        violation = .ownInitializer ∧ use = .read ∧
          initialized = some reference.token.lexeme) := by
  cases use with
  | read =>
      have never : ¬ Misuses frames .read violation := by
        intro misuses
        cases misuses
      by_cases own : initialized = some reference.token.lexeme
      · simp [useObjections, own, never]
      · simp [useObjections, own, never]
  | assign =>
      have never : ¬ Misuses frames .assign violation := by
        intro misuses
        cases misuses
      simp [useObjections, never]
  | this =>
      have misuse : Misuses frames .this violation ↔
          nearestClass frames = none ∧ violation = .thisOutside := by
        constructor
        · rintro ⟨outside⟩
          exact ⟨outside, rfl⟩
        · rintro ⟨outside, rfl⟩
          exact .thisOutside outside
      by_cases outside : nearestClass frames = none
      · simp [useObjections, classOf_eq_none, misuse, outside]
      · simp [useObjections, classOf_eq_none, misuse, outside]
  | super =>
      have misuse : Misuses frames .super violation ↔
          nearestClass frames = none ∧ violation = .superOutside ∨
          nearestClass frames = some none ∧ violation = .superWithoutSuperclass := by
        constructor
        · rintro (_ | outside | plain)
          · exact .inl ⟨outside, rfl⟩
          · exact .inr ⟨plain, rfl⟩
        · rintro (⟨outside, rfl⟩ | ⟨plain, rfl⟩)
          · exact .superOutside outside
          · exact .superWithoutSuperclass plain
      by_cases outside : nearestClass frames = none
      · simp [useObjections, classOf_eq_none, classOf_eq_plain, misuse, outside]
      · by_cases plain : nearestClass frames = some none
        · simp [useObjections, classOf_eq_none, classOf_eq_plain, misuse, plain]
        · simp [useObjections, classOf_eq_none, classOf_eq_plain, misuse, outside, plain]

theorem mem_usesObjections {frames : List (Surrounding ρ)} {initialized : Option String}
    {references : List (Use × Reference ρ)} {token : Token} {violation : Violation} :
    (token, violation) ∈ usesObjections frames initialized references ↔
      (∃ use reference, (use, reference) ∈ references ∧ token = reference.token ∧
        Misuses frames use violation) ∨
      violation = .ownInitializer ∧ ∃ reference, (.read, reference) ∈ references ∧
        token = reference.token ∧ initialized = some reference.token.lexeme := by
  rw [usesObjections, List.mem_flatMap]
  constructor
  · rintro ⟨⟨use, reference⟩, member, found⟩
    obtain ⟨same, misuses | ⟨rfl, rfl, own⟩⟩ := mem_useObjections.mp found
    · exact .inl ⟨use, reference, member, same, misuses⟩
    · exact .inr ⟨rfl, reference, member, same, own⟩
  · rintro (⟨use, reference, member, same, misuses⟩ | ⟨rfl, reference, member, same, own⟩)
    · exact ⟨(use, reference), member, mem_useObjections.mpr ⟨same, .inl misuses⟩⟩
    · exact ⟨(.read, reference), member, mem_useObjections.mpr ⟨same, .inr ⟨rfl, rfl, own⟩⟩⟩

theorem routineOf_eq_none {frames : List (Surrounding ρ)} :
    routineOf frames = .none ↔ nearestRoutine frames = none := by
  unfold routineOf
  cases found : nearestRoutine frames with
  | none => simp
  | some frame =>
      cases frame with
      | function decl => simp
      | method decl =>
          simp only [methodRoutine]
          split <;> simp
      | class_ superclass => exact absurd (List.find?_some found) Bool.noConfusion

theorem routineOf_eq_initializer {frames : List (Surrounding ρ)} :
    routineOf frames = .initializer ↔ ∃ decl : Function ρ,
      nearestRoutine frames = some (.method decl) ∧ decl.name.lexeme = initName := by
  unfold routineOf
  cases found : nearestRoutine frames with
  | none => simp
  | some frame =>
      cases frame with
      | function decl => simp
      | method decl =>
          simp only [methodRoutine, Option.some.injEq, Surrounding.method.injEq, exists_eq_left']
          split <;> rename_i named
          · exact iff_of_true rfl named
          · exact iff_of_false Enclosing.Routine.noConfusion named
      | class_ superclass => simp

theorem mem_returnObjections {frames : List (Surrounding ρ)} {keyword token : Token} {valued : Bool}
    {violation : Violation} :
    (token, violation) ∈ returnObjections (routineOf frames) keyword valued ↔ token = keyword ∧
      (violation = .topLevelReturn ∧ nearestRoutine frames = none ∨
        violation = .initializerReturn ∧ valued = true ∧ ∃ decl : Function ρ,
          nearestRoutine frames = some (.method decl) ∧ decl.name.lexeme = initName) := by
  rw [← routineOf_eq_none, ← routineOf_eq_initializer, returnObjections, List.mem_append,
    and_or_left]
  refine or_congr ?_ ?_
  · by_cases outside : routineOf frames = .none
    · simp [outside]
    · simp [outside]
  · by_cases inside : valued = true ∧ routineOf frames = .initializer
    · simp [inside]
    · rw [if_neg inside]
      simp only [List.not_mem_nil, false_iff]
      exact fun found => inside found.2.2

/-- What is wrong with a statement itself, by what it consists of. -/
theorem offends_iff {frames : List (Surrounding ρ)} {stmt : Stmt ρ} {token : Token}
    {violation : Violation} : Offends frames stmt token violation ↔
      (∃ use reference, (use, reference) ∈ stmt.ownReferences ∧ token = reference.token ∧
        Misuses frames use violation) ∨
      (∃ scope ∈ stmt.scopes, Misdeclares scope.1 scope.2 token violation) ∨
      (∃ keyword value, stmt = .return_ keyword value ∧
        (token, violation) ∈ returnObjections (routineOf frames) keyword value.isSome) ∨
      ∃ name superclass methods, stmt = .class_ name superclass methods ∧
        (token, violation) ∈ inheritsObjections name superclass := by
  constructor
  · intro offends
    cases offends with
    | topLevelReturn outside =>
        refine .inr (.inr (.inl ⟨_, _, rfl, mem_returnObjections.mpr ⟨rfl, .inl ⟨rfl, outside⟩⟩⟩))
    | initializerReturn inside named =>
        refine .inr (.inr (.inl ⟨_, _, rfl, mem_returnObjections.mpr ⟨rfl, .inr ?_⟩⟩))
        exact ⟨rfl, rfl, _, inside, named⟩
    | selfInheritance same =>
        refine .inr (.inr (.inr ⟨_, _, _, rfl, ?_⟩))
        rw [inheritsObjections, if_pos same]
        exact List.mem_singleton_self _
    | use member misuses => exact .inl ⟨_, _, member, rfl, misuses⟩
    | scope opened misdeclares => exact .inr (.inl ⟨_, opened, misdeclares⟩)
  · rintro (⟨use, reference, member, rfl, misuses⟩ | ⟨scope, opened, misdeclares⟩ |
      ⟨keyword, value, rfl, found⟩ | ⟨name, superclass, methods, rfl, found⟩)
    · exact .use member misuses
    · exact .scope opened misdeclares
    · obtain ⟨rfl, ⟨rfl, outside⟩ | ⟨rfl, valued, decl, inside, named⟩⟩ :=
        mem_returnObjections.mp found
      · exact .topLevelReturn outside
      · obtain ⟨value, rfl⟩ := Option.isSome_iff_exists.mp valued
        exact .initializerReturn inside named
    · cases superclass with
      | none => exact absurd found List.not_mem_nil
      | some superclass =>
          rw [inheritsObjections] at found
          split at found <;> rename_i same
          · obtain ⟨rfl, rfl⟩ := Prod.mk.inj (List.mem_singleton.mp found)
            exact .selfInheritance same
          · exact absurd found List.not_mem_nil

/-- What is wrong with the declarations of a scope that has some names already. -/
def Muddles (known : List Token) (body : List (Stmt ρ)) (token : Token)
    (violation : Violation) : Prop :=
  (token, violation) ∈ repeats known (body.filterMap Stmt.declared?) ∨
    violation = .ownInitializer ∧ ReadsItself body token

theorem misdeclares_iff_muddles {params : List Token} {body : List (Stmt ρ)} {token : Token}
    {violation : Violation} : Misdeclares params body token violation ↔
      (token, violation) ∈ repeats [] params ∨ Muddles params body token violation := by
  rw [misdeclares_iff, repeats_append, List.mem_append, List.nil_append, or_assoc]
  rfl

theorem muddles_cons {known : List Token} {stmt : Stmt ρ} {more : List (Stmt ρ)} {token : Token}
    {violation : Violation} : Muddles known (stmt :: more) token violation ↔
      Muddles known [stmt] token violation ∨
        Muddles (known ++ stmt.declared?.toList) more token violation := by
  have reads : ReadsItself (stmt :: more) token ↔
      ReadsItself [stmt] token ∨ ReadsItself more token := by
    unfold ReadsItself
    constructor
    · rintro ⟨name, init, reference, member, read⟩
      rcases List.mem_cons.mp member with here | later
      · exact .inl ⟨name, init, reference, List.mem_singleton.mpr here, read⟩
      · exact .inr ⟨name, init, reference, later, read⟩
    · rintro (⟨name, init, reference, member, read⟩ | ⟨name, init, reference, member, read⟩)
      · exact ⟨name, init, reference, List.mem_cons.mpr (.inl (List.mem_singleton.mp member)), read⟩
      · exact ⟨name, init, reference, List.mem_cons_of_mem _ member, read⟩
  have declared : (stmt :: more).filterMap Stmt.declared? =
      [stmt].filterMap Stmt.declared? ++ more.filterMap Stmt.declared? := by
    rw [← List.filterMap_append]
    rfl
  have first : [stmt].filterMap Stmt.declared? = stmt.declared?.toList := by
    cases found : stmt.declared? <;> simp [found]
  unfold Muddles
  rw [reads, declared, repeats_append, List.mem_append, first, and_or_left, or_or_or_comm]

/-- A statement that declares nothing leaves the scope around it alone. -/
theorem muddles_of_undeclared {names : Option (List Token)} {stmt : Stmt ρ} {token : Token}
    {violation : Violation} {rest : Prop} (undeclared : stmt.declared? = none) :
    (∃ known, names = some known ∧ Muddles known [stmt] token violation) ∨ rest ↔ rest := by
  refine or_iff_right ?_
  rintro ⟨known, _, found | ⟨_, name, init, _, member, _⟩⟩
  · simp [undeclared, repeats] at found
  · rw [← List.mem_singleton.mp member] at undeclared
    cases undeclared

/-- A statement that declares a name and initializes nothing. -/
theorem muddles_of_declared {names : Option (List Token)} {stmt : Stmt ρ} {name token : Token}
    {violation : Violation} (declared : stmt.declared? = some name)
    (other : ∀ name init, stmt ≠ .var name init) :
    (∃ known, names = some known ∧ Muddles known [stmt] token violation) ↔
      (token, violation) ∈ names.elim [] fun known => again known name := by
  have quiet : ¬ ReadsItself [stmt] token := by
    rintro ⟨name, init, _, member, _⟩
    exact other _ _ (List.mem_singleton.mp member).symm
  cases names with
  | none => simp
  | some known => simp [Muddles, declared, repeats, quiet]

theorem muddles_var {names : Option (List Token)} {name token : Token} {init : Option (Expr ρ)}
    {violation : Violation} :
    (∃ known, names = some known ∧ Muddles known [.var name init] token violation) ↔
      (token, violation) ∈ (names.elim [] fun known => again known name) ∨
      violation = .ownInitializer ∧ ∃ reference, (.read, reference) ∈ optionalReferences init ∧
        token = reference.token ∧
        (names.map fun _ => name.lexeme) = some reference.token.lexeme := by
  cases names with
  | none => simp
  | some known =>
      have reads : ReadsItself [.var name init] token ↔
          ∃ reference, (.read, reference) ∈ optionalReferences init ∧ token = reference.token ∧
            name.lexeme = reference.token.lexeme := by
        constructor
        · rintro ⟨_, value, reference, member, read, same, rfl⟩
          obtain ⟨rfl, rfl⟩ := Stmt.var.inj (List.mem_singleton.mp member)
          exact ⟨reference, read, rfl, same.symm⟩
        · rintro ⟨reference, read, rfl, same⟩
          cases init with
          | none => exact absurd read List.not_mem_nil
          | some value =>
              exact ⟨name, value, reference, List.mem_singleton_self _, read, same.symm, rfl⟩
      simp only [Option.some.injEq, exists_eq_left', Option.elim_some, Option.map_some, Muddles,
        reads, List.filterMap_cons, List.filterMap_nil, Stmt.declared?, repeats, List.append_nil]

theorem violates_singleton {around : List (Surrounding ρ)} {stmt : Stmt ρ} {token : Token}
    {violation : Violation} : Violates around [stmt] token violation ↔
      Offends around stmt token violation ∨
        ∃ part ∈ stmt.parts around, Violates part.1 part.2 token violation := by
  rw [violates_iff]
  simp

theorem violates_cons {around : List (Surrounding ρ)} {stmt : Stmt ρ} {more : List (Stmt ρ)}
    {token : Token} {violation : Violation} : Violates around (stmt :: more) token violation ↔
      Violates around [stmt] token violation ∨ Violates around more token violation := by
  rw [violates_iff, violates_singleton, @violates_iff _ around more]
  simp only [List.mem_cons, exists_eq_or_imp]

theorem violates_nil {around : List (Surrounding ρ)} {token : Token} {violation : Violation} :
    ¬ Violates around ([] : List (Stmt ρ)) token violation := by
  rw [violates_iff]
  simp

mutual

/-- **The walk through a statement** finds what is wrong with it, what is wrong inside it, and what
is wrong with what it declares in the scope around it. -/
theorem Stmt.mem_objections {token : Token} {violation : Violation} (frames : List (Surrounding ρ))
    (names : Option (List Token)) : (stmt : Stmt ρ) →
    ((token, violation) ∈ stmt.objections frames names ↔
      (∃ known, names = some known ∧ Muddles known [stmt] token violation) ∨
        Violates frames [stmt] token violation)
  | .block body => by
    rw [muddles_of_undeclared rfl, violates_singleton, offends_iff, Stmt.objections,
      mem_objectionsIn frames (some []) body]
    simp [Stmt.ownReferences, Stmt.scopes, Stmt.parts, misdeclares_iff_muddles, repeats]
  | .function decl => by
    rw [muddles_of_declared rfl (by simp), violates_singleton, offends_iff, Stmt.objections,
      List.mem_append, decl.mem_objections]
    simp [Stmt.ownReferences, Stmt.scopes, Stmt.parts]
  | .class_ name superclass methods => by
    rw [muddles_of_declared rfl (by simp), violates_singleton, offends_iff, Stmt.objections,
      List.mem_append, List.mem_append, mem_methodObjections _ methods]
    constructor
    · rintro ((found | found) | ⟨decl, member, misdeclares | violates⟩)
      · exact .inl found
      · exact .inr (.inl (.inr (.inr (.inr ⟨_, _, _, rfl, found⟩))))
      · exact .inr (.inl (.inr (.inl ⟨_, List.mem_map_of_mem member, misdeclares⟩)))
      · exact .inr (.inr ⟨_, List.mem_map_of_mem member, violates⟩)
    · rintro (found | (⟨_, _, member, _⟩ | ⟨_, opened, misdeclares⟩ | ⟨_, _, same, _⟩ |
        ⟨_, _, _, same, found⟩) | ⟨_, listed, violates⟩)
      · exact .inl (.inl found)
      · exact absurd member List.not_mem_nil
      · obtain ⟨decl, member, rfl⟩ := List.mem_map.mp opened
        exact .inr ⟨decl, member, .inl misdeclares⟩
      · cases same
      · obtain ⟨rfl, rfl, rfl⟩ := Stmt.class_.inj same
        exact .inl (.inr found)
      · obtain ⟨decl, member, rfl⟩ := List.mem_map.mp listed
        exact .inr ⟨decl, member, .inr violates⟩
  | .expression value | .print _ value => by
    rw [muddles_of_undeclared rfl, violates_singleton, offends_iff, Stmt.objections,
      mem_usesObjections]
    simp [Stmt.ownReferences, Stmt.scopes, Stmt.parts]
  | .ifThen cond yes | .while_ cond yes => by
    rw [muddles_of_undeclared rfl, violates_singleton, offends_iff, Stmt.objections,
      List.mem_append, mem_usesObjections, Stmt.mem_objections frames none yes]
    simp [Stmt.ownReferences, Stmt.scopes, Stmt.parts]
  | .ifElse cond yes no => by
    rw [muddles_of_undeclared rfl, violates_singleton, offends_iff, Stmt.objections,
      List.mem_append, List.mem_append, mem_usesObjections, Stmt.mem_objections frames none yes,
      Stmt.mem_objections frames none no]
    simp [Stmt.ownReferences, Stmt.scopes, Stmt.parts, @violates_cons _ frames yes [no], or_assoc]
  | .return_ keyword value => by
    have own : (∃ keyword' value', Stmt.return_ keyword value = .return_ keyword' value' ∧
        (token, violation) ∈ returnObjections (routineOf frames) keyword' value'.isSome) ↔
        (token, violation) ∈ returnObjections (routineOf frames) keyword value.isSome := by
      constructor
      · rintro ⟨_, _, same, found⟩
        obtain ⟨rfl, rfl⟩ := Stmt.return_.inj same
        exact found
      · exact fun found => ⟨keyword, value, rfl, found⟩
    rw [muddles_of_undeclared rfl, violates_singleton, offends_iff, own, Stmt.objections,
      List.mem_append, mem_usesObjections, or_comm]
    simp [Stmt.ownReferences, Stmt.scopes, Stmt.parts]
  | .var name init => by
    rw [muddles_var, violates_singleton, offends_iff, Stmt.objections, List.mem_append,
      mem_usesObjections, @or_comm (∃ use reference, _), ← or_assoc]
    simp [Stmt.ownReferences, Stmt.scopes, Stmt.parts]

/-- **The walk through statements.** -/
theorem mem_objectionsIn {token : Token} {violation : Violation} (frames : List (Surrounding ρ))
    (names : Option (List Token)) : (body : List (Stmt ρ)) →
    ((token, violation) ∈ objectionsIn frames names body ↔
      (∃ known, names = some known ∧ Muddles known body token violation) ∨
        Violates frames body token violation)
  | [] => by
    simp [objectionsIn, Muddles, repeats, ReadsItself, violates_nil]
  | stmt :: more => by
    rw [objectionsIn, List.mem_append, Stmt.mem_objections frames names stmt,
      mem_objectionsIn frames _ more, @violates_cons _ frames stmt more]
    cases names with
    | none => simp
    | some known =>
        simp only [Option.map_some, Option.some.injEq, exists_eq_left', @muddles_cons _ _ stmt more]
        exact or_or_or_comm

theorem Function.mem_objections {token : Token} {violation : Violation}
    (frames : List (Surrounding ρ)) : (decl : Function ρ) →
    ((token, violation) ∈ decl.objections frames ↔
      Misdeclares decl.params decl.body token violation ∨
        Violates frames decl.body token violation)
  | .mk _ params body => by
    rw [Function.objections, List.mem_append, mem_objectionsIn frames (some params) body,
      misdeclares_iff_muddles]
    simp [Function.params, Function.body, or_assoc]

theorem mem_methodObjections {token : Token} {violation : Violation}
    (frames : List (Surrounding ρ)) : (methods : List (Function ρ)) →
    ((token, violation) ∈ methodObjections frames methods ↔
      ∃ decl ∈ methods, Misdeclares decl.params decl.body token violation ∨
        Violates (.method decl :: frames) decl.body token violation)
  | [] => by simp [methodObjections]
  | method :: more => by
    rw [methodObjections, List.mem_append, Function.mem_objections _ method,
      mem_methodObjections frames more]
    simp only [List.mem_cons, exists_eq_or_imp]

end

end Lox
