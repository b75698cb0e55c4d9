/-
**Mentions.** No token of a text is used twice.

* `Stmt.marks` are the tokens that names in a statement are made of, those that are declared and
  those that are used, and the keywords of returns. They are some of the tokens that the statement
  holds, in the same order (`Stmt.marks_sublist`).
* `parse_marks_nodup`: the marks of a text are told apart, whatever was skipped in it. So are its
  references (`parse_nodup`).
-/

import Lox.Proofs.Held

namespace Lox

variable {ρ : Type}

/-- The tokens that make references. -/
def mentioned (references : List (Use × Reference ρ)) : List Token :=
  references.map fun used => used.2.token

/-! ### Marks -/

mutual

/-- The tokens in a statement that names and returns are made of. -/
def Stmt.marks : Stmt ρ → List Token
  | .block body => marksIn body
  | .function decl => decl.name :: decl.marks
  | .class_ name superclass methods =>
    name :: (superclass.toList.map Reference.token ++ methodMarks methods)
  | .expression value | .print _ value => mentioned value.references
  | .ifThen cond branch | .while_ cond branch => mentioned cond.references ++ branch.marks
  | .ifElse cond yes no => mentioned cond.references ++ (yes.marks ++ no.marks)
  | .return_ token value | .var token value => token :: mentioned (optionalReferences value)

/-- The tokens in statements that names and returns are made of. -/
def marksIn : List (Stmt ρ) → List Token
  | [] => []
  | stmt :: more => stmt.marks ++ marksIn more

/-- The tokens in a function that names and returns are made of, but for its own name. -/
def Function.marks : Function ρ → List Token
  | .mk _ params body => params ++ marksIn body

/-- The tokens in the methods of a class that names and returns are made of. -/
def methodMarks : List (Function ρ) → List Token
  | [] => []
  | method :: more => method.marks ++ methodMarks more

end

theorem mentioned_append (first second : List (Use × Reference ρ)) :
    mentioned (first ++ second) = mentioned first ++ mentioned second :=
  List.map_append

theorem treeReferences_append (first second : List (Stmt ρ)) :
    treeReferences (first ++ second) = treeReferences first ++ treeReferences second := by
  rw [treeReferences_eq, treeReferences_eq, treeReferences_eq, List.flatMap_append]

/-! ### Marks are held -/

/-- References of two parts, with a token between the tokens of the parts. -/
theorem mentioned_sublist_between {left right : List (Use × Reference ρ)}
    {first second : List Token}
    (one : (mentioned left).Sublist first) (two : (mentioned right).Sublist second)
    (token : Token) : (mentioned (left ++ right)).Sublist (first ++ token :: second) := by
  rw [mentioned_append]
  exact one.append (two.cons token)

mutual

/-- The tokens that make references in an expression are held by it. -/
theorem Expr.mentioned_sublist : (expr : Expr ρ) → (mentioned expr.references).Sublist expr.tokens
  | .assign target value => value.mentioned_sublist.cons_cons target.token
  | .binary left _ token right | .logical left _ token right | .set left token right =>
    mentioned_sublist_between left.mentioned_sublist right.mentioned_sublist token
  | .call callee paren args => by
    rw [Expr.references, Expr.tokens, mentioned_append]
    refine callee.mentioned_sublist.append ?_
    exact (mentioned_sublist_arguments args).trans (List.sublist_append_left _ _)
  | .get object _ => object.mentioned_sublist.trans (List.sublist_append_left _ _)
  | .grouping inner => inner.mentioned_sublist
  | .literal _ => List.nil_sublist _
  | .super keyword method => List.sublist_append_left [keyword.token] [method]
  | .this _ | .var _ => List.Sublist.refl _
  | .unary _ token right => right.mentioned_sublist.cons token

theorem mentioned_sublist_arguments : (args : List (Expr ρ)) →
    (mentioned (argumentReferences args)).Sublist (argumentTokens args)
  | [] => List.Sublist.refl _
  | arg :: more => by
    rw [argumentReferences, argumentTokens, mentioned_append]
    exact arg.mentioned_sublist.append (mentioned_sublist_arguments more)

end

theorem mentioned_sublist_optional (value : Option (Expr ρ)) :
    (mentioned (optionalReferences value)).Sublist (optionalTokens value) := by
  cases value with
  | none => exact List.Sublist.refl _
  | some value => exact value.mentioned_sublist

mutual

/-- **The marks of a statement are held by it.** -/
theorem Stmt.marks_sublist : (stmt : Stmt ρ) → stmt.marks.Sublist stmt.tokens
  | .block body => marksIn_sublist body
  | .function (.mk name params body) =>
    ((List.Sublist.refl params).append (marksIn_sublist body)).cons_cons name
  | .class_ name _ methods =>
    ((List.Sublist.refl _).append (methodMarks_sublist methods)).cons_cons name
  | .expression value => value.mentioned_sublist
  | .print keyword value => value.mentioned_sublist.cons keyword
  | .ifThen cond branch | .while_ cond branch =>
    cond.mentioned_sublist.append branch.marks_sublist
  | .ifElse cond yes no =>
    cond.mentioned_sublist.append (yes.marks_sublist.append no.marks_sublist)
  | .return_ token value | .var token value => (mentioned_sublist_optional value).cons_cons token

theorem marksIn_sublist : (body : List (Stmt ρ)) → (marksIn body).Sublist (tokensIn body)
  | [] => List.Sublist.refl _
  | stmt :: more => stmt.marks_sublist.append (marksIn_sublist more)

theorem Function.marks_sublist : (decl : Function ρ) → decl.marks.Sublist decl.tokens
  | .mk name params body => ((List.Sublist.refl params).append (marksIn_sublist body)).cons name

theorem methodMarks_sublist : (methods : List (Function ρ)) →
    (methodMarks methods).Sublist (methodTokens methods)
  | [] => List.Sublist.refl _
  | method :: more => method.marks_sublist.append (methodMarks_sublist more)

end

/-- **The marks of a text are told apart**, errors or not. -/
theorem parse_marks_nodup (text : String) : (marksIn (parse text).tree).Nodup :=
  (parse_tokens_nodup text).sublist (marksIn_sublist _)

/-! ### References -/

mutual

/-- The references of a statement are among its marks. -/
theorem Stmt.mentioned_sublist : (stmt : Stmt ρ) → (mentioned stmt.references).Sublist stmt.marks
  | .block body => mentioned_sublist_marksIn body
  | .function decl => decl.mentioned_sublist.cons decl.name
  | .class_ name superclass methods => by
    have parent : mentioned (superclass.toList.map fun parent => (Use.read, parent)) =
        superclass.toList.map Reference.token := by
      rw [mentioned, List.map_map]
      rfl
    rw [Stmt.references, Stmt.marks, mentioned_append, parent]
    exact (List.Sublist.append_left (mentioned_sublist_methodMarks methods) _).cons name
  | .expression value | .print _ value => List.Sublist.refl _
  | .ifThen cond branch | .while_ cond branch => by
    rw [Stmt.references, Stmt.marks, mentioned_append]
    exact List.Sublist.append_left branch.mentioned_sublist _
  | .ifElse cond yes no => by
    rw [Stmt.references, Stmt.marks, mentioned_append, mentioned_append, List.append_assoc]
    exact List.Sublist.append_left (yes.mentioned_sublist.append no.mentioned_sublist) _
  | .return_ keyword value | .var keyword value => List.sublist_cons_self _ _

theorem mentioned_sublist_marksIn : (body : List (Stmt ρ)) →
    (mentioned (treeReferences body)).Sublist (marksIn body)
  | [] => List.Sublist.refl _
  | stmt :: more => by
    rw [treeReferences, marksIn, mentioned_append]
    exact stmt.mentioned_sublist.append (mentioned_sublist_marksIn more)

theorem Function.mentioned_sublist : (decl : Function ρ) →
    (mentioned decl.references).Sublist decl.marks
  | .mk _ params body =>
    (mentioned_sublist_marksIn body).trans (List.sublist_append_right params _)

theorem mentioned_sublist_methodMarks : (methods : List (Function ρ)) →
    (mentioned (methodReferences methods)).Sublist (methodMarks methods)
  | [] => List.Sublist.refl _
  | method :: more => by
    rw [methodReferences, methodMarks, mentioned_append]
    exact method.mentioned_sublist.append (mentioned_sublist_methodMarks more)

end

/-- **No token of a text makes two references.** -/
theorem parse_nodup (text : String) : (mentioned (treeReferences (parse text).tree)).Nodup :=
  (parse_marks_nodup text).sublist (mentioned_sublist_marksIn _)

end Lox
