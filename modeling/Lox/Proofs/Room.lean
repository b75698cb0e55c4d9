/-
**Room.** More room for nested evaluation changes nothing, unless there was too little.

* `Run.Roomier` compares a computation with another one that has more room: they come to the same,
  unless there is too little room for the first one.
* `roomier`: so it is with expressions, statements and calls. The induction is on the room that
  there is at least.
* `Twin.Concur` compares computations on twins that have different room: they agree, unless there is
  too little room for the one that has less of it.
-/

import Lox.Proofs.Twins

namespace Lox

open Run

namespace Run

variable {α β : Type}

/-- Another computation comes to the same as one, unless there is too little room for that. -/
def Roomier (run other : Run α) : Prop :=
  ∀ machine, (∃ after, run machine = .error .overflow after) ∨ other machine = run machine

namespace Roomier

theorem refl (run : Run α) : Roomier run run :=
  fun _ => .inr rfl

theorem overflow {other : Run α} : Roomier (throwThe Failure .overflow) other :=
  fun machine => .inl ⟨machine, rfl⟩

theorem bind {run other : Run α} {next next' : α → Run β} (first : Roomier run other)
    (second : ∀ value, Roomier (next value) (next' value)) :
    Roomier (run >>= next) (other >>= next') := by
  intro machine
  rcases first machine with ⟨after, overflows⟩ | same
  · left
    exact ⟨after, by simp only [Bind.bind, EStateM.bind, overflows]⟩
  · simp only [Bind.bind, EStateM.bind, same]
    cases run machine with
    | error failure after => exact .inr rfl
    | ok value after => exact second value after

/-- Only what comes next has more room. -/
theorem then_ (run : Run α) {next next' : α → Run β}
    (second : ∀ value, Roomier (next value) (next' value)) :
    Roomier (run >>= next) (run >>= next') :=
  bind (refl run) second

theorem untilReturn {step step' : α → Run Completion}
    (each : ∀ item, Roomier (step item) (step' item)) (items : List α) :
    Roomier (Run.untilReturn step items) (Run.untilReturn step' items) := by
  induction items with
  | nil => exact refl _
  | cons item items ih =>
      refine bind (each item) fun completion => ?_
      cases completion with
      | some value => exact refl _
      | none => exact ih

theorem collect {step step' : α → Run Value} (each : ∀ item, Roomier (step item) (step' item))
    (items : List α) : Roomier (Run.collect step items) (Run.collect step' items) := by
  induction items with
  | nil => exact refl _
  | cons item items ih =>
      exact bind (each item) fun _ => bind ih fun _ => refl _

theorem loop {cond cond' : Run Value} {body body' : Run Completion} (test : Roomier cond cond')
    (turn : Roomier body body') (fuel : Nat) :
    Roomier (Run.loop cond body fuel) (Run.loop cond' body' fuel) := by
  induction fuel with
  | zero => exact refl _
  | succ fuel ih =>
      refine bind test fun value => ?_
      by_cases truthy : value.isTruthy = true
      · simp only [if_pos truthy]
        refine bind turn fun completion => ?_
        cases completion with
        | some value => exact refl _
        | none => exact ih
      · simp only [if_neg truthy]
        exact refl _

theorem invoke {lookup : Lookup} {step step' : Nat → Stmt Hops → Run Completion}
    (each : ∀ frame stmt, Roomier (step frame stmt) (step' frame stmt)) (closure : Closure)
    (args : List Value) :
    Roomier (Run.invoke lookup step closure args) (Run.invoke lookup step' closure args) :=
  then_ _ fun inner => then_ _ fun _ =>
    bind (untilReturn (each inner) closure.decl.body) fun _ => refl _

end Roomier

end Run

/-! ### Trees -/

section Trees

variable (lookup : Lookup) (fuel : Nat)

/-- Trees and calls come to the same with more room. -/
structure GrowsRoomier (room more : Nat) : Prop where
  expr : ∀ frame expr,
    Roomier (Expr.eval lookup fuel room frame expr) (Expr.eval lookup fuel more frame expr)
  stmt : ∀ frame stmt,
    Roomier (Stmt.exec lookup fuel room frame stmt) (Stmt.exec lookup fuel more frame stmt)
  call : ∀ callee args,
    Roomier (callValue lookup fuel room callee args) (callValue lookup fuel more callee args)

variable {lookup fuel} {room more : Nat} (roomier : GrowsRoomier lookup fuel room more)

include roomier

theorem Expr.eval_roomier (frame : Nat) (expr : Expr Hops) :
    Roomier (Expr.eval lookup fuel (room + 1) frame expr)
      (Expr.eval lookup fuel (more + 1) frame expr) := by
  cases expr with
  | assign target value => exact (roomier.expr frame value).bind fun _ => .refl _
  | binary left op token right =>
      exact (roomier.expr frame left).bind fun _ => (roomier.expr frame right).bind fun _ => .refl _
  | call callee paren args =>
      refine (roomier.expr frame callee).bind fun callee => ?_
      refine (Roomier.collect (roomier.expr frame) args).bind fun args => ?_
      exact .then_ _ fun _ => roomier.call callee args
  | get object name => exact (roomier.expr frame object).bind fun _ => .refl _
  | grouping inner => exact roomier.expr frame inner
  | logical left op token right =>
      refine (roomier.expr frame left).bind fun value => ?_
      by_cases short : shortCircuits op value = true
      · simp only [if_pos short]
        exact .refl _
      · simp only [if_neg short]
        exact roomier.expr frame right
  | set object name value =>
      refine (roomier.expr frame object).bind fun object => ?_
      cases object with
      | instance_ id => exact (roomier.expr frame value).bind fun _ => .refl _
      | _ => exact .refl _
  | unary sign token right => exact (roomier.expr frame right).bind fun _ => .refl _
  | _ => exact .refl _

theorem Stmt.exec_roomier (frame : Nat) (stmt : Stmt Hops) :
    Roomier (Stmt.exec lookup fuel (room + 1) frame stmt)
      (Stmt.exec lookup fuel (more + 1) frame stmt) := by
  cases stmt with
  | block body => exact .then_ _ fun inner => .untilReturn (roomier.stmt inner) body
  | expression value => exact (roomier.expr frame value).bind fun _ => .refl _
  | ifThen cond yes =>
      refine (roomier.expr frame cond).bind fun test => ?_
      by_cases truthy : test.isTruthy = true
      · simp only [if_pos truthy]
        exact roomier.stmt frame yes
      · simp only [if_neg truthy]
        exact .refl _
  | ifElse cond yes no =>
      refine (roomier.expr frame cond).bind fun test => ?_
      by_cases truthy : test.isTruthy = true
      · simp only [if_pos truthy]
        exact roomier.stmt frame yes
      · simp only [if_neg truthy]
        exact roomier.stmt frame no
  | print keyword value => exact (roomier.expr frame value).bind fun _ => .refl _
  | return_ keyword value =>
      cases value with
      | none => exact .refl _
      | some value => exact (roomier.expr frame value).bind fun _ => .refl _
  | var name init =>
      cases init with
      | none => exact .refl _
      | some init => exact (roomier.expr frame init).bind fun _ => .refl _
  | while_ cond body => exact .loop (roomier.expr frame cond) (roomier.stmt frame body) fuel
  | _ => exact .refl _

theorem callValue_roomier (callee : Value) (args : List Value) :
    Roomier (callValue lookup fuel (room + 1) callee args)
      (callValue lookup fuel (more + 1) callee args) := by
  cases callee with
  | function id => exact .then_ _ fun closure => .invoke roomier.stmt closure args
  | class_ id =>
      refine .then_ _ fun made => .then_ _ fun method => ?_
      cases method with
      | none => exact .refl _
      | some method =>
          exact .then_ _ fun bound => (Roomier.invoke roomier.stmt bound args).bind fun _ => .refl _
  | _ => exact .refl _

end Trees

/-- **More room changes nothing**, unless there was too little. -/
theorem roomier (lookup : Lookup) (fuel : Nat) {room more : Nat} (le : room ≤ more) :
    GrowsRoomier lookup fuel room more := by
  induction room generalizing more with
  | zero => exact ⟨fun _ _ => .overflow, fun _ _ => .overflow, fun _ _ => .overflow⟩
  | succ room ih =>
      cases more with
      | zero => cases le
      | succ more =>
          have inner := ih (Nat.le_of_succ_le_succ le)
          exact ⟨Expr.eval_roomier inner, Stmt.exec_roomier inner, callValue_roomier inner⟩

/-! ### Different room -/

/-- Which one of two computations has less room. -/
inductive Tight where
  | first | second

/-- Two computations have room: the second one has so much more than the first one, or not more
than it. -/
def Tight.Fits (tight : Tight) (slack room room' : Nat) : Prop :=
  match tight with
  | .first => room + slack ≤ room'
  | .second => room' ≤ room

namespace Tight.Fits

variable {tight : Tight} {slack room room' : Nat}

theorem less (fits : tight.Fits (slack + 1) room room') : tight.Fits slack room room' := by
  cases tight with
  | first => exact Nat.le_of_succ_le fits
  | second => exact fits

/-- The second computation has no room, or enough to go on with less. -/
theorem inner (fits : tight.Fits (slack + 1) room room') :
    tight = .second ∧ room' = 0 ∨ ∃ less, room' = less + 1 ∧ tight.Fits slack room less := by
  cases room' with
  | zero =>
      cases tight with
      | first => cases fits
      | second => exact .inl ⟨rfl, rfl⟩
  | succ less =>
      refine .inr ⟨less, rfl, ?_⟩
      cases tight with
      | first => exact Nat.le_of_succ_le_succ fits
      | second => exact Nat.le_of_succ_le fits

/-- One of the computations has no room, or both have enough to go on with less. -/
theorem outer (fits : tight.Fits (slack + 1) room room') :
    tight = .first ∧ room = 0 ∨ tight = .second ∧ room' = 0 ∨
      ∃ less less', room = less + 1 ∧ room' = less' + 1 ∧ tight.Fits (slack + 1) less less' := by
  rcases fits.inner with ⟨rfl, rfl⟩ | ⟨less', rfl, _⟩
  · exact .inr (.inl ⟨rfl, rfl⟩)
  · cases room with
    | zero =>
        cases tight with
        | first => exact .inl ⟨rfl, rfl⟩
        | second => cases fits
    | succ less =>
        refine .inr (.inr ⟨less, less', rfl, rfl, ?_⟩)
        cases tight with
        | first => exact Nat.le_of_succ_le_succ (Nat.succ_add less (slack + 1) ▸ fits)
        | second => exact Nat.le_of_succ_le_succ fits

end Tight.Fits

namespace Twin

variable {α β γ δ : Type}

/-- There is too little room for the computation that has less of it. -/
def Overflows (twin : Twin) (tight : Tight) (run : Run α) (other : Run β) : Prop :=
  match tight with
  | .first => ∃ after, run twin.first = .error .overflow after
  | .second => ∃ after, other twin.second = .error .overflow after

/-- **Computations with different room concur**: they agree, unless there is too little room for the
one that has less of it. -/
def Concur (twin : Twin) (tight : Tight) (run : Run α) (other : Run β)
    (post : α → β → Twin → Prop) : Prop :=
  twin.Overflows tight run other ∨ twin.Agree run other post

namespace Concur

variable {twin : Twin} {tight : Tight} {run : Run α} {other : Run β} {post : α → β → Twin → Prop}

theorem pure {value : α} {value' : β} (here : post value value' twin) :
    twin.Concur tight (Pure.pure value) (Pure.pure value') post :=
  .inr (.pure here)

theorem bind {next : α → Run γ} {next' : β → Run δ} {after : γ → δ → Twin → Prop}
    (first : twin.Concur tight run other post)
    (second : ∀ value value' later, twin.Grows later.toPair → post value value' later →
      later.Concur tight (next value) (next' value') after) :
    twin.Concur tight (run >>= next) (other >>= next') after := by
  rcases first with overflows | agree
  · left
    cases tight with
    | first =>
        obtain ⟨last, failed⟩ := overflows
        exact ⟨last, by simp only [Bind.bind, EStateM.bind, failed]⟩
    | second =>
        obtain ⟨last, failed⟩ := overflows
        exact ⟨last, by simp only [Bind.bind, EStateM.bind, failed]⟩
  · cases agree with
    | error failure later failed failed' grows =>
        have agree : twin.Agree run other fun _ _ _ => False :=
          .error failure later failed failed' grows
        exact .inr (agree.bind fun _ _ _ _ never => never.elim)
    | @ok value value' later ended ended' grows here =>
        rcases second value value' later grows here with overflows | agree'
        · left
          cases tight with
          | first =>
              obtain ⟨last, failed⟩ := overflows
              exact ⟨last, by simp only [Bind.bind, EStateM.bind, ended, failed]⟩
          | second =>
              obtain ⟨last, failed⟩ := overflows
              exact ⟨last, by simp only [Bind.bind, EStateM.bind, ended', failed]⟩
        · have agree : twin.Agree run other fun found found' last =>
              found = value ∧ found' = value' ∧ last = later :=
            .ok later ended ended' grows ⟨rfl, rfl, rfl⟩
          refine .inr (agree.bind ?_)
          rintro _ _ _ _ ⟨rfl, rfl, rfl⟩
          exact agree'

/-- More room for the first computation. -/
theorem of_first {less : Run α} (roomier : Roomier less run) (agree : twin.Agree less other post) :
    twin.Concur .second run other post := by
  rcases roomier twin.first with ⟨after, overflows⟩ | same
  · left
    cases agree with
    | ok later ended => cases ended.symm.trans overflows
    | error failure later failed failed' =>
        obtain ⟨rfl, _⟩ := EStateM.Result.error.inj (failed.symm.trans overflows)
        exact ⟨later.second, failed'⟩
  · right
    cases agree with
    | ok later ended ended' grows here => exact .ok later (same.trans ended) ended' grows here
    | error failure later failed failed' grows =>
        exact .error failure later (same.trans failed) failed' grows

/-- Less room for the first computation. -/
theorem of_second {more : Run α} (roomier : Roomier run more) (agree : twin.Agree more other post) :
    twin.Concur .first run other post := by
  rcases roomier twin.first with overflows | same
  · exact .inl overflows
  · right
    cases agree with
    | ok later ended ended' grows here => exact .ok later (same.symm.trans ended) ended' grows here
    | error failure later failed failed' grows =>
        exact .error failure later (same.symm.trans failed) failed' grows

theorem loop {cond cond' : Run Value} {body body' : Run Completion} {invariant : Twin → Prop}
    (stable : ∀ {twin later : Twin}, twin.Grows later.toPair → invariant twin → invariant later)
    (tests : ∀ {twin : Twin}, invariant twin → twin.Concur tight cond cond' Same)
    (turns : ∀ {twin : Twin}, invariant twin → twin.Concur tight body body' Same)
    (here : invariant twin) (fuel : Nat) :
    twin.Concur tight (Run.loop cond body fuel) (Run.loop cond' body' fuel) Same := by
  induction fuel generalizing twin with
  | zero => exact .inr .throw
  | succ fuel ih =>
      refine .bind (tests here) ?_
      rintro test _ later grows rfl
      by_cases truthy : test.isTruthy = true
      · simp only [if_pos truthy]
        refine .bind (turns (stable grows here)) ?_
        rintro completion _ last more rfl
        cases completion with
        | some value => exact .pure rfl
        | none => exact ih (stable more (stable grows here))
      · simp only [if_neg truthy]
        exact .pure rfl

end Concur

section Trees

variable {twin : Twin} {tight : Tight} {fuel room room' : Nat} {shift : Nat → Nat}
  {frame frame' : Nat}

theorem eval_concurs (fits : tight.Fits 0 room room') (sees : twin.Sees shift frame frame')
    {expr expr' : Expr Hops} (shifts : expr.Shifts shift expr') :
    twin.Concur tight (expr.eval .direct fuel room frame) (expr'.eval .direct fuel room' frame')
      Same := by
  have agree := (agreeing fuel room').expr sees shifts
  cases tight with
  | first => exact .of_second ((roomier .direct fuel fits).expr frame expr) agree
  | second => exact .of_first ((roomier .direct fuel fits).expr frame expr) agree

theorem exec_concurs (fits : tight.Fits 0 room room') (sees : twin.Sees shift frame frame')
    {stmt stmt' : Stmt Hops} (shifts : stmt.Shifts shift stmt') :
    twin.Concur tight (stmt.exec .direct fuel room frame) (stmt'.exec .direct fuel room' frame')
      Same := by
  have agree := (agreeing fuel room').stmt sees shifts
  cases tight with
  | first => exact .of_second ((roomier .direct fuel fits).stmt frame stmt) agree
  | second => exact .of_first ((roomier .direct fuel fits).stmt frame stmt) agree

end Trees

end Twin

end Lox
