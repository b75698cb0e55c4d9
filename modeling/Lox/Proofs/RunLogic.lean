/-
**A logic of runs.** What a computation comes to, in terms of states that carry their own proofs.

* A `RunLogic` is a preorder on such states, together with what a computation sees of them and what
  is known where one fails.
* `RunLogic.Ensures`: from a state, a computation leads to a later one, however it ends, and
  something is known about its result.
* The rules follow the ways in which computations are put together. The invariant of a loop is what
  is known when its body has completed without a value.
-/

import Lox.Eval

namespace Lox

/-- The state that a computation leaves behind, however it ended. -/
def leftBehind {S α : Type} : EStateM.Result Failure S α → S
  | .ok _ state | .error _ state => state

/-- States that carry proofs, in the order in which runs go through them. -/
structure RunLogic (σ S : Type) where
  /-- What a computation sees of a state. -/
  view : σ → S
  /-- One state comes before another one. -/
  le : σ → σ → Prop
  refl : ∀ state, le state state
  trans : ∀ {first second third}, le first second → le second third → le first third
  /-- What is known where a computation fails. -/
  fails : Failure → σ → Prop

namespace RunLogic

variable {σ S α β : Type} {logic : RunLogic σ S}

/-- What an ended computation has come to. -/
def Ends (logic : RunLogic σ S) (start : σ) (post : α → σ → Prop) :
    EStateM.Result Failure S α → Prop
  | .ok value state => ∃ later, logic.view later = state ∧ logic.le start later ∧ post value later
  | .error failure state =>
    ∃ later, logic.view later = state ∧ logic.le start later ∧ logic.fails failure later

/-- **What a computation comes to**: it leads to a later state, however it ends, and something is
known about its result. -/
def Ensures (logic : RunLogic σ S) (start : σ) (run : EStateM Failure S α)
    (post : α → σ → Prop) : Prop :=
  logic.Ends start post (run (logic.view start))

section Ends

variable {start later : σ} {post post' : α → σ → Prop} {result : EStateM.Result Failure S α}

theorem Ends.after (le : logic.le start later) (ends : logic.Ends later post result) :
    logic.Ends start post result := by
  cases result with
  | ok value state =>
      obtain ⟨last, same, more, here⟩ := ends
      exact ⟨last, same, logic.trans le more, here⟩
  | error failure state =>
      obtain ⟨last, same, more, here⟩ := ends
      exact ⟨last, same, logic.trans le more, here⟩

theorem Ends.weaken (ends : logic.Ends start post result)
    (less : ∀ value later, logic.le start later → post value later → post' value later) :
    logic.Ends start post' result := by
  cases result with
  | ok value state =>
      obtain ⟨last, same, le, here⟩ := ends
      exact ⟨last, same, le, less value last le here⟩
  | error failure state => exact ends

/-- The same in another logic of the same states. -/
theorem Ends.imp {other : RunLogic σ S} (ends : logic.Ends start post result)
    (view : other.view = logic.view)
    (le : ∀ later, logic.le start later → other.le start later)
    (fails : ∀ failure later, logic.fails failure later → other.fails failure later)
    (less : ∀ value later, logic.le start later → post value later → post' value later) :
    other.Ends start post' result := by
  cases result with
  | ok value state =>
      obtain ⟨last, same, before, here⟩ := ends
      exact ⟨last, view ▸ same, le last before, less value last before here⟩
  | error failure state =>
      obtain ⟨last, same, before, here⟩ := ends
      exact ⟨last, view ▸ same, le last before, fails failure last here⟩

/-- However a computation ends, it leads to a later state. -/
theorem Ends.exists_later (ends : logic.Ends start post result) :
    ∃ later, logic.view later = leftBehind result ∧ logic.le start later := by
  cases result with
  | ok value state =>
      obtain ⟨later, same, le, _⟩ := ends
      exact ⟨later, same, le⟩
  | error failure state =>
      obtain ⟨later, same, le, _⟩ := ends
      exact ⟨later, same, le⟩

end Ends

namespace Ensures

variable {start : σ} {run : EStateM Failure S α} {post post' mid : α → σ → Prop}

theorem pure {value : α} (here : post value start) :
    logic.Ensures start (Pure.pure value) post :=
  ⟨start, rfl, logic.refl start, here⟩

theorem throw {failure : Failure} (known : logic.fails failure start) :
    logic.Ensures start (throwThe Failure failure) post :=
  ⟨start, rfl, logic.refl start, known⟩

/-- **Computations one after the other.** -/
theorem bind {next : α → EStateM Failure S β} {post : β → σ → Prop}
    (first : logic.Ensures start run mid)
    (then_ : ∀ value later, logic.le start later → mid value later →
      logic.Ensures later (next value) post) : logic.Ensures start (run >>= next) post := by
  show logic.Ends start post (EStateM.bind run next (logic.view start))
  unfold Ensures at first
  unfold EStateM.bind
  cases ended : run (logic.view start) with
  | ok value state =>
      rw [ended] at first
      obtain ⟨later, rfl, le, known⟩ := first
      exact (then_ value later le known).after le
  | error failure state =>
      rw [ended] at first
      exact first

theorem get {next : S → EStateM Failure S α}
    (then_ : logic.Ensures start (next (logic.view start)) post) :
    logic.Ensures start (MonadState.get >>= next) post :=
  then_

theorem weaken (ensures : logic.Ensures start run post)
    (less : ∀ value later, logic.le start later → post value later → post' value later) :
    logic.Ensures start run post' :=
  Ends.weaken ensures less

/-! ### Sequences and loops -/

/-- Statements one after the other: what is known before each of them is what the ones in front of
it leave behind. -/
theorem untilReturn {step : β → EStateM Failure S Completion}
    {ready : List β → σ → Prop} {post : Completion → σ → Prop}
    (last : ∀ {state}, ready [] state → post none state)
    (each : ∀ {state item more}, ready (item :: more) state →
      logic.Ensures state (step item) fun completion later =>
        completion.elim (ready more later) fun value => post (some value) later)
    {items : List β} (here : ready items start) :
    logic.Ensures start (Run.untilReturn step items) post := by
  induction items generalizing start with
  | nil => exact pure (last here)
  | cons item more ih =>
      refine (each here).bind fun completion later _ known => ?_
      cases completion with
      | none => exact ih known
      | some value => exact pure known

/-- Values one after the other. -/
theorem collect {step : β → EStateM Failure S Value} {items : List β}
    {invariant : σ → Prop} {held : Value → σ → Prop}
    (kept : ∀ {value state later}, logic.le state later → held value state → held value later)
    (each : ∀ item ∈ items, ∀ {state}, invariant state →
      logic.Ensures state (step item) fun value later => invariant later ∧ held value later)
    (here : invariant start) :
    logic.Ensures start (Run.collect step items) fun values later =>
      invariant later ∧ ∀ value ∈ values, held value later := by
  induction items generalizing start with
  | nil => exact pure ⟨here, List.forall_mem_nil _⟩
  | cons item more ih =>
      obtain ⟨first, rest⟩ := List.forall_mem_cons.mp each
      refine (first here).bind fun value later _ known => ?_
      refine (ih rest known.1).bind fun values last le others => ?_
      exact pure ⟨others.1, List.forall_mem_cons.mpr ⟨kept le known.2, others.2⟩⟩

/-- **A loop**: what holds when the body has completed without a value is kept by the condition, and
again by the body. -/
theorem loop {cond : EStateM Failure S Value} {body : EStateM Failure S Completion} {fuel : Nat}
    {post : Completion → σ → Prop}
    (test : ∀ {state}, post none state → logic.Ensures state cond fun _ => post none)
    (turn : ∀ {state}, post none state → logic.Ensures state body post)
    (spent : ∀ {state}, post none state → logic.fails .exhausted state)
    (here : post none start) : logic.Ensures start (Run.loop cond body fuel) post := by
  induction fuel generalizing start with
  | zero => exact throw (spent here)
  | succ fuel ih =>
      refine (test here).bind fun value later _ known => ?_
      by_cases truthy : value.isTruthy = true
      · simp only [if_pos truthy]
        refine (turn known).bind fun completion last _ known => ?_
        cases completion with
        | none => exact ih known
        | some value => exact pure known
      · simp only [if_neg truthy]
        exact pure known

end Ensures

end RunLogic

end Lox
