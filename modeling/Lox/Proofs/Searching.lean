/-
**Searching.** Searching outward for a name comes to the same as going straight to its frame.

* `Store.Request` is what can be asked of a store of environments. `Store.perform` carries out one,
  with its answer; `Store.after` is the store that a history of requests leaves.
* `Store.seek` is the search as a loop that gives up after a number of turns. Frames lie inside
  older ones, so every turn leads to an older frame: `Store.seek_of_lt` says that the loop ends.
* `Store.BindsAt` says at which distances a name is bound. `Store.holder?_of_isLeast`: the search
  ends in the frame at the least of them.
* `Store.Rebinds`: what one name stands for in one frame has changed, and nothing else.
* `Store.search_direct`: whatever was done to a store before, `get` is `getAt` and `assign` is
  `assignAt` at the least distance, and both fail without a trace if there is none.
-/

import Lox.Eval
import Lox.Proofs.Pairs
import Mathlib.Order.Bounds.Defs

namespace Lox

/-! ### Requests -/

/-- What can be asked of a store of environments. -/
inductive Store.Request (α : Type) where
  /-- Makes a frame. -/
  | new (enclosing : Option Nat)
  | define (frame : Nat) (name : String) (value : α)
  /-- Reads a name that is searched for. -/
  | get (frame : Nat) (name : String)
  /-- Changes a name that is searched for. -/
  | assign (frame : Nat) (name : String) (value : α)
  /-- Reads a name a number of links out. -/
  | getAt (frame distance : Nat) (name : String)
  /-- Changes a name a number of links out. -/
  | assignAt (frame distance : Nat) (name : String) (value : α)

/-- The answer to a request. -/
inductive Answer (α : Type) where
  | made (frame : Nat)
  | done
  | value (value : α)
  | failed (error : RunError)
  | astray (fault : Access)

namespace Store

variable {α : Type}

/-- What a request makes of a store, and its answer. If it fails, the store stays as it is. -/
def perform (store : Store α) : Request α → Store α × Answer α
  | .new enclosing => (store.push enclosing, .made store.size)
  | .define frame name value => (store.define frame name value, .done)
  | .get frame name =>
    match store.get? frame name with
    | some value => (store, .value value)
    | none => (store, .failed (.undefinedVariable name))
  | .assign frame name value =>
    match store.assign? frame name value with
    | some next => (next, .done)
    | none => (store, .failed (.undefinedVariable name))
  | .getAt frame distance name =>
    match store.getAt frame distance name with
    | .ok value => (store, .value value)
    | .error fault => (store, .astray fault)
  | .assignAt frame distance name value =>
    match store.assignAt frame distance name value with
    | .ok next => (next, .done)
    | .error fault => (store, .astray fault)

/-- The store that requests leave, one after the other, beginning without frames. -/
def after (history : List (Request α)) : Store α :=
  history.foldl (fun store request => (store.perform request).1) empty

/-! ### The search as a loop -/

/-- The search for a name as a loop over places, for a number of turns at most: the frame that binds
the name, or past the outermost frame nothing. Without turns left the loop has not ended. -/
def seek (store : Store α) (name : String) : (turns : Nat) → (place : Option Nat) →
    Option (Option Nat)
  | _, none => some none
  | 0, some _ => none
  | turns + 1, some frame =>
    if store.binds frame name then some (some frame)
    else seek store name turns (store.enclosing? frame)

variable {store : Store α} {frame holder distance : Nat} {name : String}

/-- **The search ends**: every turn leads to an older frame. -/
theorem seek_of_lt {turns : Nat} (enough : frame < turns) :
    store.seek name turns (some frame) = some (store.holder? name frame) := by
  induction turns generalizing frame with
  | zero => exact absurd enough (Nat.not_lt_zero frame)
  | succ turns ih =>
      rw [seek]
      by_cases here : store.binds frame name = true
      · rw [if_pos here, holder?_of_binds here]
      rw [if_neg here]
      cases link : store.enclosing? frame with
      | none =>
          rw [holder?_of_root link here]
          cases turns <;> rfl
      | some outer =>
          have older := enclosing?_lt link
          rw [ih (by omega), holder?_of_enclosing? here link]

/-! ### Distances -/

/-- The frame a number of links out binds a name. -/
def BindsAt (store : Store α) (frame : Nat) (name : String) (distance : Nat) : Prop :=
  ∃ holder, store.frameAt frame distance = .ok holder ∧ store.binds holder name = true

theorem bindsAt_zero : store.BindsAt frame name 0 ↔ store.binds frame name = true := by
  refine ⟨?_, fun here => ⟨frame, frameAt_zero frame, here⟩⟩
  rintro ⟨holder, ⟨⟩, here⟩
  exact here

/-- Further out, names are bound as they are seen from the next frame. -/
theorem bindsAt_succ : store.BindsAt frame name (distance + 1) ↔
    ∃ outer, store.enclosing? frame = some outer ∧ store.BindsAt outer name distance := by
  cases link : store.enclosing? frame with
  | none =>
      refine iff_of_false ?_ ?_
      · rintro ⟨holder, walked, _⟩
        simp only [frameAt, ancestor, walk, link] at walked
        cases distance <;> cases walked
      · rintro ⟨_, ⟨⟩, _⟩
  | some outer =>
      unfold BindsAt
      rw [frameAt_succ link]
      refine ⟨fun bound => ⟨outer, rfl, bound⟩, ?_⟩
      rintro ⟨_, ⟨⟩, bound⟩
      exact bound

/-- A search that finds a frame finds one on the chain. -/
theorem bindsAt_of_holder? (found : store.holder? name frame = some holder) :
    ∃ distance, store.BindsAt frame name distance := by
  fun_induction Store.holder? store name frame with
  | case1 frame here => exact ⟨0, bindsAt_zero.mpr here⟩
  | case2 => cases found
  | case3 frame _ outer link ih =>
      obtain ⟨distance, bound⟩ := ih found
      exact ⟨distance + 1, bindsAt_succ.mpr ⟨outer, link, bound⟩⟩

theorem holder?_eq_none (unbound : ∀ distance, ¬ store.BindsAt frame name distance) :
    store.holder? name frame = none := by
  cases found : store.holder? name frame with
  | none => rfl
  | some holder =>
      obtain ⟨distance, bound⟩ := bindsAt_of_holder? found
      exact absurd bound (unbound distance)

/-- **The search ends at the least distance** at which the name is bound. -/
theorem holder?_of_isLeast (least : IsLeast {d | store.BindsAt frame name d} distance)
    (walked : store.frameAt frame distance = .ok holder) :
    store.holder? name frame = some holder := by
  induction distance generalizing frame with
  | zero =>
      obtain rfl := Except.ok.inj walked
      exact holder?_of_binds (bindsAt_zero.mp least.1)
  | succ distance ih =>
      have missing : ¬ store.binds frame name = true := fun here =>
        Nat.not_succ_le_zero distance (least.2 (bindsAt_zero.mpr here))
      obtain ⟨outer, link, bound⟩ := bindsAt_succ.mp least.1
      have closest : IsLeast {d | store.BindsAt outer name d} distance := by
        refine ⟨bound, fun other nearer => Nat.le_of_succ_le_succ (least.2 ?_)⟩
        exact bindsAt_succ.mpr ⟨outer, link, nearer⟩
      rw [frameAt_succ link] at walked
      rw [holder?_of_enclosing? missing link]
      exact ih closest walked

end Store

/-! ### Changing a binding -/

/-- Changing what a bound name stands for adds no name, and keeps the order of the others. -/
theorem Bindings.map_fst_set {α : Type} {name : String} {bindings : Bindings α}
    (bound : bindings.has name = true) (value : α) :
    (bindings.set name value).map Prod.fst = bindings.map Prod.fst := by
  induction bindings with
  | nil => cases bound
  | cons binding more ih =>
      obtain ⟨other, old⟩ := binding
      by_cases same : other = name
      · rw [set, if_pos same]
        rfl
      · have later : Bindings.has name more = true := by
          rwa [has, get?, if_neg same] at bound
        rw [set, if_neg same, List.map_cons, ih later]
        rfl

namespace Store

variable {α : Type}

/-- After a change one name stands for a value in one frame; otherwise frames, links, names and what
they stand for are as before. So all searches go where they went, and just those that end at this
name in this frame see the value. -/
structure Rebinds (before after : Store α) (holder : Nat) (name : String) (value : α) : Prop where
  size : after.size = before.size
  links : ∀ frame, after.enclosing? frame = before.enclosing? frame
  names : ∀ frame, (after.bindings frame).map Prod.fst = (before.bindings frame).map Prod.fst
  there : (after.bindings holder).get? name = some value
  elsewhere : ∀ frame other, ¬ (frame = holder ∧ other = name) →
    (after.bindings frame).get? other = (before.bindings frame).get? other
  seen : ∀ frame other, after.get? frame other =
    if before.holder? other frame = some holder ∧ other = name then some value
    else before.get? frame other

variable {store : Store α} {frame holder distance : Nat} {name : String} {old : α}

theorem seek_congr {later : Store α}
    (links : ∀ frame, later.enclosing? frame = store.enclosing? frame)
    (bound : ∀ frame, later.binds frame name = store.binds frame name) (turns : Nat)
    (place : Option Nat) : later.seek name turns place = store.seek name turns place := by
  induction turns generalizing place with
  | zero => cases place <;> rfl
  | succ turns ih =>
      cases place with
      | none => rfl
      | some frame => rw [seek, seek, bound, links, ih]

/-- **Defining a name that a frame binds changes only that binding.** -/
theorem rebinds_define (bound : (store.bindings holder).get? name = some old) (value : α) :
    store.Rebinds (store.define holder name value) holder name value := by
  have inside := lt_size_of_get? bound
  have changed := get?_define inside name value
  have links : ∀ frame,
      (store.define holder name value).enclosing? frame = store.enclosing? frame :=
    enclosing?_define holder name value
  have known : Bindings.has name (store.bindings holder) = true := by
    rw [Bindings.has, bound]
    rfl
  have names : ∀ frame, ((store.define holder name value).bindings frame).map Prod.fst =
      (store.bindings frame).map Prod.fst := by
    intro frame
    rw [bindings_define inside]
    by_cases here : frame = holder
    · rw [if_pos here, here, Bindings.map_fst_set known]
    · rw [if_neg here]
  have binds : ∀ other frame,
      (store.define holder name value).binds frame other = store.binds frame other := by
    intro other frame
    rw [Store.binds, Store.binds, Bindings.has, Bindings.has, changed]
    by_cases here : frame = holder ∧ other = name
    · rw [if_pos here, here.1, here.2, bound]
      rfl
    · rw [if_neg here]
  have there : ((store.define holder name value).bindings holder).get? name = some value := by
    rw [changed, if_pos ⟨rfl, rfl⟩]
  have searches : ∀ other frame,
      (store.define holder name value).holder? other frame = store.holder? other frame := by
    intro other frame
    have enough := Nat.lt_succ_self frame
    rw [← Option.some_inj, ← seek_of_lt enough, ← seek_of_lt enough, seek_congr links (binds other)]
  refine ⟨size_define .., links, names, there, ?_, ?_⟩
  · intro frame other apart
    exact get?_define_of_ne apart value
  · intro frame other
    rw [get?, get?, searches]
    cases found : store.holder? other frame with
    | none => rw [if_neg (by rintro ⟨⟨⟩, _⟩)]
    | some finish => simp only [changed, Option.some.injEq]

/-- What is found a number of links out. -/
theorem getAt_of_frameAt (walked : store.frameAt frame distance = .ok holder)
    (bound : (store.bindings holder).get? name = some old) :
    store.getAt frame distance name = .ok old := by
  rw [getAt, walked]
  simp only [bound]

/-- **At the least distance, searching is direct access.** Both read the same, and both change the
same binding and nothing else. -/
theorem perform_of_isLeast (least : IsLeast {d | store.BindsAt frame name d} distance) :
    ∃ holder old, store.frameAt frame distance = .ok holder ∧
      (store.bindings holder).get? name = some old ∧
      store.perform (.get frame name) = (store, .value old) ∧
      store.perform (.getAt frame distance name) = (store, .value old) ∧
      ∀ value, ∃ next, store.perform (.assign frame name value) = (next, .done) ∧
        store.perform (.assignAt frame distance name value) = (next, .done) ∧
        store.Rebinds next holder name value := by
  obtain ⟨holder, walked, here⟩ := least.1
  obtain ⟨old, bound⟩ := binds_iff.mp here
  have found := holder?_of_isLeast least walked
  refine ⟨holder, old, walked, bound, ?_, ?_, fun value => ⟨store.define holder name value, ?_, ?_,
    rebinds_define bound value⟩⟩
  · simp only [perform, get?, found, bound]
  · simp only [perform, getAt_of_frameAt walked bound]
  · simp only [perform, assign?, found, Option.map_some]
  · simp only [perform, assignAt, walked]

/-- Where a name is not bound at all, the search fails and leaves the store as it is. -/
theorem perform_of_unbound (unbound : ∀ distance, ¬ store.BindsAt frame name distance) :
    store.perform (.get frame name) = (store, .failed (.undefinedVariable name)) ∧
      ∀ value, store.perform (.assign frame name value) =
        (store, .failed (.undefinedVariable name)) := by
  have missing := holder?_eq_none unbound
  refine ⟨?_, fun value => ?_⟩
  · simp only [perform, get?, missing]
  · simp only [perform, assign?, missing, Option.map_none]

/-- **Searching and direct access agree on every chain of environments.** Take the store that any
requests leave, a frame and a name. The search for the name ends. If frames on the chain bind the
name, the first of them at some distance, then reading by search reads what stands there, and
assigning by search does what assigning at that distance does: it changes that binding and nothing
else. If none does, reading and assigning fail because the variable is undefined, and leave the
store as it is. -/
theorem search_direct (history : List (Request α)) (frame : Nat) (name : String) :
    (∀ turns, frame < turns → (after history).seek name turns (some frame) =
      some ((after history).holder? name frame)) ∧
    (∀ distance, IsLeast {d | (after history).BindsAt frame name d} distance →
      ∃ holder old, (after history).frameAt frame distance = .ok holder ∧
        ((after history).bindings holder).get? name = some old ∧
        (after history).perform (.get frame name) = (after history, .value old) ∧
        (after history).perform (.getAt frame distance name) = (after history, .value old) ∧
        ∀ value, ∃ next, (after history).perform (.assign frame name value) = (next, .done) ∧
          (after history).perform (.assignAt frame distance name value) = (next, .done) ∧
          (after history).Rebinds next holder name value) ∧
    ((∀ distance, ¬ (after history).BindsAt frame name distance) →
      (after history).perform (.get frame name) =
          (after history, .failed (.undefinedVariable name)) ∧
        ∀ value, (after history).perform (.assign frame name value) =
          (after history, .failed (.undefinedVariable name))) :=
  ⟨fun _ => seek_of_lt, fun _ => perform_of_isLeast, perform_of_unbound⟩

/-- Two frames inside one, which binds a name. -/
def siblings : List (Request Nat) :=
  [.new none, .define 0 "n" 1, .new (some 0), .new (some 0)]

/-- What is assigned from one frame is seen from the other, and what is bound nowhere is undefined.
-/
theorem search_direct_siblings :
    (∃ next, (after siblings).perform (.assign 2 "n" 5) = (next, .done) ∧
      (after siblings).perform (.assignAt 2 1 "n" 5) = (next, .done) ∧
      next.get? 1 "n" = some 5) ∧
    (after siblings).perform (.get 2 "m") = (after siblings, .failed (.undefinedVariable "m")) := by
  have least : IsLeast {d | (after siblings).BindsAt 2 "n" d} 1 := by
    refine ⟨⟨0, rfl, by decide⟩, fun distance bound => ?_⟩
    cases distance with
    | zero => exact absurd (bindsAt_zero.mp bound) (by decide)
    | succ distance => exact Nat.succ_le_succ (Nat.zero_le distance)
  have unbound : ∀ distance, ¬ (after siblings).BindsAt 2 "m" distance := by
    rintro (_ | _ | distance) bound
    · exact absurd (bindsAt_zero.mp bound) (by decide)
    · obtain ⟨_, ⟨⟩, bound⟩ := bindsAt_succ.mp bound
      exact absurd (bindsAt_zero.mp bound) (by decide)
    · obtain ⟨_, ⟨⟩, bound⟩ := bindsAt_succ.mp bound
      obtain ⟨_, ⟨⟩, _⟩ := bindsAt_succ.mp bound
  obtain ⟨_, agree, _⟩ := search_direct siblings 2 "n"
  obtain ⟨holder, old, walked, _, _, _, assigned⟩ := agree 1 least
  obtain rfl : 0 = holder := Except.ok.inj walked
  obtain ⟨next, searched, direct, rebinds⟩ := assigned 5
  have ends : (after siblings).holder? "n" 1 = some 0 := by
    rw [holder?_of_enclosing? (by decide) rfl, holder?_of_binds (by decide)]
  have seen := rebinds.seen 1 "n"
  rw [if_pos ⟨ends, rfl⟩] at seen
  refine ⟨⟨next, searched, direct, seen⟩, ?_⟩
  exact ((search_direct siblings 2 "m").2.2 unbound).1

end Store

end Lox
