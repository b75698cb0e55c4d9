/-
**Environments.** A store of frames, one for every scope that was entered, each with a link to the
frame that encloses it.

* A frame encloses only frames made after it. That is part of the type `Store`, and it is why every
  search outward ends.
* `holder?` searches outward for the frame that binds a name; `get?` and `assign?` use it.
* `ancestor` walks a given number of links outward; `getAt` and `assignAt` use it.
-/

import Lox.Bindings

namespace Lox

/-- What the names of a scope stand for, and the frame of the scope around it. -/
structure Frame (α : Type) where
  bindings : Bindings α
  enclosing : Option Nat

/-- The frames, numbered in the order in which they were made. -/
structure Store (α : Type) where
  frames : Array (Frame α)
  older : ∀ (index : Nat) (inside : index < frames.size) (outer : Nat),
    frames[index].enclosing = some outer → outer < index

/-- How direct access to a frame can fail. -/
inductive Access where
  /-- The walk left the outermost frame. -/
  | pastRoot
  /-- The frame does not bind the name. -/
  | unbound (name : String)
deriving DecidableEq

namespace Store

variable {α : Type}

/-- The store without frames. -/
def empty : Store α where
  frames := #[]
  older := by simp

instance : Inhabited (Store α) := ⟨empty⟩

/-- The number that the next frame will have. -/
def size (store : Store α) : Nat :=
  store.frames.size

/-- Makes a frame inside an existing one, or one that nothing encloses. -/
def push (store : Store α) (enclosing : Option Nat) : Store α where
  frames := store.frames.push ⟨[], enclosing.filter (· < store.frames.size)⟩
  older := by
    intro index inside outer link
    rw [Array.getElem_push] at link
    split at link
    · rename_i old
      exact store.older index old outer link
    · simp only [Option.filter_eq_some_iff, decide_eq_true_eq] at link
      simp only [Array.size_push] at inside
      omega

/-- Changes the bindings of a frame. -/
def modify (store : Store α) (frame : Nat) (change : Bindings α → Bindings α) : Store α where
  frames := store.frames.modify frame fun old => { old with bindings := change old.bindings }
  older := by
    intro index inside outer link
    rw [Array.getElem_modify] at link
    have inside : index < store.frames.size := by simpa using inside
    split at link <;> exact store.older index inside outer link

/-- The bindings of a frame. -/
def bindings (store : Store α) (frame : Nat) : Bindings α :=
  match store.frames[frame]? with
  | some found => found.bindings
  | none => []

/-- The frame that encloses a frame. -/
def enclosing? (store : Store α) (frame : Nat) : Option Nat :=
  match store.frames[frame]? with
  | some found => found.enclosing
  | none => none

/-- A frame lies inside an older one. -/
theorem enclosing?_lt {store : Store α} {frame outer : Nat}
    (link : store.enclosing? frame = some outer) : outer < frame := by
  unfold enclosing? at link
  split at link
  · rename_i found here
    obtain ⟨inside, rfl⟩ := Array.getElem?_eq_some_iff.mp here
    exact store.older frame inside outer link
  · simp at link

/-- Lets a name stand for a value in a frame. -/
def define (store : Store α) (frame : Nat) (name : String) (value : α) : Store α :=
  store.modify frame (·.set name value)

/-- Whether a frame itself binds a name. -/
def binds (store : Store α) (frame : Nat) (name : String) : Bool :=
  (store.bindings frame).has name

/-! ### Searching outward -/

/-- The first frame that binds a name, from the given one outward. -/
def holder? (store : Store α) (name : String) (frame : Nat) : Option Nat :=
  if store.binds frame name then some frame
  else
    match _link : store.enclosing? frame with
    | none => none
    | some outer => holder? store name outer
termination_by frame
decreasing_by exact enclosing?_lt _link

/-- What a name stands for, from a frame outward. -/
def get? (store : Store α) (frame : Nat) (name : String) : Option α :=
  match store.holder? name frame with
  | none => none
  | some holder => (store.bindings holder).get? name

/-- Changes what a name stands for in the first frame that binds it. -/
def assign? (store : Store α) (frame : Nat) (name : String) (value : α) : Option (Store α) :=
  (store.holder? name frame).map fun holder => store.define holder name value

/-! ### Direct access -/

/-- Walks links outward. The walk may end just past the outermost frame, where there is nothing,
but it cannot go on from there. -/
def walk (store : Store α) : (place : Option Nat) → (distance : Nat) → Except Access (Option Nat)
  | place, 0 => .ok place
  | none, _ + 1 => .error .pastRoot
  | some frame, distance + 1 => walk store (store.enclosing? frame) distance

/-- What lies a number of links out from a frame. -/
def ancestor (store : Store α) (frame distance : Nat) : Except Access (Option Nat) :=
  store.walk (some frame) distance

/-- The frame a number of links out from a frame. -/
def frameAt (store : Store α) (frame distance : Nat) : Except Access Nat :=
  match store.ancestor frame distance with
  | .error fault => .error fault
  | .ok none => .error .pastRoot
  | .ok (some found) => .ok found

/-- What a name stands for in the frame a number of links out. -/
def getAt (store : Store α) (frame distance : Nat) (name : String) : Except Access α :=
  match store.frameAt frame distance with
  | .error fault => .error fault
  | .ok found =>
    match (store.bindings found).get? name with
    | some value => .ok value
    | none => .error (.unbound name)

/-- Changes what a name stands for in the frame a number of links out. -/
def assignAt (store : Store α) (frame distance : Nat) (name : String) (value : α) :
    Except Access (Store α) :=
  match store.frameAt frame distance with
  | .error fault => .error fault
  | .ok found => .ok (store.define found name value)

end Store

end Lox
