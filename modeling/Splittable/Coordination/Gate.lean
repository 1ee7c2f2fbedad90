import Splittable.Coordination.Checkpoint

/-!
# Gates

The gate of a checkpoint has an arrival slot and a release slot, each with room for one token.  A
thread that comes to the gate puts a token into the arrival slot and then takes one from the
release slot.  Only one thread at a time stands at either slot; the others wait for their turn.
Without a control nobody is held.

* `Gate.step` : one step of a thread through a gate.
-/

namespace Splittable

/-- How far a thread has come through a gate: it waits for its turn at the arrival slot, stands
there and waits for room, waits for its turn at the release slot, or stands there and waits for a
token. -/
inductive Passage where
  | toArrive
  | arriving
  | toLeave
  | leaving
deriving DecidableEq, Repr

/-- The gate of one checkpoint: whether there are tokens in the slots of arrival and release, and
the threads that stand at them. -/
structure Gate where
  arrival : Bool
  release : Bool
  arriving : Option Nat
  leaving : Option Nat
deriving DecidableEq, Repr

namespace Gate

/-- No tokens and no threads. -/
def clear : Gate := ⟨false, false, none, none⟩

/-- One step of the thread `i` through the gate; none if it has to wait.  With the step comes how
far it is then, or that it is through. -/
def step (controlled : Bool) (i : Nat) (g : Gate) : Passage → Option (Gate × Option Passage)
  | .toArrive =>
    if g.arriving.isNone then some ({ g with arriving := some i }, some .arriving) else none
  | .arriving =>
    if !controlled then some ({ g with arriving := none }, none)
    else if g.arrival then none
    else some ({ g with arrival := true, arriving := none }, some .toLeave)
  | .toLeave =>
    if g.leaving.isNone then some ({ g with leaving := some i }, some .leaving) else none
  | .leaving =>
    if g.release then some ({ g with release := false, leaving := none }, none)
    else if controlled then none
    else some ({ g with leaving := none }, none)

end Gate

/-- The gates of all checkpoints. -/
structure Gates where
  claimStarted : Gate
  claimLocked : Gate
  claimVisible : Gate
  splitStarted : Gate
  splitLocked : Gate
deriving DecidableEq, Repr

namespace Gates

def clear : Gates := ⟨.clear, .clear, .clear, .clear, .clear⟩

def get (g : Gates) : Checkpoint → Gate
  | .claimStarted => g.claimStarted
  | .claimLocked => g.claimLocked
  | .claimVisible => g.claimVisible
  | .splitStarted => g.splitStarted
  | .splitLocked => g.splitLocked

def set (g : Gates) (c : Checkpoint) (gate : Gate) : Gates :=
  match c with
  | .claimStarted => { g with claimStarted := gate }
  | .claimLocked => { g with claimLocked := gate }
  | .claimVisible => { g with claimVisible := gate }
  | .splitStarted => { g with splitStarted := gate }
  | .splitLocked => { g with splitLocked := gate }

@[simp] theorem get_set (g : Gates) (c : Checkpoint) (gate : Gate) :
    (g.set c gate).get c = gate := by
  cases c <;> rfl

@[simp] theorem get_set_of_ne (g : Gates) {c d : Checkpoint} (gate : Gate) (h : c ≠ d) :
    (g.set c gate).get d = g.get d := by
  cases c <;> cases d <;> simp_all [get, set]

end Gates

end Splittable
