import Splittable.Coordination.Gate
import Splittable.Settings
import Splittable.Work

/-!
# Signals

A tracker behind checkpoints, the threads that work on it, and the control that releases them.
Each thread does a work of its own.  A claim of the block position is held at the three claim
checkpoints and every split at the two split checkpoints; other claims run straight through.

* `Signals.stepThread` : one step of a thread, the smallest that others can observe;
* `Signals.await?`     : the control takes the token of an arrival;
* `Signals.release?`   : the control puts a token of release;
* `Signals.settle`     : the threads until all of them wait or are over.
-/

namespace Splittable

/-- The answer to a call of a thread. -/
inductive Answer where
  | claimed (granted : Bool)
  | split (result : Except Fault Split)

/-- Where a thread is: between two calls, at a checkpoint, in front of the lock of the tracker, or
under it with the effect of the call next. -/
inductive Spot where
  | outside
  | held (c : Checkpoint) (passage : Passage)
  | locking
  | inside
deriving DecidableEq, Repr

/-- A thread: what is left of its work, with a call at the front until it takes effect, and the
answers to its calls in their order. -/
structure Thread where
  work : Work Offset
  spot : Spot
  emitted : List Offset
  answers : List Answer

namespace Thread

/-- A thread at the start of a work. -/
def start (work : Work Offset) : Thread := ⟨work, .outside, [], []⟩

/-- A thread that never had anything to do. -/
def idle : Thread := .start (.finish (.ok ()))

/-- Whether everything is done. -/
def isOver (t : Thread) : Bool :=
  match t.work, t.spot with
  | .finish _, .outside => true
  | _, _ => false

end Thread

/-- A tracker behind checkpoints, with everything that takes part: the thread that holds the lock,
the offset whose claims are held, whether the control is there, and whether someone beside the
threads keeps the tracker. -/
structure Signals where
  tracker : Tracker
  lock : Option Nat
  block : Offset
  gates : Gates
  controlled : Bool
  kept : Bool
  threads : List Thread

/-- Why the control could not go on. -/
inductive ControlError where
  | timedOut (timeout : Milliseconds) (c : Checkpoint)
  | droppedBeforeReaching (c : Checkpoint)
  | droppedBeforeRelease (c : Checkpoint)
deriving DecidableEq

def ControlError.message : ControlError → String
  | .timedOut timeout c => s!"timed out after {timeout.render} waiting for checkpoint {c.name}"
  | .droppedBeforeReaching c => s!"tracker dropped before reaching checkpoint {c.name}"
  | .droppedBeforeRelease c => s!"tracker dropped before release of checkpoint {c.name}"

/-- Where a thread is that has come through a checkpoint. -/
def Checkpoint.beyond : Checkpoint → Spot
  | .claimStarted | .splitStarted => .locking
  | .claimLocked | .splitLocked => .inside
  | .claimVisible => .outside

namespace Signals

/-- A tracker behind checkpoints that nobody has come to. -/
def new (tracker : Tracker) (block : Offset) : Signals where
  tracker := tracker
  lock := none
  block := block
  gates := .clear
  controlled := true
  kept := true
  threads := []

/-! ## Steps of threads -/

/-- Where a call of the work is first: a call that is held starts at its first checkpoint. -/
def callSpot (s : Signals) : Work Offset → Spot
  | .claim position _ => if position = s.block then .held .claimStarted .toArrive else .locking
  | .split _ _ => .held .splitStarted .toArrive
  | _ => .outside

/-- Where a call of the work is once it holds the lock. -/
def lockedSpot (s : Signals) : Work Offset → Spot
  | .claim position _ => if position = s.block then .held .claimLocked .toArrive else .inside
  | .split _ _ => .held .splitLocked .toArrive
  | _ => .inside

/-- A step of a thread that is between two calls. -/
def stepOutside (s : Signals) (t : Thread) : Option Thread :=
  match t.work with
  | .finish _ => none
  | .emit output next => some { t with emitted := t.emitted ++ [output], work := next }
  | .inspect next => if s.lock.isNone then some { t with work := next s.tracker } else none
  | .claim _ _ | .split _ _ => some { t with spot := s.callSpot t.work }

/-- The effect of the call of a thread that holds the lock: the tracker and the thread after it. -/
def effect (s : Signals) (t : Thread) : Option (Tracker × Thread) :=
  match t.work with
  | .claim position next =>
    let (granted, tracker) := s.tracker.claim position
    let spot : Spot := if position = s.block then .held .claimVisible .toArrive else .outside
    some (tracker, { t with work := next granted, spot := spot,
                            answers := t.answers ++ [.claimed granted] })
  | .split fraction next =>
    let (result, tracker) := s.tracker.split fraction
    some (tracker, { t with work := next result, spot := .outside,
                            answers := t.answers ++ [.split result] })
  | _ => none

/-- One step of the thread `i`; none if it is over or has to wait. -/
def stepThread (s : Signals) (i : Nat) : Option Signals :=
  match s.threads[i]? with
  | none => none
  | some t =>
    match t.spot with
    | .outside => (s.stepOutside t).map fun t => { s with threads := s.threads.set i t }
    | .held c passage =>
      ((s.gates.get c).step s.controlled i passage).map fun (gate, passage) =>
        let spot : Spot := match passage with
          | some passage => .held c passage
          | none => c.beyond
        { s with gates := s.gates.set c gate, threads := s.threads.set i { t with spot := spot } }
    | .locking =>
      if s.lock.isNone then
        some { s with lock := some i,
                      threads := s.threads.set i { t with spot := s.lockedSpot t.work } }
      else none
    | .inside =>
      (s.effect t).map fun (tracker, t) =>
        { s with tracker := tracker, lock := none, threads := s.threads.set i t }

/-! ## The control -/

/-- Nobody can come to the checkpoints any more. -/
def closed (s : Signals) : Bool :=
  !s.kept && s.threads.all (·.isOver)

/-- Takes the token of an arrival at a checkpoint, which leaves the thread held; none if there is
none yet. -/
def await? (s : Signals) (c : Checkpoint) : Option (Except ControlError Signals) :=
  let gate := s.gates.get c
  if gate.arrival then some (.ok { s with gates := s.gates.set c { gate with arrival := false } })
  else if s.closed then some (.error (.droppedBeforeReaching c))
  else none

/-- Puts a token of release at a checkpoint; none if there is no room for it. -/
def release? (s : Signals) (c : Checkpoint) : Option (Except ControlError Signals) :=
  let gate := s.gates.get c
  if s.closed then some (.error (.droppedBeforeRelease c))
  else if gate.release then none
  else some (.ok { s with gates := s.gates.set c { gate with release := true } })

/-- Gives up the control; nobody is held from then on. -/
def dropControl (s : Signals) : Signals :=
  { s with controlled := false }

/-- Gives up the tracker on the side of the control. -/
def dropTracker (s : Signals) : Signals :=
  { s with kept := false }

/-- A further thread, after all others. -/
def spawn (s : Signals) (work : Work Offset) : Signals :=
  { s with threads := s.threads ++ [.start work] }

/-! ## Coming to rest -/

/-- A step of the first thread that can take one. -/
def stepAny (s : Signals) : Option Signals :=
  (List.range s.threads.length).findSome? s.stepThread

/-- Steps of the threads, `fuel` of them at most, until every thread waits or is over. -/
def settle : Nat → Signals → Signals
  | 0, s => s
  | fuel + 1, s =>
    match s.stepAny with
    | some s => settle fuel s
    | none => s

/-- The steps of one call at most: two checkpoints of four steps each, the lock, the effect, and a
third checkpoint. -/
def stepsPerCall : Nat := 16

end Signals

end Splittable
