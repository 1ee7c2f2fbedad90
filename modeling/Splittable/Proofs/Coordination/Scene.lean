import Splittable.Proofs.Coordination.Coherence

/-!
# Scenes

A scene is a tracker behind checkpoints with everybody who acts on it: threads, of which another one
can be started at any time, and the control, which makes one call after the other.  Who takes the
next step is left open.  A history is any list of events, and an event whose turn it is not changes
nothing.  What can be seen of the steps is written down in their order.

* `Sighting`, `Thread.shows` : what can be seen of a step;
* `Scene.step`           : one event, if its turn is now;
* `Scene.Steps`          : what an event can do to a scene;
* `Scene.run_induction`  : what every event keeps holds after a history.
-/

namespace Splittable

/-! ## Sightings -/

/-- A call of a thread to the tracker. -/
inductive Call where
  | claim (p : Offset)
  | split (f : Binary64)

/-- The call that a work begins with. -/
def Work.call? {Output : Type} : Work Output → Option Call
  | .claim p _ => some (.claim p)
  | .split f _ => some (.split f)
  | _ => none

/-- The checkpoints at which a call is held: the claims of one offset, and every split. -/
def Call.HeldAt (block : Offset) : Call → Checkpoint → Prop
  | .claim p, .claimStarted | .claim p, .claimLocked | .claim p, .claimVisible => p = block
  | .split _, .splitStarted | .split _, .splitLocked => True
  | _, _ => False

/-- What can be seen of the steps of a scene: a thread comes to a checkpoint with a call, goes on
from it, takes the lock for a call or has the answer to it; and how a call of the control ends. -/
inductive Sighting where
  | reached (i : Nat) (call : Option Call) (c : Checkpoint)
  | passed (i : Nat) (c : Checkpoint)
  | locked (i : Nat) (call : Call)
  | answered (i : Nat) (answer : Answer)
  | awaited (c : Checkpoint)
  | released (c : Checkpoint)
  | failed (error : ControlError)

/-- The checkpoint at which a thread is. -/
def Spot.checkpoint? : Spot → Option Checkpoint
  | .held c _ => some c
  | _ => none

namespace Thread

/-- The checkpoint that a thread comes to with a step from `t` to `t'`. -/
def comesTo (t t' : Thread) : Option Checkpoint :=
  if t'.spot.checkpoint? = t.spot.checkpoint? then none else t'.spot.checkpoint?

/-- The checkpoint that a thread goes on from with a step from `t` to `t'`. -/
def goesFrom (t t' : Thread) : Option Checkpoint :=
  if t'.spot.checkpoint? = t.spot.checkpoint? then none else t.spot.checkpoint?

/-- The call for which a thread takes the lock with a step from `t`. -/
def locks (t : Thread) : Option Call :=
  if t.spot = .locking then t.work.call? else none

/-- The answer that a thread has from a step from `t` to `t'`. -/
def hears (t t' : Thread) : Option Answer :=
  if t.spot = .inside then t'.answers.getLast? else none

/-- What can be seen of a step of the thread `i` that makes `t` into `t'`. -/
def shows (i : Nat) (t t' : Thread) : List Sighting :=
  (t.goesFrom t').toList.map (.passed i) ++ t.locks.toList.map (.locked i) ++
    (t.hears t').toList.map (.answered i) ++ (t.comesTo t').toList.map (.reached i t.work.call?)

end Thread

/-- What can be seen of a step of the thread `i` from `s` to `s'`. -/
def Signals.shows (s s' : Signals) (i : Nat) : List Sighting :=
  match s.threads[i]?, s'.threads[i]? with
  | some t, some t' => t.shows i t'
  | _, _ => []

/-! ## Scenes -/

/-- A call of the control; `pass` awaits and then releases. -/
inductive ControlCall where
  | await (c : Checkpoint)
  | release (c : Checkpoint)
  | pass (c : Checkpoint)

/-- A tracker behind checkpoints, and everybody who acts on it, with the time that the control
waits, the call that it is at, and what was seen so far. -/
structure Scene where
  signals : Signals
  timeout : Milliseconds
  calling : Option ControlCall
  seen : List Sighting

/-- What can happen next.  With `call` the control begins a call and with `proceed` it goes on with
it, until it is over or its time runs out. -/
inductive Event where
  | start (work : Work Offset)
  | step (i : Nat)
  | call (call : ControlCall)
  | proceed
  | timeout
  | dropTracker
  | dropControl

namespace Scene

/-- A scene at its beginning. -/
def new (tracker : Tracker) (block : Offset) (timeout : Milliseconds) : Scene :=
  ⟨.new tracker block, timeout, none, []⟩

/-- The end of a call of the control that failed. -/
def fail (sc : Scene) (error : ControlError) : Scene :=
  { sc with calling := none, seen := sc.seen ++ [.failed error] }

/-- The result of awaiting an arrival, after which the control goes on with `next`. -/
def arrive (sc : Scene) (c : Checkpoint) (next : Option ControlCall) :
    Except ControlError Signals → Scene
  | .ok s => { sc with signals := s, calling := next, seen := sc.seen ++ [.awaited c] }
  | .error error => sc.fail error

/-- The result of a release. -/
def letGo (sc : Scene) (c : Checkpoint) : Except ControlError Signals → Scene
  | .ok s => { sc with signals := s, calling := none, seen := sc.seen ++ [.released c] }
  | .error error => sc.fail error

/-- The control goes on with its call; none if it has none or has to wait. -/
def proceed (sc : Scene) : Option Scene :=
  match sc.calling with
  | none => none
  | some (.await c) => (sc.signals.await? c).map (sc.arrive c none)
  | some (.release c) => (sc.signals.release? c).map (sc.letGo c)
  | some (.pass c) => (sc.signals.await? c).map (sc.arrive c (some (.release c)))

/-- The time runs out for a control that awaits a thread, whether it has just arrived or not. -/
def expire (sc : Scene) : Option Scene :=
  match sc.calling with
  | some (.await c) | some (.pass c) => some (sc.fail (.timedOut sc.timeout c))
  | _ => none

/-- One event; none if its turn is not now.  A thread is started by somebody who has the tracker,
and the control makes one call at a time. -/
def step (sc : Scene) : Event → Option Scene
  | .start work =>
    if sc.signals.closed then none else some { sc with signals := sc.signals.spawn work }
  | .step i => (sc.signals.stepThread i).map fun s =>
    { sc with signals := s, seen := sc.seen ++ sc.signals.shows s i }
  | .call call =>
    if sc.signals.controlled && sc.calling.isNone then some { sc with calling := some call }
    else none
  | .proceed => sc.proceed
  | .timeout => sc.expire
  | .dropTracker => some { sc with signals := sc.signals.dropTracker }
  | .dropControl =>
    if sc.calling.isNone then some { sc with signals := sc.signals.dropControl } else none

/-- One event.  An event whose turn it is not changes nothing. -/
def act (sc : Scene) (e : Event) : Scene :=
  (sc.step e).getD sc

/-- A history of events. -/
def run (sc : Scene) (events : List Event) : Scene :=
  events.foldl act sc

/-! ## What an event can do -/

/-- What an event can do to a scene. -/
inductive Steps (sc : Scene) : Scene → Prop where
  | start (work : Work Offset) : sc.signals.closed = false →
      Steps sc { sc with signals := sc.signals.spawn work }
  | thread (i : Nat) (t : Thread) (s' : Signals) : sc.signals.threads[i]? = some t →
      sc.signals.Moves i t s' →
      Steps sc { sc with signals := s', seen := sc.seen ++ sc.signals.shows s' i }
  | call (call : ControlCall) : sc.signals.controlled = true → sc.calling = none →
      Steps sc { sc with calling := some call }
  | fail (error : ControlError) : sc.calling ≠ none → Steps sc (sc.fail error)
  | arrive (c : Checkpoint) (next : Option ControlCall) :
      (sc.signals.gates.get c).arrival = true → sc.calling ≠ none →
      Steps sc { sc with
        signals := { sc.signals with
          gates := sc.signals.gates.set c { sc.signals.gates.get c with arrival := false } }
        calling := next
        seen := sc.seen ++ [.awaited c] }
  | release (c : Checkpoint) : (sc.signals.gates.get c).release = false → sc.calling ≠ none →
      Steps sc { sc with
        signals := { sc.signals with
          gates := sc.signals.gates.set c { sc.signals.gates.get c with release := true } }
        calling := none
        seen := sc.seen ++ [.released c] }
  | dropTracker : Steps sc { sc with signals := sc.signals.dropTracker }
  | dropControl : sc.calling = none → Steps sc { sc with signals := sc.signals.dropControl }

variable {sc sc' : Scene} {c : Checkpoint}

theorem steps_arrive {result : Except ControlError Signals} (next : Option ControlCall)
    (hcalling : sc.calling ≠ none) (h : sc.signals.await? c = some result) :
    Steps sc (sc.arrive c next result) := by
  unfold Signals.await? at h
  dsimp only at h
  split at h
  · cases h
    exact .arrive c next ‹_› hcalling
  · split at h
    · cases h
      exact .fail _ hcalling
    · cases h

theorem steps_letGo {result : Except ControlError Signals} (hcalling : sc.calling ≠ none)
    (h : sc.signals.release? c = some result) : Steps sc (sc.letGo c result) := by
  unfold Signals.release? at h
  dsimp only at h
  split at h
  · cases h
    exact .fail _ hcalling
  · split at h
    · cases h
    · rename_i hrelease
      cases h
      exact .release c (by simpa using hrelease) hcalling

theorem steps_proceed (h : sc.proceed = some sc') : Steps sc sc' := by
  unfold proceed at h
  split at h
  · cases h
  · obtain ⟨result, hresult, rfl⟩ := Option.map_eq_some_iff.1 h
    exact steps_arrive none (by simp [*]) hresult
  · obtain ⟨result, hresult, rfl⟩ := Option.map_eq_some_iff.1 h
    exact steps_letGo (by simp [*]) hresult
  · obtain ⟨result, hresult, rfl⟩ := Option.map_eq_some_iff.1 h
    exact steps_arrive _ (by simp [*]) hresult

/-- **An event does one of these things**, if its turn is now. -/
theorem steps_of_step {e : Event} (h : sc.step e = some sc') : Steps sc sc' := by
  cases e with
  | start work =>
    simp only [step] at h
    split at h
    · cases h
    · rename_i hclosed
      cases h
      exact .start work (by simpa using hclosed)
  | step i =>
    obtain ⟨s', hs, rfl⟩ := Option.map_eq_some_iff.1 h
    obtain ⟨t, ht, hmove⟩ := Signals.stepThread_iff.1 hs
    exact .thread i t s' ht hmove
  | call call =>
    simp only [step, Bool.and_eq_true, Option.isNone_iff_eq_none] at h
    split at h
    · rename_i hfree
      cases h
      exact .call call hfree.1 hfree.2
    · cases h
  | proceed => exact steps_proceed h
  | timeout =>
    simp only [step, expire] at h
    split at h
    · cases h
      exact .fail _ (by simp [*])
    · cases h
      exact .fail _ (by simp [*])
    · cases h
  | dropTracker =>
    cases h
    exact .dropTracker
  | dropControl =>
    simp only [step, Option.isNone_iff_eq_none] at h
    split at h
    · cases h
      exact .dropControl ‹_›
    · cases h

/-- **What every event keeps holds after a history.** -/
theorem run_induction {P : Scene → Prop} (hstep : ∀ sc sc', P sc → Steps sc sc' → P sc')
    (h : P sc) (events : List Event) : P (sc.run events) := by
  induction events generalizing sc with
  | nil => exact h
  | cons e events ih =>
    refine ih ?_
    unfold act
    cases hact : sc.step e with
    | none => exact h
    | some sc' => exact hstep sc sc' h (steps_of_step hact)

end Scene

/-! ## Threads in a step -/

namespace Signals

variable {s s' : Signals} {i : Nat} {t t' : Thread}

theorem shows_put {p : Signals} (hi : s.threads[i]? = some t) (hthreads : p.threads = s.threads) :
    s.shows (p.put i t') i = t.shows i t' := by
  have hput : (p.put i t').threads[i]? = some t' := by
    rw [threads_put (by rw [hthreads, hi]), if_pos rfl]
  simp only [shows, hi, hput]

section Spots

variable {work : Work Offset} {c : Checkpoint} {x : Passage}

/-- From where a call begins it comes to a checkpoint only if it is held there. -/
theorem callSpot_held (h : s.callSpot work = .held c x) :
    x = .toArrive ∧ ∃ call, work.call? = some call ∧ call.HeldAt s.block c := by
  cases work with
  | claim p next =>
    by_cases hp : p = s.block
    · rw [callSpot, if_pos hp] at h
      cases h
      exact ⟨rfl, _, rfl, hp⟩
    · rw [callSpot, if_neg hp] at h
      cases h
  | split =>
    cases h
    exact ⟨rfl, _, rfl, trivial⟩
  | finish | emit | inspect => cases h

theorem lockedSpot_held (h : s.lockedSpot work = .held c x) :
    x = .toArrive ∧ ∃ call, work.call? = some call ∧ call.HeldAt s.block c := by
  cases work with
  | claim p next =>
    by_cases hp : p = s.block
    · rw [lockedSpot, if_pos hp] at h
      cases h
      exact ⟨rfl, _, rfl, hp⟩
    · rw [lockedSpot, if_neg hp] at h
      cases h
  | split =>
    cases h
    exact ⟨rfl, _, rfl, trivial⟩
  | finish | emit | inspect => cases h

theorem claimedSpot_held {p : Offset} (h : s.claimedSpot p = .held c x) :
    x = .toArrive ∧ (Call.claim p).HeldAt s.block c := by
  by_cases hp : p = s.block
  · rw [claimedSpot, if_pos hp] at h
    cases h
    exact ⟨rfl, hp⟩
  · rw [claimedSpot, if_neg hp] at h
    cases h

end Spots

/-- A step of a thread goes through a gate, or it comes from no checkpoint and leaves the gates as
they are; then it can only come to the entrance of one, with a call that is held there. -/
inductive Transit (s : Signals) (i : Nat) (t : Thread) (s' : Signals) (t' : Thread) : Prop where
  | free : s'.gates = s.gates → t.spot.checkpoint? = none →
      (∀ c x, t'.spot = .held c x →
        x = .toArrive ∧ ∃ call, t.work.call? = some call ∧ call.HeldAt s.block c) →
      Transit s i t s' t'
  | gate (c : Checkpoint) (x : Passage) (g : Gate) (y : Option Passage) :
      t.spot = .held c x → Gate.Moves s.controlled i (s.gates.get c) x g y →
      s'.gates = s.gates.set c g → t'.spot = c.spot y → Transit s i t s' t'

theorem Moves.transit (hi : s.threads[i]? = some t) (h : s.Moves i t s') :
    ∃ t', s'.threads = s.threads.set i t' ∧ s.shows s' i = t.shows i t' ∧
      Transit s i t s' t' := by
  cases h with
  | emit hs | look hs =>
    exact ⟨_, rfl, shows_put hi rfl, .free rfl (by simp [hs, Spot.checkpoint?]) (by simp [hs])⟩
  | call hs =>
    exact ⟨_, rfl, shows_put hi rfl, .free rfl (by simp [hs, Spot.checkpoint?])
      fun c x hx => callSpot_held hx⟩
  | pass hs hg => exact ⟨_, rfl, shows_put hi rfl, .gate _ _ _ _ hs hg rfl rfl⟩
  | lock hs =>
    exact ⟨_, rfl, shows_put hi rfl, .free rfl (by simp [hs, Spot.checkpoint?])
      fun c x hx => lockedSpot_held hx⟩
  | claim hs hw =>
    refine ⟨_, rfl, shows_put hi rfl, .free rfl (by simp [hs, Spot.checkpoint?]) ?_⟩
    intro c x hx
    obtain ⟨hentrance, hheld⟩ := claimedSpot_held hx
    exact ⟨hentrance, _, by rw [hw]; rfl, hheld⟩
  | split hs =>
    exact ⟨_, rfl, shows_put hi rfl, .free rfl (by simp [hs, Spot.checkpoint?]) nofun⟩

end Signals

end Splittable
