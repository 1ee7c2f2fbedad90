import Splittable.Span

/-!
# Trackers

A tracker owns the work in one span.  Offsets are claimed in strictly increasing order; the work
that is not yet claimed can be split, which moves the end of the span but never below the cursor.
A tracker stops when a claim reaches the end, or with the first fault.

* `Tracker.claim`     : attempt an offset;
* `Tracker.split`     : keep a fraction of the unclaimed work and hand back the rest;
* `Tracker.checkDone` : whether every offset was attempted.
-/

namespace Splittable

/-- The state of the work in one span: the span as currently owned, with the part that is claimed;
the offset of the last claim that was attempted in order; whether further claims are refused; and
the first fault that was recorded. -/
structure Tracker where
  span : Span
  lastAttempted : Option Offset
  stopped : Bool
  fault : Option Fault
deriving DecidableEq

namespace Tracker

/-- A tracker of the whole of a span. -/
def new (span : Span) : Tracker :=
  ⟨span, none, false, none⟩

/-- The next offset that has not been attempted. -/
def cursor (t : Tracker) : Offset :=
  match t.lastAttempted with
  | some last => last.after
  | none => t.span.start

/-- Stops the tracker.  The first fault is kept; later ones follow from it. -/
def record (t : Tracker) (fault : Fault) : Tracker :=
  { t with stopped := true, fault := t.fault.or (some fault) }

/-- Moves past an offset that is in order.  It is granted unless the end of the span is reached,
which stops the tracker. -/
def attempt (t : Tracker) (position : Offset) : Bool × Tracker :=
  if t.span.stop ≤ position then
    (false, { t with lastAttempted := some position, stopped := true })
  else (true, { t with lastAttempted := some position })

/-- Attempts an offset.  It is granted if it lies in the span and past every earlier attempt. -/
def claim (t : Tracker) (position : Offset) : Bool × Tracker :=
  if t.stopped then (false, t)
  else if position < t.span.start then
    (false, t.record (.claimBeforeStart (toString position) (toString t.span)))
  else
    match t.lastAttempted with
    | some last =>
      if position ≤ last then
        (false, t.record (.nonMonotonicClaim (toString position) (toString last)))
      else t.attempt position
    | none => t.attempt position

/-- The width of the unclaimed work. -/
def unclaimed (t : Tracker) : Int :=
  t.span.stop.toInt - t.cursor.toInt

/-- How far behind the cursor a split at `fraction` falls, before it is held to the unclaimed
work. -/
def splitDistance (t : Tracker) (fraction : Binary64) : Int :=
  (Binary64.ofInt t.unclaimed * fraction).floor

/-- Splits the unclaimed work at a fraction of its width.  The tracker keeps the primary; a split
that is refused leaves it as it was. -/
def split (t : Tracker) (fraction : Binary64) : Except Fault Split × Tracker :=
  if ¬ fraction.InUnit then (.error (.invalidFraction fraction), t)
  else if t.stopped ∨ t.span.stop ≤ t.cursor then
    (.error (.nothingToSplit (toString t.span)), t)
  else
    let distance := t.splitDistance fraction
    match Offset.ofInt? (t.cursor.toInt + max 0 (min distance t.unclaimed)) with
    | none =>
      (.error (.invalidSplitPoint (toString (t.cursor.toInt + distance)) (toString t.span)), t)
    | some point =>
      match t.span.cutAt point with
      | .error fault => (.error fault, t)
      | .ok (kept, residual) => (.ok ⟨⟨t.cursor, point⟩, residual⟩, { t with span := kept })

/-- Gives up all unclaimed work. -/
def checkpoint (t : Tracker) : Except Fault Split × Tracker :=
  t.split .zero

/-- The work done and remaining.  A span whose size is negative has no progress. -/
def progress (t : Tracker) : Option Progress :=
  let size := t.span.size
  if Binary64.zero ≤ size then
    let ahead := Binary64.ofInt t.span.stop.toInt - Binary64.ofInt t.cursor.toInt
    let remaining := ahead.clamp .zero size
    some ⟨size - remaining, remaining⟩
  else none

/-- Whether no claim can be granted any more. -/
def isDone (t : Tracker) : Bool :=
  t.fault.isSome || t.stopped || t.span.stop ≤ t.cursor

/-- Records that the work failed, at the last attempted offset. -/
def fail (t : Tracker) (reason : String) : Tracker :=
  let position := match t.lastAttempted with
    | some last => toString last
    | none => "none"
  t.record (.processing position reason)

/-- The recorded fault, or the fault that some offset was never attempted. -/
def checkDone (t : Tracker) : Except Fault Unit :=
  match t.fault with
  | some fault => .error fault
  | none =>
    if t.span.isEmpty ∨ t.span.stop ≤ t.cursor then .ok ()
    else .error (.unfinished (toString t.span) (toString t.cursor))

/-! ## Claiming everything -/

theorem attempt_span (t : Tracker) (p : Offset) : (t.attempt p).2.span = t.span := by
  unfold attempt; split <;> rfl

@[simp] theorem claim_span (t : Tracker) (p : Offset) : (t.claim p).2.span = t.span := by
  unfold claim
  split
  · rfl
  split
  · rfl
  split
  · split
    · rfl
    · exact attempt_span t p
  · exact attempt_span t p

theorem lt_of_attempt {t : Tracker} {p : Offset} (h : (t.attempt p).1 = true) :
    p < t.span.stop := by
  unfold attempt at h
  split at h
  · cases h
  · exact Int64.not_le.1 ‹_›

/-- An offset that is granted lies before the end of the span. -/
theorem lt_of_claim {t : Tracker} {p : Offset} (h : (t.claim p).1 = true) : p < t.span.stop := by
  unfold claim at h
  split at h
  · cases h
  split at h
  · cases h
  split at h
  · split at h
    · cases h
    · exact lt_of_attempt h
  · exact lt_of_attempt h

/-- Claims `position`, the offset after it, and so on until a claim is not granted; the granted
offsets. -/
def claimFrom (t : Tracker) (position : Offset) : List Offset × Tracker :=
  match _h : t.claim position with
  | (false, t') => ([], t')
  | (true, t') =>
    let (claimed, last) := t'.claimFrom (position + 1)
    (position :: claimed, last)
termination_by (t.span.stop.toInt - position.toInt).toNat
decreasing_by
  have hlt : position < t.span.stop := lt_of_claim (by rw [_h])
  have hspan : t'.span = t.span := by rw [← claim_span t position, _h]
  have := Int64.lt_iff_toInt_lt.1 hlt
  rw [hspan, Offset.toInt_add_one hlt]
  omega

/-- Claims every offset from the cursor on. -/
def claimAll (t : Tracker) : List Offset × Tracker :=
  t.claimFrom t.cursor

end Tracker

end Splittable
