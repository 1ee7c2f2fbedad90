import Splittable.Tally
import Splittable.Tracker

/-!
# Crews

A crew is a number of trackers in shared use.  Every operation holds the lock of its tracker
while it takes effect, and goes through a handle, which says whether what it came to is counted in
the tally of the crew.  A handle can be cloned: the clone leads to the same tracker and counts as
the handle does.  A split handle is made from a handle, takes split requests only and keeps the
residuals of the splits that went through it.

* `Crew.perform`      : one request through a handle; its reply and the crew after it;
* `Crew.splitThrough` : one request through a split handle;
* `Crew.clone`, `Crew.splitHandle` : further handles.
-/

namespace Splittable

/-- The reasons of a failure, from the outermost context to the root cause. -/
abbrev Chain := List String

/-- The reasons in one line. -/
def Chain.message (chain : Chain) : String :=
  ": ".intercalate chain

/-- A tracker in shared use, and whether some operation holds its lock. -/
structure Member where
  tracker : Tracker
  locked : Bool

/-- A handle to the tracker at a place among the members; what is done through it may be counted. -/
structure Handle where
  place : Nat
  counted : Bool

/-- A handle for split requests, with the residuals of the splits that went through it. -/
structure SplitHandle where
  handle : Handle
  residuals : List Span

/-- A request to a tracker in shared use. -/
inductive Request where
  | claim (position : Offset)
  | split (fraction : Binary64)
  | checkpoint
  | fail (reasons : Chain)
  | checkDone

/-- The reply to a request. -/
inductive Reply where
  | claimed (granted : Bool)
  | split (result : Except Fault Split)
  | failed
  | checked (result : Except Fault Unit)

/-- Trackers in shared use, the handles to them, and one tally for what is counted. -/
structure Crew where
  members : List Member
  handles : List Handle
  splitHandles : List SplitHandle
  tally : Tally

namespace Member

/-- A tracker of a span that nobody has used. -/
def new (span : Span) : Member :=
  ⟨.new span, false⟩

/-- Takes the lock. -/
def lock (m : Member) : Member :=
  { m with locked := true }

/-- What a request does to the tracker while it holds the lock, the reply, and how it counts. -/
def act (m : Member) : Request → Reply × Member × (Tally → Tally)
  | .claim position =>
    let (granted, t) := m.tracker.claim position
    (.claimed granted, { m with tracker := t }, (·.countClaim granted))
  | .split fraction =>
    let (result, t) := m.tracker.split fraction
    (.split result, { m with tracker := t }, (·.countSplit result.isOk))
  | .checkpoint =>
    let (result, t) := m.tracker.checkpoint
    (.split result, { m with tracker := t }, (·.countSplit result.isOk))
  | .fail reasons =>
    (.failed, { m with tracker := m.tracker.fail (Chain.message reasons) }, (·.countFailure))
  | .checkDone => (.checked m.tracker.checkDone, m, id)

end Member

/-- The work that a reply hands back, if any. -/
def Reply.residual : Reply → List Span
  | .split (.ok parts) => if parts.hasResidual then [parts.residual] else []
  | _ => []

namespace Crew

/-- A crew that nobody has used, with a member for each span and one handle to each, in this order;
what is done through the handle is counted if the tracker is attached to the tally. -/
def new (spans : List (Span × Bool)) : Crew where
  members := spans.map fun (span, _) => .new span
  handles := spans.mapIdx fun place (_, attached) => ⟨place, attached⟩
  splitHandles := []
  tally := .empty

/-- A request through a handle.  The hook sees the member after the lock was taken and before the
request takes effect. -/
def performThrough {α : Type} (c : Crew) (h : Handle) (request : Request) (hook : Member → α) :
    Option (Reply × α × Crew) := do
  let m ← c.members[h.place]?
  let seen := hook m.lock
  let (reply, held, count) := m.lock.act request
  let members := c.members.set h.place { held with locked := false }
  return (reply, seen,
    { c with members := members, tally := if h.counted then count c.tally else c.tally })

/-- A request through the handle `i`, with a hook; none if there is no such handle. -/
def performInspecting {α : Type} (c : Crew) (i : Nat) (request : Request) (hook : Member → α) :
    Option (Reply × α × Crew) := do
  let h ← c.handles[i]?
  c.performThrough h request hook

/-- A request through the handle `i`; none if there is no such handle. -/
def perform (c : Crew) (i : Nat) (request : Request) : Option (Reply × Crew) :=
  (c.performInspecting i request fun _ => ()).map fun (reply, _, c) => (reply, c)

/-- A split through the split handle `k`, which keeps the residual. -/
def splitThrough (c : Crew) (k : Nat) (fraction : Binary64) : Option (Reply × Crew) := do
  let s ← c.splitHandles[k]?
  let (reply, _, c) ← c.performThrough s.handle (.split fraction) fun _ => ()
  let kept := { s with residuals := s.residuals ++ reply.residual }
  return (reply, { c with splitHandles := c.splitHandles.set k kept })

/-- A clone of the handle `i`, after all others. -/
def clone (c : Crew) (i : Nat) : Crew :=
  { c with handles := c.handles ++ (c.handles[i]?).toList }

/-- A split handle made from a clone of the handle `i`, after all others. -/
def splitHandle (c : Crew) (i : Nat) : Crew :=
  { c with splitHandles := c.splitHandles ++ ((c.handles[i]?).map (⟨·, []⟩)).toList }

end Crew

end Splittable
