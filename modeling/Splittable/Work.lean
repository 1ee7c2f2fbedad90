import Splittable.Crew

/-!
# Work

A work is what the processing of one element does, as a tree: each request to the tracker is a
node with a branch for every reply, so a work can decide by the replies and by nothing else.

* `Work.run`   : a work from its start to its end on a tracker that nobody else uses;
* `process`    : the same, with the verdict of the tracker on it;
* `Work.count` : the work that claims and emits every offset of a span in order.
-/

namespace Splittable

/-- What remains to be done for one element.  It finishes with success or for some reasons, and may
look at the tracker. -/
inductive Work (Output : Type) where
  | finish (result : Except Chain Unit)
  | claim (position : Offset) (next : Bool → Work Output)
  | split (fraction : Binary64) (next : Except Fault Split → Work Output)
  | emit (output : Output) (next : Work Output)
  | inspect (next : Tracker → Work Output)

/-- What came of a work. -/
structure Run (Output : Type) where
  outputs : List Output
  result : Except Chain Unit
  tracker : Tracker
  tally : Tally

/-- The verdict on the work for one element, with the span of the tracker when the work was over. -/
structure Outcome (Output : Type) where
  outputs : List Output
  span : Span
  progress : Progress
  fault : Option Fault

namespace Outcome

/-- The outputs, unless there was a fault. -/
def result {Output : Type} (o : Outcome Output) : Except Fault (List Output) :=
  match o.fault with
  | some fault => .error fault
  | none => .ok o.outputs

end Outcome

/-- The fault of a check. -/
def faultOf : Except Fault Unit → Option Fault
  | .error fault => some fault
  | .ok _ => none

/-- The fault of a tracker after the work on it ended with `result`, and the tracker and the tally
after that: a failure is recorded, a success is checked. -/
def judge (result : Except Chain Unit) (t : Tracker) (n : Tally) :
    Option Fault × Tracker × Tally :=
  match result with
  | .error reasons =>
    let t := t.fail (Chain.message reasons)
    (t.fault, t, n.countFailure)
  | .ok _ => (faultOf t.checkDone, t, n)

namespace Work

/-- The work on a tracker that nobody else uses. -/
def run {Output : Type} : Work Output → Tracker → Tally → Run Output
  | .finish result, t, n => ⟨[], result, t, n⟩
  | .claim position next, t, n =>
    let (granted, t) := t.claim position
    (next granted).run t (n.countClaim granted)
  | .split fraction next, t, n =>
    let (result, t) := t.split fraction
    (next result).run t (n.countSplit result.isOk)
  | .emit output next, t, n =>
    let rest := next.run t n
    { rest with outputs := output :: rest.outputs }
  | .inspect next, t, n => (next t).run t n

/-- Claims and emits `position`, the offset after it, and so on until a claim is not granted.
`fuel` bounds the number of claims. -/
def countFrom : Nat → Offset → Work Offset
  | 0, _ => .finish (.ok ())
  | fuel + 1, position => .claim position fun granted =>
    if granted then .emit position (countFrom fuel (position + 1)) else .finish (.ok ())

/-- Claims and emits every offset of the span of the tracker in order.  Each claim but the last is
granted, so there is at most one more claim than offsets. -/
def count : Work Offset :=
  .inspect fun t => countFrom (t.span.length + 1) t.span.start

end Work

/-- Does a work on a tracker and judges it.  There is no outcome if the tracker has no progress;
the tracker and the tally are those after the work in any case. -/
def process {Output : Type} (work : Work Output) (t : Tracker) (n : Tally) :
    Option (Outcome Output) × Tracker × Tally :=
  let run := work.run t n
  let (fault, t, n) := judge run.result run.tracker run.tally
  (t.progress.map fun progress => ⟨run.outputs, t.span, progress, fault⟩, t, n)

end Splittable
