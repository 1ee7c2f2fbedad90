import Splittable.Work

/-!
# Sessions

A session is the work for one element while another thread sends split requests to the same
tracker.  Either side takes its turns one request at a time, each under the lock of the tracker,
so an execution is a schedule: a list of turns.  Once the schedule is over, the processing side
goes on to its end and the splitting side after it.

* `Session.turn`  : one turn of either side;
* `Session.run`   : the turns of a schedule;
* `Session.finish`: both sides to their end;
* `Stop.schedule` : the schedule in which split requests wait for certain outputs.
-/

namespace Splittable

/-! ## The splitting side -/

/-- Why the splitting side failed: it reported an error of its own, passed on a refused split, or
crashed. -/
inductive SplitterFailure where
  | reported (reasons : Chain)
  | refused (fault : Fault)
  | crashed

/-- The reason in one line. -/
def SplitterFailure.message : SplitterFailure → String
  | .reported reasons => Chain.message reasons
  | .refused fault => fault.message
  | .crashed => "split thread panicked"

/-- What remains to be done on the splitting side: split requests, looks at the tracker and at the
residuals so far, and notes. -/
inductive Splitter (Note : Type) where
  | finish (result : Except SplitterFailure Unit)
  | split (fraction : Binary64) (next : Except Fault Split → Splitter Note)
  | inspect (next : Tracker → List Span → Splitter Note)
  | note (entry : Note) (next : Splitter Note)

/-! ## The processing side -/

/-- How far the processing side has come.  After the work is over, or its failure recorded, the
verdict is put together from several looks at the tracker, and splits may come between them. -/
inductive Stage (Output : Type) where
  | working (work : Work Output)
  | failed
  | judged (fault : Option Fault)
  | located (fault : Option Fault) (span : Span)
  | over (fault : Option Fault) (span : Span) (progress : Option Progress)

/-- One element in work on both sides.  The residuals are those of the splits that succeeded, in
their order, without the empty ones. -/
structure Session (Output Note : Type) where
  tracker : Tracker
  tally : Tally
  stage : Stage Output
  outputs : List Output
  splitter : Splitter Note
  notes : List Note
  residuals : List Span

/-- Whose turn it is. -/
inductive Turn where
  | processing
  | splitting
deriving DecidableEq, Repr

/-- What came of a session. -/
structure SessionOutcome (Output Note : Type) where
  element : Outcome Output
  residuals : List Span
  splitError : Option SplitterFailure
  notes : List Note

/-- Why a session failed. -/
inductive SessionError where
  | processing (fault : Fault)
  | splitting (failure : SplitterFailure)

def SessionError.message : SessionError → String
  | .processing fault => s!"processing thread failed: {fault.message}"
  | .splitting failure => s!"split thread failed: {failure.message}"

/-- The outputs and the residuals, unless either side failed; the failure of the processing side
goes first. -/
def SessionOutcome.result {Output Note : Type} (o : SessionOutcome Output Note) :
    Except SessionError (List Output × List Span) :=
  match o.element.fault, o.splitError with
  | some fault, _ => .error (.processing fault)
  | none, some failure => .error (.splitting failure)
  | none, none => .ok (o.element.outputs, o.residuals)

namespace Session

variable {Output Note : Type}

/-- Both sides before their first turn. -/
def start (t : Tracker) (n : Tally) (work : Work Output) (splitter : Splitter Note) :
    Session Output Note :=
  ⟨t, n, .working work, [], splitter, [], []⟩

/-! ## Turns -/

/-- One request of the processing side. -/
def process (s : Session Output Note) : Session Output Note :=
  match s.stage with
  | .working (.finish (.error reasons)) =>
    { s with tracker := s.tracker.fail (Chain.message reasons), tally := s.tally.countFailure,
             stage := .failed }
  | .working (.finish (.ok _)) => { s with stage := .judged (faultOf s.tracker.checkDone) }
  | .working (.claim position next) =>
    let (granted, t) := s.tracker.claim position
    { s with tracker := t, tally := s.tally.countClaim granted, stage := .working (next granted) }
  | .working (.split fraction next) =>
    let (result, t) := s.tracker.split fraction
    { s with tracker := t, tally := s.tally.countSplit result.isOk,
             stage := .working (next result) }
  | .working (.emit output next) =>
    { s with outputs := s.outputs ++ [output], stage := .working next }
  | .working (.inspect next) => { s with stage := .working (next s.tracker) }
  | .failed => { s with stage := .judged s.tracker.fault }
  | .judged fault => { s with stage := .located fault s.tracker.span }
  | .located fault span => { s with stage := .over fault span s.tracker.progress }
  | .over .. => s

/-- One request of the splitting side. -/
def split (s : Session Output Note) : Session Output Note :=
  match s.splitter with
  | .finish _ => s
  | .split fraction next =>
    let (result, t) := s.tracker.split fraction
    let kept := match result with
      | .ok split => if split.hasResidual then [split.residual] else []
      | .error _ => []
    { s with tracker := t, tally := s.tally.countSplit result.isOk, splitter := next result,
             residuals := s.residuals ++ kept }
  | .inspect next => { s with splitter := next s.tracker s.residuals }
  | .note entry next => { s with notes := s.notes ++ [entry], splitter := next }

/-- One turn of either side; a side that is over does nothing. -/
def turn (s : Session Output Note) : Turn → Session Output Note
  | .processing => s.process
  | .splitting => s.split

/-- The turns of a schedule. -/
def run (schedule : List Turn) (s : Session Output Note) : Session Output Note :=
  schedule.foldl turn s

/-! ## To the end -/

/-- The processing side from the end of its work on. -/
def conclude (s : Session Output Note) : Session Output Note :=
  s.process.process.process.process

/-- The processing side from `work` on. -/
def finishWork : Work Output → Session Output Note → Session Output Note
  | .finish _, s => s.conclude
  | .claim position next, s => finishWork (next (s.tracker.claim position).1) s.process
  | .split fraction next, s => finishWork (next (s.tracker.split fraction).1) s.process
  | .emit _ next, s => finishWork next s.process
  | .inspect next, s => finishWork (next s.tracker) s.process

/-- The processing side to its end. -/
def finishProcessing (s : Session Output Note) : Session Output Note :=
  match s.stage with
  | .working work => finishWork work s
  | _ => s.conclude

/-- The splitting side from `splitter` on. -/
def finishSplitter : Splitter Note → Session Output Note → Session Output Note
  | .finish _, s => s
  | .split fraction next, s => finishSplitter (next (s.tracker.split fraction).1) s.split
  | .inspect next, s => finishSplitter (next s.tracker s.residuals) s.split
  | .note _ next, s => finishSplitter next s.split

/-- Both sides to their end. -/
def finish (s : Session Output Note) : Session Output Note :=
  let s := s.finishProcessing
  finishSplitter s.splitter s

/-- What came of a session that is over.  There is no outcome if the tracker has no progress. -/
def outcome (s : Session Output Note) : Option (SessionOutcome Output Note) :=
  match s.stage, s.splitter with
  | .over fault span (some progress), .finish result =>
    some {
      element := ⟨s.outputs, span, progress, fault⟩
      residuals := s.residuals
      splitError := match result with | .error failure => some failure | .ok _ => none
      notes := s.notes }
  | _, _ => none

end Session

/-! ## Splits that wait for outputs -/

/-- What the splitting side notes down. -/
inductive Note where
  | split (result : Except Fault Split)
  | progress (progress : Option Progress)
  | isDone (done : Bool)
  | residuals (spans : List Span)

/-- An action of the splitting side; the refusal of a `splitOrStop` ends that side. -/
inductive SplitAction where
  | split (fraction : Binary64)
  | splitOrStop (fraction : Binary64)
  | progress
  | isDone
  | residuals
  | stop (reasons : Chain)
  | crash

/-- Actions of the splitting side that wait until `after` is emitted. -/
structure Stop where
  after : Offset
  actions : List SplitAction

namespace SplitAction

/-- An action in front of what the splitting side does next. -/
def splitter : SplitAction → Splitter Note → Splitter Note
  | .split fraction, next => .split fraction fun result => .note (.split result) next
  | .splitOrStop fraction, next => .split fraction fun result =>
    match result with
    | .ok parts => .note (.split (.ok parts)) next
    | .error fault => .finish (.error (.refused fault))
  | .progress, next => .inspect fun t _ => .note (.progress t.progress) next
  | .isDone, next => .inspect fun t _ => .note (.isDone t.isDone) next
  | .residuals, next => .inspect fun _ spans => .note (.residuals spans) next
  | .stop reasons, _ => .finish (.error (.reported reasons))
  | .crash, _ => .finish (.error .crashed)

end SplitAction

namespace Stop

/-- The splitting side that takes the actions of all stops in order. -/
def splitter (stops : List Stop) : Splitter Note :=
  (stops.flatMap (·.actions)).foldr SplitAction.splitter (.finish (.ok ()))

/-- The turns in which the actions of a stop are taken: a request and a note for each. -/
def turns (stop : Stop) : List Turn :=
  stop.actions.flatMap fun _ => [.splitting, .splitting]

/-- The schedule from `work` on in which the actions of a stop come right after its output, as long
as the stops are in the order of the outputs, and all others when the work is over. -/
def schedule : Work Offset → List Stop → Session Offset Note → List Turn
  | .finish _, stops, _ => stops.flatMap turns
  | .claim position next, stops, s =>
    .processing :: schedule (next (s.tracker.claim position).1) stops s.process
  | .split fraction next, stops, s =>
    .processing :: schedule (next (s.tracker.split fraction).1) stops s.process
  | .inspect next, stops, s => .processing :: schedule (next s.tracker) stops s.process
  | .emit output next, stops, s =>
    let due := stops.takeWhile (·.after = output)
    let first := .processing :: due.flatMap turns
    first ++ schedule next (stops.drop due.length) (s.run first)

end Stop

/-- Does a work on a tracker while split requests wait for its outputs. -/
def processWithStops (work : Work Offset) (stops : List Stop) (t : Tracker) (n : Tally) :
    Session Offset Note :=
  let s := Session.start t n work (Stop.splitter stops)
  (s.run (Stop.schedule work stops s)).finish

end Splittable
