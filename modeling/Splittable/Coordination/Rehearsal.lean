import Splittable.Coordination.Signals
import Splittable.Span

/-!
# Rehearsals

A rehearsal plays one claim loop and one split request on one tracker in a chosen order.  A
director follows a list of cues: it starts the threads, awaits them at checkpoints and releases
them.  What came of it can be examined against the span it started from.

* `Performance.step`          : one step of the director or of a thread, or a timeout;
* `Rehearsal.run`             : a whole performance;
* `RehearsalOutcome.examine`  : that the emitted offsets and the split divide the span.
-/

namespace Splittable

/-- What is rehearsed; `block` is the offset whose claim is held at the checkpoints. -/
structure Rehearsal where
  span : Span
  fraction : Binary64
  block : Offset
  timeout : Milliseconds

namespace Rehearsal

/-- A rehearsal over a span by some settings, held at the start of the span. -/
def ofSettings (span : Span) (settings : Settings) : Rehearsal :=
  ⟨span, settings.splitFraction, span.start, settings.signalTimeout⟩

end Rehearsal

/-- What a rehearsal showed: the span at the start and that of the tracker at the end, the split,
and the offsets that the processing thread emitted, in their order. -/
structure RehearsalOutcome where
  interleaving : Interleaving
  whole : Span
  block : Offset
  emitted : List Offset
  split : Split
  final : Span
deriving DecidableEq

/-- Why a performance broke off. -/
inductive PerformanceError where
  | control (error : ControlError)
  | splitRefused (fault : Fault)
deriving DecidableEq

def PerformanceError.message : PerformanceError → String
  | .control error => error.message
  | .splitRefused fault => s!"split request failed: {fault.message}"

/-- Why a rehearsal failed. -/
inductive RehearsalError where
  | fraction (fraction : Binary64)
  | block (position : Offset) (span : Span)
  | performance (interleaving : Interleaving) (span : Span) (error : PerformanceError)
  | faultLeft (fault : Fault)
  | unfinished
deriving DecidableEq

def RehearsalError.message : RehearsalError → String
  | .fraction f => s!"split fraction {f.plain} is outside [0, 1]"
  | .block position span => s!"block position {position} is outside {span}"
  | .performance order span error =>
    s!"{order.name} scenario over {span}: {error.message}"
  | .faultLeft fault => s!"processing thread left an error on the tracker: {fault.message}"
  | .unfinished => "the rehearsal did not come to its end"

/-! ## Cues -/

/-- What the director does next.  `passClaimIfReached` passes the claim checkpoints if the primary
extends to the block position. -/
inductive Cue where
  | startProcessing
  | startSplitting
  | await (c : Checkpoint)
  | release (c : Checkpoint)
  | joinSplitting
  | passClaimIfReached
  | joinProcessing
deriving DecidableEq, Repr

namespace Cue

/-- Awaits a checkpoint and releases it. -/
def pass (c : Checkpoint) : List Cue := [.await c, .release c]

/-- Passes the claim checkpoints one after the other. -/
def passClaim : List Cue :=
  pass .claimStarted ++ pass .claimLocked ++ pass .claimVisible

/-- The cues that force an order. -/
def script : Interleaving → List Cue
  | .nonBlocking =>
    [.startSplitting] ++ pass .splitStarted ++ pass .splitLocked ++
      [.joinSplitting, .startProcessing, .passClaimIfReached, .joinProcessing]
  | .claimBlocksSplit =>
    [.startProcessing] ++ pass .claimStarted ++ [.await .claimLocked, .startSplitting] ++
      pass .splitStarted ++ [.release .claimLocked, .await .claimVisible] ++ pass .splitLocked ++
      [.joinSplitting, .release .claimVisible, .joinProcessing]
  | .splitBlocksClaim =>
    [.startProcessing, .await .claimStarted, .startSplitting] ++ pass .splitStarted ++
      [.await .splitLocked, .release .claimStarted, .release .splitLocked, .joinSplitting] ++
      pass .claimLocked ++ pass .claimVisible ++ [.joinProcessing]

end Cue

/-! ## Performances -/

/-- A performance under way: the tracker with the processing and the splitting thread, the cues that
are left, the split once it was joined, and how the director ended once it has. -/
structure Performance where
  rehearsal : Rehearsal
  signals : Signals
  cues : List Cue
  split : Option Split
  ending : Option (Except PerformanceError Unit)

/-- Who takes the next step; at a `timeout` the time of the director runs out. -/
inductive Mover where
  | director
  | timeout
  | thread (i : Nat)
deriving DecidableEq, Repr

namespace Performance

/-- The position of the processing thread. -/
def processing : Nat := 0

/-- The position of the splitting thread. -/
def splitting : Nat := 1

/-- A performance before its first cue. -/
def start (r : Rehearsal) (interleaving : Interleaving) : Performance where
  rehearsal := r
  signals := { Signals.new (.new r.span) r.block with threads := [.idle, .idle] }
  cues := Cue.script interleaving
  split := none
  ending := none

/-- The end of the director, which drops the control with it. -/
def finish (p : Performance) (ending : Except PerformanceError Unit) : Performance :=
  { p with signals := p.signals.dropControl, cues := [], ending := some ending }

/-- Gives a thread its work. -/
def give (p : Performance) (i : Nat) (work : Work Offset) : Performance :=
  { p with signals := { p.signals with threads := p.signals.threads.set i (.start work) } }

/-- The result of the control in a performance. -/
def follow (p : Performance) : Except ControlError Signals → Performance
  | .ok signals => { p with signals := signals }
  | .error error => p.finish (.error (.control error))

/-- The thread, if it is over. -/
def joined? (p : Performance) (i : Nat) : Option Thread :=
  (p.signals.threads[i]?).filter (·.isOver)

/-- The next cue; none if the director has to wait or is at its end. -/
def stepDirector (p : Performance) : Option Performance :=
  match p.ending, p.cues with
  | some _, _ => none
  | none, [] => some (p.finish (.ok ()))
  | none, cue :: cues =>
    let p := { p with cues := cues }
    match cue with
    | .startProcessing => some (p.give processing .count)
    | .startSplitting =>
      some (p.give splitting (.split p.rehearsal.fraction fun _ => .finish (.ok ())))
    | .await c => (p.signals.await? c).map p.follow
    | .release c => (p.signals.release? c).map p.follow
    | .joinSplitting =>
      (p.joined? splitting).map fun t =>
        match t.answers.getLast? with
        | some (.split (.ok split)) => { p with split := some split }
        | some (.split (.error fault)) => p.finish (.error (.splitRefused fault))
        | _ => p
    | .passClaimIfReached =>
      match p.split with
      | some split =>
        if p.rehearsal.block ≤ split.primary.stop then
          some { p with cues := Cue.passClaim ++ cues }
        else some p
      | none => some p
    | .joinProcessing => (p.joined? processing).map fun _ => p

/-- The time runs out for a director who awaits a thread, whether it has just arrived or not. -/
def stepTimeout (p : Performance) : Option Performance :=
  match p.ending, p.cues with
  | none, .await c :: _ => some (p.finish (.error (.control (.timedOut p.rehearsal.timeout c))))
  | _, _ => none

/-- One step; none if the mover has to wait or is at its end. -/
def step (p : Performance) : Mover → Option Performance
  | .director => p.stepDirector
  | .timeout => p.stepTimeout
  | .thread i => (p.signals.stepThread i).map fun signals => { p with signals := signals }

/-- Whether the director and both threads are at their end. -/
def isOver (p : Performance) : Bool :=
  p.ending.isSome && p.signals.threads.all (·.isOver)

/-- What came of a performance that is over. -/
def result (interleaving : Interleaving) (p : Performance) :
    Except RehearsalError RehearsalOutcome :=
  match p.ending, p.split, p.signals.threads[processing]? with
  | some (.error error), _, _ => .error (.performance interleaving p.rehearsal.span error)
  | some (.ok _), some split, some thread =>
    match p.signals.tracker.fault with
    | some fault => .error (.faultLeft fault)
    | none =>
      .ok {
        interleaving := interleaving
        whole := p.rehearsal.span
        block := p.rehearsal.block
        emitted := thread.emitted
        split := split
        final := p.signals.tracker.span }
  | _, _, _ => .error .unfinished

/-- The order in which movers are asked for a step: the time runs out only when nobody else can
take one. -/
def movers : List Mover :=
  [.thread processing, .thread splitting, .director, .timeout]

/-- Steps of whoever can take one, `fuel` of them at most. -/
def advance : Nat → Performance → Performance
  | 0, p => p
  | fuel + 1, p =>
    match movers.findSome? p.step with
    | some p => advance fuel p
    | none => p

end Performance

namespace Rehearsal

/-- The steps of a performance at most.  A claim that is not held takes three steps and its output
one; the held calls and the cues are few. -/
def steps (r : Rehearsal) : Nat :=
  4 * (r.span.length + 2) + 128

/-- Rehearses an order. -/
def run (r : Rehearsal) (interleaving : Interleaving) : Except RehearsalError RehearsalOutcome :=
  if ¬ r.fraction.InUnit then .error (.fraction r.fraction)
  else if r.block < r.span.start ∨ r.span.stop < r.block then .error (.block r.block r.span)
  else ((Performance.start r interleaving).advance r.steps).result interleaving

end Rehearsal

/-! ## Examination -/

/-- In what an outcome differs from a division of its span. -/
inductive Discrepancy where
  | apart (split : Split)
  | residualEnd (residual whole : Span)
  | primaryOutside (primary whole : Span)
  | emitted (emitted : List Offset) (start stop : Offset)
  | final (final : Span) (start stop : Offset)
  | cursor (interleaving : Interleaving) (seen expected : Offset)
deriving DecidableEq

def Discrepancy.message : Discrepancy → String
  | .apart split => s!"primary {split.primary} and residual {split.residual} do not meet"
  | .residualEnd residual whole =>
    s!"residual {residual} does not run to the end of {whole}"
  | .primaryOutside primary whole => s!"primary {primary} is not inside {whole}"
  | .emitted offsets start stop =>
    s!"emitted {Offset.renderList offsets}, expected every offset of [{start}, {stop})"
  | .final span start stop => s!"tracker ended with {span}, expected [{start}, {stop})"
  | .cursor interleaving seen expected =>
    s!"{interleaving.name} split saw cursor {seen}, expected {expected}"

namespace RehearsalOutcome

/-- Where the cursor is when the split takes the lock. -/
def expectedCursor (o : RehearsalOutcome) : Offset :=
  match o.interleaving with
  | .nonBlocking => o.whole.start
  | .claimBlocksSplit => o.block + 1
  | .splitBlocksClaim => o.block

end RehearsalOutcome

/-- Why an examination breaks off without a verdict: the offsets that should have been emitted are
too many for a list, the span that should be left has its bounds inverted, or no offset comes after
the block position. -/
inductive Breakdown where
  | crowded (start stop : Offset)
  | inverted (bounds : InvertedBounds)
  | last (block : Offset)
deriving DecidableEq

namespace RehearsalOutcome

/-- Where the cursor is when the split takes the lock; none if that is past the last offset. -/
def cursor? (o : RehearsalOutcome) : Option Offset :=
  match o.interleaving with
  | .claimBlocksSplit => if o.block = Int64.maxValue then none else some (o.block + 1)
  | .nonBlocking | .splitBlocksClaim => some o.expectedCursor

/-- The first thing in which the outcome differs from a division of its span: the offsets up to
the end of the primary are emitted, the residual takes up there and runs to the end of the span,
and the primary starts at the cursor that the order makes the split see.  The list of offsets, the
span and the cursor that the outcome is compared with are made on the way, and the examination
breaks off where that cannot be done. -/
def examine (o : RehearsalOutcome) : Except Breakdown (Except Discrepancy Unit) :=
  let primary := o.split.primary
  let residual := o.split.residual
  if ¬ o.split.isContiguous then .ok (.error (.apart o.split))
  else if residual.stop ≠ o.whole.stop then .ok (.error (.residualEnd residual o.whole))
  else if ¬ (o.whole.start ≤ primary.start ∧ primary.start ≤ primary.stop ∧
      primary.stop ≤ o.whole.stop) then .ok (.error (.primaryOutside primary o.whole))
  else if ¬ Offset.fits o.whole.start primary.stop then
    .error (.crowded o.whole.start primary.stop)
  else if ¬ Offset.isRun o.whole.start primary.stop o.emitted then
    .ok (.error (.emitted o.emitted o.whole.start primary.stop))
  else
    match Span.checked o.whole.start primary.stop with
    | .error bounds => .error (.inverted bounds)
    | .ok left =>
      if o.final ≠ left then .ok (.error (.final o.final o.whole.start primary.stop))
      else
        match o.cursor? with
        | none => .error (.last o.block)
        | some cursor =>
          if primary.start ≠ cursor then
            .ok (.error (.cursor o.interleaving primary.start cursor))
          else .ok (.ok ())

end RehearsalOutcome

end Splittable
