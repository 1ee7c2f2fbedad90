import Splittable.Coordination.Signals

/-!
# Scripts

A script is a list of commands to a tracker behind checkpoints: calls by the script itself or by
threads of their own, and actions of the control.  Every command is carried out after the threads
have come to rest, so a script that forces its order has one answer to each command.  A command
that nobody lets go on holds up the whole script.
-/

namespace Splittable

/-- A command of a script.  The script waits for `claim` and `split`, and with `join` for a thread
that it has spawned; `pass` awaits and releases, and `look` looks at the tracker. -/
inductive Command where
  | claim (position : Offset)
  | split (fraction : Binary64)
  | spawnClaim (id : String) (position : Offset)
  | spawnSplit (id : String) (fraction : Binary64)
  | join (id : String)
  | await (c : Checkpoint)
  | release (c : Checkpoint)
  | pass (c : Checkpoint)
  | dropControl
  | dropTracker
  | isLocked
  | fail (reasons : Chain)
  | look

/-- The answer to a command. -/
inductive CommandAnswer where
  | nothing
  | call (answer : Answer)
  | control (result : Except ControlError Unit)
  | locked (locked : Bool)
  | state (tracker : Tracker)

namespace Script

/-- The stage of a script: the tracker behind its checkpoints and the threads by their names. -/
structure Stage where
  signals : Signals
  names : List (String × Nat)
  timeout : Milliseconds

/-- The work of a single claim. -/
def claimOnce (position : Offset) : Work Offset :=
  .claim position fun _ => .finish (.ok ())

/-- The work of a single split. -/
def splitOnce (fraction : Binary64) : Work Offset :=
  .split fraction fun _ => .finish (.ok ())

/-- The threads of a script make one call each, so this lets all of them come to rest. -/
def rest (s : Signals) : Signals :=
  s.settle (Signals.stepsPerCall * s.threads.length)

/-- The answer of a thread to its call; none if it is held and cannot go on. -/
def answerOf? (s : Signals) (i : Nat) : Option CommandAnswer :=
  ((s.threads[i]?).filter (·.isOver)).map fun t =>
    match t.answers.getLast? with
    | some answer => .call answer
    | none => .nothing

/-- A call by the script itself, which is held like any other. -/
def callAndWait (stage : Stage) (work : Work Offset) : Option (CommandAnswer × Stage) :=
  let signals := rest (stage.signals.spawn work)
  (answerOf? signals stage.signals.threads.length).map fun answer =>
    (answer, { stage with signals := signals })

/-- A call on a thread of its own. -/
def callAside (stage : Stage) (id : String) (work : Work Offset) : CommandAnswer × Stage :=
  (.nothing, { stage with
    signals := stage.signals.spawn work
    names := (id, stage.signals.threads.length) :: stage.names })

/-- An arrival that is awaited: with no token and no thread that could bring one, the time runs
out. -/
def await (stage : Stage) (c : Checkpoint) : Except ControlError Signals :=
  (stage.signals.await? c).getD (.error (.timedOut stage.timeout c))

/-- The answer of the control, and the stage after it. -/
def controlled (stage : Stage) (result : Except ControlError Signals) : CommandAnswer × Stage :=
  match result with
  | .ok signals => (.control (.ok ()), { stage with signals := signals })
  | .error error => (.control (.error error), stage)

/-- A release.  With no room for the token, and no thread that could make room, it waits for
good. -/
def release (stage : Stage) (c : Checkpoint) : Option (CommandAnswer × Stage) :=
  (stage.signals.release? c).map (controlled stage)

/-- An arrival that is awaited and then released; the arrival is taken even if the release
fails. -/
def pass (stage : Stage) (c : Checkpoint) : Option (CommandAnswer × Stage) :=
  match await stage c with
  | .error error => some (.control (.error error), stage)
  | .ok signals => release { stage with signals := rest signals } c

/-- What is done to the tracker itself waits for its lock. -/
def unlocked (stage : Stage) (done : CommandAnswer × Stage) : Option (CommandAnswer × Stage) :=
  if stage.signals.lock.isNone then some done else none

/-- Carries out one command on threads that have come to rest; none if it never comes to its
end. -/
def step (stage : Stage) : Command → Option (CommandAnswer × Stage)
  | .claim position => callAndWait stage (claimOnce position)
  | .split fraction => callAndWait stage (splitOnce fraction)
  | .spawnClaim id position => some (callAside stage id (claimOnce position))
  | .spawnSplit id fraction => some (callAside stage id (splitOnce fraction))
  | .join id =>
    match stage.names.lookup id with
    | some i => (answerOf? stage.signals i).map (·, stage)
    | none => some (.nothing, stage)
  | .await c => some (controlled stage (await stage c))
  | .release c => release stage c
  | .pass c => pass stage c
  | .dropControl => some (.nothing, { stage with signals := stage.signals.dropControl })
  | .dropTracker => some (.nothing, { stage with signals := stage.signals.dropTracker })
  | .isLocked => some (.locked stage.signals.lock.isSome, stage)
  | .fail reasons =>
    unlocked stage (.nothing, { stage with signals :=
      { stage.signals with tracker := stage.signals.tracker.fail (Chain.message reasons) } })
  | .look => unlocked stage (.state stage.signals.tracker, stage)

/-- The answers to all commands, and the stage after them; none if one of them never comes to its
end. -/
def perform : Stage → List Command → Option (List CommandAnswer × Stage)
  | stage, [] => some ([], stage)
  | stage, command :: commands => do
    let (answer, stage) ← step { stage with signals := rest stage.signals } command
    let (answers, stage) ← perform stage commands
    return (answer :: answers, stage)

/-- Runs a script on a tracker of a span.  After the last command the control is dropped and every
thread comes to its end.  There is no answer if the script never comes to its own. -/
def run (span : Span) (block : Offset) (timeout : Milliseconds) (commands : List Command) :
    Option (List CommandAnswer × Signals) :=
  (perform ⟨.new (.new span) block, [], timeout⟩ commands).map fun (answers, stage) =>
    (answers, rest stage.signals.dropControl)

end Script

end Splittable
