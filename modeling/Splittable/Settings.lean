import Splittable.Numeric.Decimal

/-!
# Settings

The tunables of batches and rehearsals.

* `Settings.validate`     : the first setting that is out of its range;
* `Milliseconds.render`   : how a timeout is written in a message.
-/

namespace Splittable

/-- The tunables of batches and rehearsals: the fraction of the unclaimed work that a split keeps,
how many milliseconds a rendezvous may take, the number of pieces an element is divided into, and
the number of worker threads where it is set. -/
structure Settings where
  splitFraction : Binary64
  signalTimeout : UInt64
  initialSplits : UInt64
  parallelism : Option UInt64
deriving DecidableEq

/-- A setting that is out of its range. -/
inductive SettingsError where
  | splitFraction (fraction : Binary64)
  | signalTimeout
  | initialSplits
  | parallelism
deriving DecidableEq

namespace SettingsError

def message : SettingsError → String
  | .splitFraction fraction => s!"split_fraction must be in [0, 1], got {fraction.plain}"
  | .signalTimeout => "signal_timeout_ms must be positive"
  | .initialSplits => "initial_splits must be at least 1"
  | .parallelism => "parallelism must be at least 1 when set"

end SettingsError

namespace Settings

def default : Settings where
  splitFraction := .round false (1 / 2)
  signalTimeout := 5000
  initialSplits := 1
  parallelism := none

/-- The first setting that is out of its range, if any. -/
def validate (s : Settings) : Except SettingsError Unit :=
  if ¬ s.splitFraction.InUnit then .error (.splitFraction s.splitFraction)
  else if s.signalTimeout = 0 then .error .signalTimeout
  else if s.initialSplits = 0 then .error .initialSplits
  else if s.parallelism = some 0 then .error .parallelism
  else .ok ()

/-- The worker threads to use, where their number is set: at least one. -/
def workerThreads (s : Settings) : Option UInt64 :=
  s.parallelism.map (max 1)

end Settings

/-- A span of time in milliseconds. -/
abbrev Milliseconds := UInt64

namespace Milliseconds

/-- A time as it is written: in seconds from one second on, with the decimal places it needs, and
in milliseconds below. -/
def render (t : Milliseconds) : String :=
  let seconds := t.toNat / 1000
  let rest := t.toNat % 1000
  if t = 0 then "0ns"
  else if seconds = 0 then s!"{rest}ms"
  else if rest = 0 then s!"{seconds}s"
  else
    let places := (Decimal.strip ⟨1000 + rest, -3⟩).digits
    let digits := (Decimal.digitsOf places).drop 1
    s!"{seconds}." ++ String.ofList (digits.map Decimal.digitChar) ++ "s"

end Milliseconds

end Splittable
