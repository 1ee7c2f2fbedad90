import Splittable.Numeric.Decimal

/-!
# Faults

What a tracker refuses to do, or records about work that went wrong.  Running out of work is no
fault: a claim past the end is simply not granted.  Offsets and spans are carried as text, so a
fault says nothing about the kind of work it arose in.

* `Fault.message` : the wording of every fault;
* `Fault.agrees`  : equality of faults, with fractions compared by value.
-/

namespace Splittable

/-- Everything a tracker can refuse or record.  Work is `unfinished` if it stopped before every
offset was attempted; in `processing` the work itself failed. -/
inductive Fault where
  | invalidFraction (fraction : Binary64)
  | nothingToSplit (span : String)
  | invalidSplitPoint (position span : String)
  | invalidSpan (start stop : String)
  | claimBeforeStart (position span : String)
  | nonMonotonicClaim (position lastAttempted : String)
  | unfinished (span next : String)
  | processing (position reason : String)
deriving DecidableEq

namespace Fault

/-- Whether the work itself failed. -/
def isProcessing : Fault → Bool
  | .processing .. => true
  | _ => false

/-- Whether a split was refused. -/
def isSplitRejection : Fault → Bool
  | .invalidFraction _ | .nothingToSplit _ | .invalidSplitPoint .. => true
  | _ => false

def message : Fault → String
  | .invalidFraction fraction => s!"split fraction {fraction.plain} is outside [0, 1]"
  | .nothingToSplit span => s!"nothing left to split in {span}"
  | .invalidSplitPoint position span => s!"split point {position} is outside {span}"
  | .invalidSpan start stop => s!"invalid restriction: start {start} is after end {stop}"
  | .claimBeforeStart position span =>
    s!"cannot claim position {position} before the start of {span}"
  | .nonMonotonicClaim position lastAttempted =>
    s!"cannot claim position {position}: last attempted position was {lastAttempted}"
  | .unfinished span next =>
    s!"work in {span} was not fully attempted, next unclaimed position is {next}"
  | .processing position reason => s!"processing failed at position {position}: {reason}"

/-- Equality of faults.  Fractions are compared by value, so a fraction that is no number differs
from itself. -/
def agrees : Fault → Fault → Bool
  | .invalidFraction f, .invalidFraction g => f.sameValue g
  | .invalidFraction _, _ | _, .invalidFraction _ => false
  | f, g => f = g

end Fault

end Splittable
