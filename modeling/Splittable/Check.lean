import Splittable.Span

/-!
# Checks

What is checked of offsets and splits where work is tested.

* `checkPartition`  : a split divides the unclaimed part of a span;
* `checkContiguous` : offsets are exactly those of a range;
* `checkMonotonic`  : offsets never decrease.
-/

namespace Splittable

/-- What a check found wrong.  In `crowded` the offsets from `start` up to `stop` are too many for a
list, so none are compared. -/
inductive Violation where
  | startsElsewhere (primary : Span) (cursor : Offset)
  | apart (primary residual : Span)
  | endsElsewhere (residual whole : Span)
  | outside (primary whole : Span)
  | crowded (start stop : Offset)
  | count (offsets : List Offset) (start stop : Offset)
  | mismatch (index : Nat) (offsets : List Offset)
  | decrease (before after : Offset) (offsets : List Offset)
deriving DecidableEq

/-- The number of offsets from `start` up to but not including `stop`. -/
def offsetCount (start stop : Offset) : Nat :=
  (stop.toInt - start.toInt).toNat

def Violation.message : Violation → String
  | .startsElsewhere primary cursor => s!"Primary {primary} should start at the cursor {cursor}"
  | .apart primary residual => s!"Primary {primary} and residual {residual} should meet"
  | .endsElsewhere residual whole => s!"Residual {residual} should end where {whole} ends"
  | .outside primary whole => s!"Primary {primary} should lie inside {whole}"
  | .crowded _ _ => "capacity overflow"
  | .count offsets start stop =>
    s!"Emitted {offsets.length} offsets, expected {offsetCount start stop} for " ++
      s!"[{start}, {stop})\n  Emitted: {Offset.renderList offsets}"
  | .mismatch index offsets =>
    s!"Offset mismatch at index {index}\n  Emitted: {Offset.renderList offsets}"
  | .decrease first second offsets =>
    s!"Sequence decreased from {first} to {second}\n  Full: {Offset.renderList offsets}"

/-- Checks that a split divides what a tracker of `whole` has not claimed: the primary starts at
the cursor, the parts meet, and the residual runs to the end. -/
def checkPartition (whole : Span) (cursor : Offset) (split : Split) : Except Violation Unit :=
  let primary := split.primary
  let residual := split.residual
  if primary.start ≠ cursor then .error (.startsElsewhere primary cursor)
  else if primary.stop ≠ residual.start then .error (.apart primary residual)
  else if residual.stop ≠ whole.stop then .error (.endsElsewhere residual whole)
  else if ¬ (primary.start ≤ primary.stop ∧ primary.stop ≤ whole.stop) then
    .error (.outside primary whole)
  else .ok ()

/-- The position of the first offset, counted from `index`, that is not `expected`, `expected + 1`
and so on. -/
def firstMismatch (index : Nat) (expected : Int) : List Offset → Option Nat
  | [] => none
  | p :: ps =>
    if p.toInt = expected then firstMismatch (index + 1) (expected + 1) ps else some index

/-- Checks that the offsets are exactly `start`, `start + 1`, ..., `stop - 1`.  They are compared
with a list of those, if there is room for it. -/
def checkContiguous (offsets : List Offset) (start stop : Offset) : Except Violation Unit :=
  if ¬ Offset.fits start stop then .error (.crowded start stop)
  else if offsets.length ≠ offsetCount start stop then .error (.count offsets start stop)
  else
    match firstMismatch 0 start.toInt offsets with
    | some index => .error (.mismatch index offsets)
    | none => .ok ()

/-- The first offset that is less than the one before it, with that one. -/
def firstDecrease : List Offset → Option (Offset × Offset)
  | p :: q :: rest => if q < p then some (p, q) else firstDecrease (q :: rest)
  | _ => none

/-- Checks that the offsets never decrease. -/
def checkMonotonic (offsets : List Offset) : Except Violation Unit :=
  match firstDecrease offsets with
  | some (before, after) => .error (.decrease before after offsets)
  | none => .ok ()

end Splittable
