import Splittable.Batch

/-!
# Striding

A work that claims offsets at equal distances, and the elements whose work is of that kind.

* `Stride.work`          : the claims one after the other;
* `StridedElement.whole` : every element in one piece;
* `StridedElement.even`  : every element in pieces of nearly equal length.
-/

namespace Splittable

/-- A work that claims offsets at equal distances, `limit` of them at most, from `first` or the
start of the span on.  It fails after the claim of an offset if it is told to. -/
structure Stride where
  first : Option Offset
  step : Offset
  limit : Option Nat
  failure : Option (Offset × Chain)

namespace Stride

/-- The claims from `position` on, `limit` of them at most. -/
def workFrom (s : Stride) : Nat → Offset → Work Offset
  | 0, _ => .finish (.ok ())
  | limit + 1, position => .claim position fun granted =>
    if granted then
      match s.failure with
      | some (place, reasons) =>
        if position = place then .finish (.error reasons)
        else .emit position (s.workFrom limit (position.advance s.step))
      | none => .emit position (s.workFrom limit (position.advance s.step))
    else .finish (.ok ())

/-- Claims and emits offsets until a claim is not granted or the limit is reached.  Granted offsets
increase within the span, so there is at most one more claim than offsets. -/
def work (s : Stride) : Work Offset :=
  .inspect fun t =>
    let claims := t.span.length + 1
    s.workFrom (match s.limit with | some limit => min limit claims | none => claims)
      (s.first.getD t.span.start)

end Stride

/-- An element of which offsets at equal distances are claimed. -/
structure StridedElement where
  start : Offset
  stop : Offset
  stride : Stride

namespace StridedElement

/-- Every element is one piece that costs its size. -/
def whole : Transform StridedElement Offset where
  initialSpan e := Span.checked e.start e.stop
  work e := e.stride.work

/-- Every element is divided into pieces of nearly equal length that cost `weight` an offset. -/
def even (weight : Binary64) : Transform StridedElement Offset where
  initialSpan e := Span.checked e.start e.stop
  divide _ span count := span.pieces count
  weigh _ span := Binary64.ofInt span.length * weight
  work e := e.stride.work

end StridedElement

end Splittable
