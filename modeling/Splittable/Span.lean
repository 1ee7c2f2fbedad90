import Splittable.Fault
import Splittable.Offset

/-!
# Spans

A span is the half-open range of offsets from `start` up to but not including `stop`.  A span
whose bounds are inverted can be written down and holds no offset; `Span.checked` refuses it.

* `Span.cutAt`  : the two spans on either side of an offset;
* `Span.pieces` : a division into pieces of nearly equal length;
* `Split`       : the parts of unclaimed work that was split;
* `Progress`    : how much of a span is done and how much remains.
-/

namespace Splittable

/-- The offsets from `start` up to but not including `stop`. -/
structure Span where
  start : Offset
  stop : Offset
deriving DecidableEq, Repr

/-- Bounds of which the start is after the end. -/
structure InvertedBounds where
  start : Offset
  stop : Offset
deriving DecidableEq, Repr

namespace InvertedBounds

/-- The wording where a span with inverted bounds is a mistake of the program. -/
def message (b : InvertedBounds) : String :=
  s!"invalid offset range: start {b.start} > end {b.stop}"

/-- The fault where the bounds come from outside. -/
def fault (b : InvertedBounds) : Fault :=
  .invalidSpan (toString b.start) (toString b.stop)

end InvertedBounds

namespace Span

/-- The span of the given bounds, unless they are inverted. -/
def checked (start stop : Offset) : Except InvertedBounds Span :=
  if stop < start then .error ⟨start, stop⟩ else .ok ⟨start, stop⟩

/-- The span at the first offset that holds nothing. -/
def empty : Span := ⟨0, 0⟩

def render (s : Span) : String :=
  s!"[{s.start}, {s.stop})"

instance : ToString Span := ⟨render⟩

/-- The distance between the bounds, in either direction. -/
def length (s : Span) : Nat :=
  (s.stop.toInt - s.start.toInt).natAbs

def isEmpty (s : Span) : Bool :=
  s.stop ≤ s.start

/-- The cost of the span as a number, negative for inverted bounds. -/
def size (s : Span) : Binary64 :=
  .ofInt s.stop.toInt - .ofInt s.start.toInt

/-- The spans on either side of an offset from `start` to `stop`, both included. -/
def cutAt (s : Span) (position : Offset) : Except Fault (Span × Span) :=
  if position < s.start ∨ s.stop < position then
    .error (.invalidSplitPoint (toString position) (toString s))
  else .ok (⟨s.start, position⟩, ⟨position, s.stop⟩)

/-- The bound between the first `i` of `n` pieces and the rest. -/
def bound (s : Span) (n i : Nat) : Offset :=
  Int64.ofInt (s.start.toInt + (i * (s.stop.toInt - s.start.toInt)).tdiv n)

/-- A division into `n` pieces of nearly equal length.  Empty pieces are left out; a division into
at most one piece is the span itself. -/
def pieces (s : Span) (n : Nat) : List Span :=
  if n ≤ 1 then [s]
  else ((List.range n).map fun i => ⟨s.bound n i, s.bound n (i + 1)⟩).filter (!·.isEmpty)

end Span

/-! ## Splits -/

/-- The two parts of the unclaimed work that was split: the primary stays with the tracker, the
residual is handed back to be done elsewhere. -/
structure Split where
  primary : Span
  residual : Span
deriving DecidableEq, Repr

namespace Split

/-- Whether any work was handed back. -/
def hasResidual (s : Split) : Bool :=
  !s.residual.isEmpty

/-- Whether the parts meet without a gap or an overlap. -/
def isContiguous (s : Split) : Bool :=
  s.primary.stop = s.residual.start

def render (s : Split) : String :=
  s!"primary {s.primary} / residual {s.residual}"

end Split

/-! ## Progress -/

/-- The work that is done and the work that remains, in the units of the size of its span. -/
structure Progress where
  done : Binary64
  remaining : Binary64
deriving DecidableEq

namespace Progress

/-- No work at all. -/
def empty : Progress := ⟨.zero, .zero⟩

def total (p : Progress) : Binary64 :=
  p.done + p.remaining

/-- The share of the work that is done, from zero to one.  No work at all counts as done. -/
def fractionCompleted (p : Progress) : Binary64 :=
  if p.total ≤ .zero then .one else (p.done / p.total).clamp .zero .one

/-- The share of the work that remains. -/
def fractionRemaining (p : Progress) : Binary64 :=
  .one - p.fractionCompleted

end Progress

end Splittable
