/-!
# Offsets

Work is cut up by offsets, signed 64-bit positions.  The offset after the greatest one is the
greatest one again, so that a cursor can always be moved past the last attempted offset.
-/

namespace Splittable

/-- A position in a span of work. -/
abbrev Offset := Int64

namespace Offset

/-- The next offset; the greatest offset is its own successor. -/
def after (p : Offset) : Offset :=
  if p = Int64.maxValue then p else p + 1

/-- The offset `stride` further on, held within the offsets. -/
def advance (p stride : Offset) : Offset :=
  let target := p.toInt + stride.toInt
  if target < Int64.minValue.toInt then Int64.minValue
  else if Int64.maxValue.toInt < target then Int64.maxValue
  else Int64.ofInt target

/-- The offset of that value, if there is one. -/
def ofInt? (n : Int) : Option Offset :=
  if Int64.minValue.toInt ≤ n ∧ n ≤ Int64.maxValue.toInt then some (Int64.ofInt n) else none

/-- Whether a list is exactly `start`, `start + 1`, ..., `stop - 1`. -/
def isRun (start stop : Offset) : List Offset → Bool
  | [] => stop ≤ start
  | p :: ps => p = start && start < stop && isRun start.after stop ps

/-- The most offsets that a list has room for: eight bytes each, and a signed word counts them. -/
def room : Nat := 0x7fffffffffffffff / 8

/-- Whether a list has room for all offsets from `start` up to but not including `stop`. -/
def fits (start stop : Offset) : Bool :=
  (stop.toInt - start.toInt).toNat ≤ room

/-- Before a greater offset nothing overflows. -/
theorem toInt_add_one {p q : Offset} (h : p < q) : (p + 1).toInt = p.toInt + 1 := by
  have hlt := Int64.lt_iff_toInt_lt.1 h
  have h₁ := q.toInt_lt
  have h₂ := p.le_toInt
  rw [Int64.toInt_add, show (1 : Int64).toInt = 1 by decide,
    Int.bmod_eq_of_le (by omega) (by omega)]

/-- A list of offsets in brackets. -/
def renderList (ps : List Offset) : String :=
  "[" ++ ", ".intercalate (ps.map toString) ++ "]"

end Offset

end Splittable
