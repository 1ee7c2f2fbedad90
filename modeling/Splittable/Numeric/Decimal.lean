import Splittable.Numeric.Binary64

/-!
# Shortest decimals

The decimal text of a binary64 number has as few digits as read back to the same number, and is
the nearest to it among those.

* `Decimal.shortest`  : the digits, found on the grids of 1, 2, ..., 17 digits in turn;
* `Binary64.plain`    : the number in a message, positional and without a trailing `.0`.
-/

namespace Splittable

/-- The magnitude `digits * 10 ^ exponent`. -/
structure Decimal where
  digits : Nat
  exponent : Int
deriving DecidableEq, Repr

/-- Which of two equally near decimals is taken. -/
inductive DecimalTie where
  | toEven
  | up
deriving DecidableEq, Repr

namespace Decimal

/-- The exact value. -/
def value (d : Decimal) : Rat :=
  d.digits * (10 : Rat) ^ d.exponent

/-- The decimal without trailing zeros among its digits. -/
def strip (d : Decimal) : Decimal :=
  if h : 0 < d.digits ∧ d.digits % 10 = 0 then
    strip ⟨d.digits / 10, d.exponent + 1⟩
  else d
termination_by d.digits
decreasing_by exact Nat.div_lt_self h.1 (by decide)

/-- The exponent of the largest power of ten that is at most `q`, for a positive `q` that
binary64 holds. -/
def floorLog10 (q : Rat) : Int :=
  let estimate := (floorLog2 q * 30103).fdiv 100000
  if (10 : Rat) ^ (estimate + 1) ≤ q then estimate + 1
  else if (10 : Rat) ^ estimate ≤ q then estimate
  else estimate - 1

/-- Whether the decimal reads back as the magnitude `m`. -/
def readsAs (d : Decimal) (m : Rat) : Bool :=
  nearest d.value = m

/-- Of the two decimals around `m` with `count` digits, the nearest one that reads back. -/
def onGrid (tie : DecimalTie) (m : Rat) (count : Nat) : Option Decimal :=
  let exponent := floorLog10 m + 1 - count
  let below := (m / (10 : Rat) ^ exponent).floor.toNat
  let low : Decimal := ⟨below, exponent⟩
  let high : Decimal := ⟨below + 1, exponent⟩
  match low.readsAs m, high.readsAs m with
  | false, false => none
  | true, false => some low
  | false, true => some high
  | true, true =>
    let middle := low.value + high.value
    if 2 * m < middle then some low
    else if middle < 2 * m then some high
    else match tie with
      | .up => some high
      | .toEven => if below % 2 = 0 then some low else some high

/-- All digits of a magnitude whose denominator is a power of two. -/
def exact (m : Rat) : Decimal :=
  ⟨m.num.natAbs * Nat.pow 5 m.den.log2, -(m.den.log2 : Int)⟩

/-- The decimal with the fewest digits that reads back as the positive magnitude `m`. -/
def shortest (tie : DecimalTie) (m : Rat) : Decimal :=
  (((List.range' 1 17).findSome? (onGrid tie m)).getD (exact m)).strip

/-! ## Digits as text -/

/-- The character of a digit below ten. -/
def digitChar (d : Nat) : Char :=
  Char.ofNat (48 + d)

/-- The decimal digits of a natural number, without leading zeros. -/
def digitsOf (n : Nat) : List Nat :=
  if n < 10 then [n] else digitsOf (n / 10) ++ [n % 10]

/-- The value of a list of digits, the most significant first. -/
def ofDigits (ds : List Nat) : Nat :=
  ds.foldl (fun n d => 10 * n + d) 0

/-- The digits before and after the point in positional notation. -/
def positional (d : Decimal) : List Nat × List Nat :=
  let ds := digitsOf d.digits
  if 0 ≤ d.exponent then
    (ds ++ List.replicate d.exponent.toNat 0, [])
  else
    let places := (-d.exponent).toNat
    if places < ds.length then ds.splitAt (ds.length - places)
    else ([0], List.replicate (places - ds.length) 0 ++ ds)

end Decimal

namespace Binary64

/-- The number in a message: the fewest digits that read back, never an exponent, and a point
only before decimal places.  Of two equally near decimals the upper one is taken. -/
def plain : Binary64 → String
  | .nan => "NaN"
  | .infinite negative => if negative then "-inf" else "inf"
  | .finite negative m _ =>
    let (whole, places) :=
      if m = 0 then ([0], []) else (Decimal.shortest .up m).positional
    let sign := if negative then ['-'] else []
    let point := if places.isEmpty then [] else ['.']
    String.ofList (sign ++ whole.map Decimal.digitChar ++ point ++ places.map Decimal.digitChar)

end Binary64

end Splittable
