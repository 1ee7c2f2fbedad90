/-!
# Binary64 numbers

The numbers of the IEEE 754 binary64 format, with rounding to nearest and ties to even.  A finite
number is a sign and an exact rational magnitude that the format holds, so an operation needs no
algorithm of its own: it computes the exact result in the rationals and rounds it once.

* `nearest`          : the rounding of a magnitude, ties to even;
* `Binary64.round`   : the number that stands for a rational, infinite beyond the largest one;
* `+`, `-`, `*`, `/` : the exact result, rounded once;
* `≤`, `<`           : the order of the values; nothing is comparable with `nan`.
-/

namespace Splittable

/-! ## Rounding a magnitude -/

/-- The exponent of the largest power of two that is at most `q`, for a positive `q`. -/
def floorLog2 (q : Rat) : Int :=
  let estimate : Int := (q.num.natAbs.log2 : Int) - (q.den.log2 : Int)
  if (2 : Rat) ^ estimate ≤ q then estimate else estimate - 1

/-- The exponent of the spacing of binary64 numbers around `q`: 53 significant bits, and never
finer than the least subnormal number. -/
def spacingExponent (q : Rat) : Int :=
  max (floorLog2 q - 52) (-1074)

/-- The distance between neighbouring binary64 numbers around `q`. -/
def spacing (q : Rat) : Rat :=
  2 ^ spacingExponent q

/-- The integer nearest to `q`; of two equally near ones the even one. -/
def roundHalfEven (q : Rat) : Int :=
  let below := q.floor
  let rest := q - below
  if rest < 1 / 2 then below
  else if 1 / 2 < rest then below + 1
  else if below % 2 = 0 then below else below + 1

/-- The multiple of the spacing that is nearest to `q`, ties to the even multiple. -/
def nearest (q : Rat) : Rat :=
  roundHalfEven (q / spacing q) * spacing q

/-- A magnitude that binary64 holds exactly. -/
def Fits (q : Rat) : Prop :=
  0 ≤ q ∧ q < (2 : Rat) ^ (1024 : Int) ∧ (q / spacing q).den = 1

instance (q : Rat) : Decidable (Fits q) :=
  inferInstanceAs (Decidable (_ ∧ _ ∧ _))

/-! ## The numbers -/

/-- A binary64 number.  There is one `nan`; zero has a sign like every other number. -/
inductive Binary64 where
  | nan
  | infinite (negative : Bool)
  | finite (negative : Bool) (magnitude : Rat) (fits : Fits magnitude)
deriving DecidableEq

namespace Binary64

/-- The number nearest to a magnitude; infinite if the magnitude is beyond the largest number. -/
def ofMagnitude (negative : Bool) (q : Rat) : Binary64 :=
  if h : Fits (nearest q) then .finite negative (nearest q) h else .infinite negative

/-- The number nearest to `q`.  An exact zero takes the sign `zeroNegative`; a number that is
rounded to zero keeps its own sign. -/
def round (zeroNegative : Bool) (q : Rat) : Binary64 :=
  if q < 0 then ofMagnitude true (-q)
  else if q = 0 then ofMagnitude zeroNegative 0
  else ofMagnitude false q

/-- The number nearest to an integer. -/
def ofInt (n : Int) : Binary64 :=
  round false n

def zero : Binary64 := ofInt 0
def one : Binary64 := ofInt 1

/-- The exact value of a finite number. -/
def value? : Binary64 → Option Rat
  | .finite true m _ => some (-m)
  | .finite false m _ => some m
  | _ => none

def isNaN : Binary64 → Bool
  | .nan => true
  | _ => false

def isInfinite : Binary64 → Bool
  | .infinite _ => true
  | _ => false

/-! ## Order -/

/-- At most, by value: zeros of either sign are equal, and `nan` is comparable with nothing. -/
def ble : Binary64 → Binary64 → Bool
  | .nan, _ => false
  | _, .nan => false
  | .infinite s, .infinite t => s || !t
  | .infinite s, .finite .. => s
  | .finite .., .infinite t => !t
  | .finite s m _, .finite t n _ => (if s then -m else m) ≤ (if t then -n else n)

/-- Less, by value. -/
def blt (x y : Binary64) : Bool :=
  !x.isNaN && !y.isNaN && !y.ble x

instance : LE Binary64 := ⟨fun x y => x.ble y = true⟩
instance : LT Binary64 := ⟨fun x y => x.blt y = true⟩
instance (x y : Binary64) : Decidable (x ≤ y) := inferInstanceAs (Decidable (_ = true))
instance (x y : Binary64) : Decidable (x < y) := inferInstanceAs (Decidable (_ = true))

/-- Equality of values: `nan` differs from itself and zeros of either sign are equal. -/
def sameValue (x y : Binary64) : Bool :=
  x.ble y && y.ble x

/-- `x` held between `low` and `high`. -/
def clamp (x low high : Binary64) : Binary64 :=
  let raised := if x < low then low else x
  if high < raised then high else raised

/-- The numbers from zero to one, both included. -/
def InUnit (x : Binary64) : Prop :=
  zero ≤ x ∧ x ≤ one

instance (x : Binary64) : Decidable x.InUnit := inferInstanceAs (Decidable (_ ∧ _))

/-- The largest integer that is at most the number; zero for the numbers that are not finite. -/
def floor (x : Binary64) : Int :=
  match x.value? with
  | some q => q.floor
  | none => 0

/-! ## Arithmetic -/

def neg : Binary64 → Binary64
  | .nan => .nan
  | .infinite s => .infinite !s
  | .finite s m h => .finite (!s) m h

/-- The exact sum, rounded.  A sum of zero is negative only if both terms are negative. -/
def add : Binary64 → Binary64 → Binary64
  | .nan, _ => .nan
  | _, .nan => .nan
  | .infinite s, .infinite t => if s = t then .infinite s else .nan
  | .infinite s, .finite .. => .infinite s
  | .finite .., .infinite t => .infinite t
  | .finite s m _, .finite t n _ =>
    round (s && t) ((if s then -m else m) + (if t then -n else n))

def sub (x y : Binary64) : Binary64 :=
  x.add y.neg

/-- The exact product, rounded. -/
def mul : Binary64 → Binary64 → Binary64
  | .nan, _ => .nan
  | _, .nan => .nan
  | .infinite s, .infinite t => .infinite (s != t)
  | .infinite s, .finite t n _ => if n = 0 then .nan else .infinite (s != t)
  | .finite s m _, .infinite t => if m = 0 then .nan else .infinite (s != t)
  | .finite s m _, .finite t n _ => ofMagnitude (s != t) (m * n)

/-- The exact quotient, rounded. -/
def div : Binary64 → Binary64 → Binary64
  | .nan, _ => .nan
  | _, .nan => .nan
  | .infinite _, .infinite _ => .nan
  | .infinite s, .finite t _ _ => .infinite (s != t)
  | .finite s _ _, .infinite t => ofMagnitude (s != t) 0
  | .finite s m _, .finite t n _ =>
    if n = 0 then (if m = 0 then .nan else .infinite (s != t))
    else ofMagnitude (s != t) (m / n)

instance : Neg Binary64 := ⟨neg⟩
instance : Add Binary64 := ⟨add⟩
instance : Sub Binary64 := ⟨sub⟩
instance : Mul Binary64 := ⟨mul⟩
instance : Div Binary64 := ⟨div⟩

end Binary64

end Splittable
