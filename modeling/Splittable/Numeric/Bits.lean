import Splittable.Numeric.Binary64

/-!
# The 64 bits of a number

The interchange encoding of binary64: a sign bit, eleven bits of exponent and 52 bits of mantissa,
from the most significant bit down.  `Binary64.ofBits` reads every pattern, taking all patterns of
`nan` for the one `nan`; `Binary64.toBits` writes a number.
-/

namespace Splittable.Binary64

/-- The leading bit of a full mantissa, which the pattern leaves out. -/
def leadingBit : Nat := 0x10000000000000

/-- The number that a pattern of 64 bits stands for. -/
def ofBits (bits : UInt64) : Binary64 :=
  let negative := (bits >>> 63) != 0
  let exponent := ((bits >>> 52) &&& 0x7FF).toNat
  let mantissa := (bits &&& 0xFFFFFFFFFFFFF).toNat
  if exponent = 0x7FF then
    if mantissa = 0 then .infinite negative else .nan
  else if exponent = 0 then
    ofMagnitude negative (mantissa * (2 : Rat) ^ (-1074 : Int))
  else
    ofMagnitude negative ((leadingBit + mantissa : Nat) * (2 : Rat) ^ ((exponent : Int) - 1075))

/-- The pattern of 64 bits that stands for a number. -/
def toBits : Binary64 → UInt64
  | .nan => 0x7FF8000000000000
  | .infinite s => sign s ||| 0x7FF0000000000000
  | .finite s m _ =>
    let mantissa := (m / spacing m).num.natAbs
    let exponent := if mantissa < leadingBit then 0 else (spacingExponent m + 1075).toNat
    sign s ||| UInt64.ofNat (exponent * leadingBit + mantissa % leadingBit)
where
  sign (s : Bool) : UInt64 := if s then 0x8000000000000000 else 0

end Splittable.Binary64
