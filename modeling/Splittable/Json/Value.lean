import Splittable.Numeric.Decimal

/-!
# JSON values

A value keeps what its text says: a number its digits, an object its entries in order with every
repetition, a string the surrogate halves that were written as escapes.  What a value means is
decided where it is used (`Json.int64?`, `Json.binary64?`, `Json.fields?`).
-/

namespace Splittable

/-- A part of a JSON string: a character, or a surrogate half written as an escape. -/
inductive Piece where
  | char (c : Char)
  | half (code : Nat)
deriving DecidableEq, Repr

/-- The sign in front of the digits of an exponent. -/
inductive ExponentSign where
  | unsigned
  | plus
  | minus
deriving DecidableEq, Repr

/-- A JSON number as it is written: the digits before the point, after it, and in the exponent.
A number without a point has no `places`. -/
structure Numeral where
  negative : Bool
  whole : List Nat
  places : List Nat
  exponent : Option (ExponentSign × List Nat)
deriving DecidableEq, Repr

/-- A JSON value. -/
inductive Json where
  | null
  | bool (value : Bool)
  | number (numeral : Numeral)
  | string (pieces : List Piece)
  | array (items : List Json)
  | object (entries : List (List Piece × Json))

namespace Piece

def isHigh (code : Nat) : Bool := 0xD800 ≤ code && code ≤ 0xDBFF

def isLow (code : Nat) : Bool := 0xDC00 ≤ code && code ≤ 0xDFFF

/-- The characters of a string; none if a surrogate half stands alone. -/
def text? : List Piece → Option (List Char)
  | [] => some []
  | .char c :: rest => (text? rest).map (c :: ·)
  | .half high :: .half low :: rest =>
    if isHigh high && isLow low then
      (text? rest).map (Char.ofNat (0x10000 + (high - 0xD800) * 0x400 + (low - 0xDC00)) :: ·)
    else none
  | .half _ :: _ => none

/-- The pieces of plain text. -/
def ofString (s : String) : List Piece :=
  s.toList.map .char

end Piece

/-! ## Numbers -/

namespace Numeral

/-- The integer `n`. -/
def ofInt (n : Int) : Numeral :=
  ⟨n < 0, Decimal.digitsOf n.natAbs, [], none⟩

/-- The integer that a number is written as.  A number with a point or an exponent is no integer,
and neither is `-0`. -/
def int? (n : Numeral) : Option Int :=
  if n.places.isEmpty && n.exponent.isNone then
    let magnitude := Decimal.ofDigits n.whole
    if n.negative then (if magnitude = 0 then none else some (-magnitude)) else some magnitude
  else none

/-- Takes digits behind `significand` as long as it stays within 64 bits; the digits left over. -/
def absorb (significand : Nat) : List Nat → Nat × List Nat
  | [] => (significand, [])
  | d :: ds =>
    if significand * 10 + d < UInt64.size then absorb (significand * 10 + d) ds
    else (significand, d :: ds)

/-- The leading digits that fit into 64 bits, and the power of ten that scales them.  Digits that
do not fit are dropped; those of them before the point still count for the power. -/
def significand (n : Numeral) : Nat × Int :=
  let (head, dropped) := absorb 0 n.whole
  let (all, rest) := absorb head n.places
  (all, (dropped.length : Int) - (n.places.length - rest.length : Nat))

/-- `f * 10 ^ exponent`, where the power of ten is itself a binary64 number and multiplication and
division round.  None if the result is infinite.  Powers below `10 ^ -308` are taken in steps. -/
def scale (f : Binary64) (exponent : Int) : Option Binary64 :=
  if 308 < exponent then
    if f.sameValue .zero then some f else none
  else if 0 ≤ exponent then
    let scaled := f * .round false ((10 : Rat) ^ exponent)
    if scaled.isInfinite then none else some scaled
  else if -308 ≤ exponent then
    some (f / .round false ((10 : Rat) ^ (-exponent)))
  else if f.sameValue .zero then some f
  else scale (f / .round false ((10 : Rat) ^ (308 : Int))) (exponent + 308)
termination_by (-exponent).toNat
decreasing_by omega

/-- The binary64 number that a number is read as; none if it is too large. -/
def binary64? (n : Numeral) : Option Binary64 :=
  let (head, power) := n.significand
  let signed (f : Binary64) : Binary64 := if n.negative then -f else f
  match n.exponent with
  | none => (scale (.ofInt head) power).map signed
  | some (sign, digits) =>
    let size := Decimal.ofDigits digits
    if 0x80000000 ≤ size then
      if head ≠ 0 && sign != .minus then none else some (signed .zero)
    else
      let shift : Int := if sign = .minus then -size else size
      (scale (.ofInt head) (power + shift)).map signed

/-- How a magnitude is written in JSON: in positional notation with at least one decimal place
from `1e-5` up to below `1e16`, else with one digit before the point and a signed exponent. -/
def ofDecimal (negative : Bool) (d : Decimal) : Numeral :=
  let digits := Decimal.digitsOf d.digits
  let leading : Int := d.exponent + digits.length - 1
  if -5 ≤ leading && leading < 16 then
    let (whole, places) := d.positional
    ⟨negative, whole, if places.isEmpty then [0] else places, none⟩
  else
    let sign : ExponentSign := if leading < 0 then .minus else .plus
    ⟨negative, digits.take 1, digits.drop 1, some (sign, Decimal.digitsOf leading.natAbs)⟩

end Numeral

namespace Json

/-- A number as JSON: the fewest digits that read back, ties to the even digit.  A number that is
not finite has no numeral and is written as `null`. -/
def ofBinary64 : Binary64 → Json
  | .finite negative m _ =>
    if m = 0 then .number ⟨negative, [0], [0], none⟩
    else .number (.ofDecimal negative (Decimal.shortest .toEven m))
  | _ => .null

def ofInt (n : Int) : Json :=
  .number (.ofInt n)

def ofString (s : String) : Json :=
  .string (Piece.ofString s)

/-- An object with the given entries. -/
def ofFields (fields : List (String × Json)) : Json :=
  .object (fields.map fun (name, value) => (Piece.ofString name, value))

/-- A signed 64-bit integer. -/
def int64? : Json → Option Int64
  | .number n => do
    let i ← n.int?
    if Int64.minValue.toInt ≤ i ∧ i ≤ Int64.maxValue.toInt then some (Int64.ofInt i) else none
  | _ => none

/-- An unsigned 64-bit integer. -/
def uint64? : Json → Option UInt64
  | .number n => do
    let i ← n.int?
    if 0 ≤ i ∧ i < UInt64.size then some (UInt64.ofNat i.toNat) else none
  | _ => none

/-- A binary64 number. -/
def binary64? : Json → Option Binary64
  | .number n => n.binary64?
  | _ => none

/-- The text of a string. -/
def text? : Json → Option String
  | .string pieces => (Piece.text? pieces).map String.ofList
  | _ => none

/-- The values given for `name` among the entries of an object. -/
def given (name : String) (entries : List (List Piece × Json)) : List Json :=
  (entries.filter fun (key, _) => Piece.text? key = some name.toList).map (·.2)

/-- The fields of a record, in the order of `names`; none for a field that is absent.  An object
may have them in any order, with other fields among them, but none of them twice; an array has
them in order and may end early. -/
def fields? (names : List String) : Json → Option (List (Option Json))
  | .object entries =>
    if entries.all fun (key, _) => (Piece.text? key).isSome then
      names.mapM fun name =>
        match given name entries with
        | [] => some none
        | [value] => some (some value)
        | _ => none
    else none
  | .array items =>
    if items.length ≤ names.length then
      some (items.map some ++ List.replicate (names.length - items.length) none)
    else none
  | _ => none

end Json

end Splittable
