import Splittable.Json.Value

/-!
# Writing JSON

The compact text of a value: no blanks, entries in their order, and in strings an escape for the
quote, the backslash and the control characters only.
-/

namespace Splittable.Json

/-! ## Strings -/

/-- The lower-case hexadecimal digit of a number below sixteen. -/
def hexDigit (d : Nat) : Char :=
  if d < 10 then Char.ofNat (48 + d) else Char.ofNat (87 + d)

/-- The escape of a code by its four hexadecimal digits. -/
def writeCode (code : Nat) : List Char :=
  ['\\', 'u', hexDigit (code / 4096 % 16), hexDigit (code / 256 % 16), hexDigit (code / 16 % 16),
    hexDigit (code % 16)]

/-- A character inside quotes. -/
def writeChar (c : Char) : List Char :=
  if c = '"' then ['\\', '"']
  else if c = '\\' then ['\\', '\\']
  else if c = '\x08' then ['\\', 'b']
  else if c = '\x0c' then ['\\', 'f']
  else if c = '\n' then ['\\', 'n']
  else if c = '\r' then ['\\', 'r']
  else if c = '\t' then ['\\', 't']
  else if c.toNat < 32 then writeCode c.toNat
  else [c]

def writePiece : Piece → List Char
  | .char c => writeChar c
  | .half code => writeCode code

def writeString (pieces : List Piece) : List Char :=
  '"' :: (pieces.flatMap writePiece ++ ['"'])

/-! ## Numbers -/

def writeDigits (ds : List Nat) : List Char :=
  ds.map Decimal.digitChar

def writeExponent : Option (ExponentSign × List Nat) → List Char
  | none => []
  | some (.unsigned, ds) => 'e' :: writeDigits ds
  | some (.plus, ds) => 'e' :: '+' :: writeDigits ds
  | some (.minus, ds) => 'e' :: '-' :: writeDigits ds

def writeNumeral (n : Numeral) : List Char :=
  (if n.negative then ['-'] else []) ++ writeDigits n.whole ++
    (if n.places.isEmpty then [] else '.' :: writeDigits n.places) ++ writeExponent n.exponent

/-! ## Values -/

mutual

def write : Json → List Char
  | .null => ['n', 'u', 'l', 'l']
  | .bool true => ['t', 'r', 'u', 'e']
  | .bool false => ['f', 'a', 'l', 's', 'e']
  | .number n => writeNumeral n
  | .string pieces => writeString pieces
  | .array [] => ['[', ']']
  | .array (item :: items) => '[' :: (write item ++ writeItems items)
  | .object [] => ['\x7b', '\x7d']
  | .object ((key, value) :: entries) =>
    '\x7b' :: (writeString key ++ ':' :: (write value ++ writeEntries entries))

/-- The further items of an array, with the closing bracket. -/
def writeItems : List Json → List Char
  | [] => [']']
  | item :: items => ',' :: (write item ++ writeItems items)

/-- The further entries of an object, with the closing brace. -/
def writeEntries : List (List Piece × Json) → List Char
  | [] => ['\x7d']
  | (key, value) :: entries =>
    ',' :: (writeString key ++ ':' :: (write value ++ writeEntries entries))

end

/-- The compact text of a value. -/
def compact (value : Json) : String :=
  String.ofList value.write

end Splittable.Json
