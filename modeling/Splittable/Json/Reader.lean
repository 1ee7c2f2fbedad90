import Splittable.Json.Value

/-!
# Reading JSON

The JSON grammar over characters: blanks are the four of the grammar, nothing may follow the
value but blanks, and there are no comments, no trailing commas and no leading zeros.  Each
reader takes what it reads off the front of the text and returns the rest.
-/

namespace Splittable.Json

def isBlank (c : Char) : Bool :=
  c = ' ' || c = '\n' || c = '\t' || c = '\r'

def skipBlanks (cs : List Char) : List Char :=
  cs.dropWhile isBlank

/-! ## Numbers -/

/-- The value of a decimal digit. -/
def digit? (c : Char) : Option Nat :=
  if '0' ≤ c ∧ c ≤ '9' then some (c.toNat - 48) else none

/-- The digits in front of the text. -/
def readDigits : List Char → List Nat × List Char
  | [] => ([], [])
  | c :: cs =>
    match digit? c with
    | some d => let (ds, rest) := readDigits cs; (d :: ds, rest)
    | none => ([], c :: cs)

/-- Digits before the point: at least one, and a zero only alone. -/
def readWhole (cs : List Char) : Option (List Nat × List Char) :=
  match readDigits cs with
  | ([], _) => none
  | (0 :: _ :: _, _) => none
  | read => some read

/-- A point and at least one digit, if there is a point. -/
def readPlaces : List Char → Option (List Nat × List Char)
  | '.' :: cs =>
    match readDigits cs with
    | ([], _) => none
    | read => some read
  | cs => some ([], cs)

def readExponentSign : List Char → ExponentSign × List Char
  | '+' :: cs => (.plus, cs)
  | '-' :: cs => (.minus, cs)
  | cs => (.unsigned, cs)

/-- The mark `e`, a sign and at least one digit, if there is a mark. -/
def readExponent : List Char → Option (Option (ExponentSign × List Nat) × List Char)
  | [] => some (none, [])
  | c :: cs =>
    if c = 'e' ∨ c = 'E' then
      let (sign, cs) := readExponentSign cs
      match readDigits cs with
      | ([], _) => none
      | (ds, rest) => some (some (sign, ds), rest)
    else some (none, c :: cs)

def readNumeral (cs : List Char) : Option (Numeral × List Char) := do
  let (negative, cs) : Bool × List Char :=
    match cs with
    | '-' :: cs => (true, cs)
    | cs => (false, cs)
  let (whole, cs) ← readWhole cs
  let (places, cs) ← readPlaces cs
  let (exponent, cs) ← readExponent cs
  return (⟨negative, whole, places, exponent⟩, cs)

/-! ## Strings -/

/-- The value of a hexadecimal digit of either case. -/
def hexDigit? (c : Char) : Option Nat :=
  if '0' ≤ c ∧ c ≤ '9' then some (c.toNat - 48)
  else if 'a' ≤ c ∧ c ≤ 'f' then some (c.toNat - 87)
  else if 'A' ≤ c ∧ c ≤ 'F' then some (c.toNat - 55)
  else none

/-- The code of four hexadecimal digits. -/
def hexCode? (a b c d : Char) : Option Nat := do
  let a ← hexDigit? a
  let b ← hexDigit? b
  let c ← hexDigit? c
  let d ← hexDigit? d
  return ((a * 16 + b) * 16 + c) * 16 + d

/-- The piece that a four-digit escape stands for. -/
def pieceOfCode (code : Nat) : Piece :=
  if Piece.isHigh code || Piece.isLow code then .half code else .char (Char.ofNat code)

/-- The character that a one-letter escape stands for. -/
def escaped? : Char → Option Char
  | '"' => some '"'
  | '\\' => some '\\'
  | '/' => some '/'
  | 'b' => some '\x08'
  | 'f' => some '\x0c'
  | 'n' => some '\n'
  | 'r' => some '\r'
  | 't' => some '\t'
  | _ => none

/-- The pieces up to the closing quote.  Control characters occur as escapes only. -/
def readPieces : List Char → Option (List Piece × List Char)
  | [] => none
  | '"' :: cs => some ([], cs)
  | '\\' :: 'u' :: a :: b :: c :: d :: cs => do
    let code ← hexCode? a b c d
    let (pieces, rest) ← readPieces cs
    return (pieceOfCode code :: pieces, rest)
  | '\\' :: e :: cs => do
    let c ← escaped? e
    let (pieces, rest) ← readPieces cs
    return (.char c :: pieces, rest)
  | c :: cs =>
    if c.toNat < 32 then none
    else do
      let (pieces, rest) ← readPieces cs
      return (.char c :: pieces, rest)

/-! ## Values -/

mutual

/-- A value; `fuel` bounds the nesting of the readers and a text of `n` characters needs at most
`2 * n + 2`. -/
def readValue : Nat → List Char → Option (Json × List Char)
  | 0, _ => none
  | fuel + 1, cs =>
    match skipBlanks cs with
    | 'n' :: 'u' :: 'l' :: 'l' :: cs => some (.null, cs)
    | 't' :: 'r' :: 'u' :: 'e' :: cs => some (.bool true, cs)
    | 'f' :: 'a' :: 'l' :: 's' :: 'e' :: cs => some (.bool false, cs)
    | '"' :: cs => do
      let (pieces, rest) ← readPieces cs
      return (.string pieces, rest)
    | '[' :: cs =>
      match skipBlanks cs with
      | ']' :: rest => some (.array [], rest)
      | cs => do
        let (item, cs) ← readValue fuel cs
        let (items, rest) ← readItems fuel cs
        return (.array (item :: items), rest)
    | '\x7b' :: cs =>
      match skipBlanks cs with
      | '\x7d' :: rest => some (.object [], rest)
      | cs => do
        let (entry, cs) ← readEntry fuel cs
        let (entries, rest) ← readEntries fuel cs
        return (.object (entry :: entries), rest)
    | cs => do
      let (numeral, rest) ← readNumeral cs
      return (.number numeral, rest)

/-- The further items of an array, up to the closing bracket. -/
def readItems : Nat → List Char → Option (List Json × List Char)
  | 0, _ => none
  | fuel + 1, cs =>
    match skipBlanks cs with
    | ']' :: rest => some ([], rest)
    | ',' :: cs => do
      let (item, cs) ← readValue fuel cs
      let (items, rest) ← readItems fuel cs
      return (item :: items, rest)
    | _ => none

/-- A key, a colon and a value. -/
def readEntry : Nat → List Char → Option ((List Piece × Json) × List Char)
  | 0, _ => none
  | fuel + 1, cs =>
    match skipBlanks cs with
    | '"' :: cs => do
      let (key, cs) ← readPieces cs
      match skipBlanks cs with
      | ':' :: cs => do
        let (value, rest) ← readValue fuel cs
        return ((key, value), rest)
      | _ => none
    | _ => none

/-- The further entries of an object, up to the closing brace. -/
def readEntries : Nat → List Char → Option (List (List Piece × Json) × List Char)
  | 0, _ => none
  | fuel + 1, cs =>
    match skipBlanks cs with
    | '\x7d' :: rest => some ([], rest)
    | ',' :: cs => do
      let (entry, cs) ← readEntry fuel cs
      let (entries, rest) ← readEntries fuel cs
      return (entry :: entries, rest)
    | _ => none

end

/-- The value that a whole text stands for. -/
def parse? (text : String) : Option Json :=
  let cs := text.toList
  match readValue (2 * cs.length + 2) cs with
  | some (value, rest) => if (skipBlanks rest).isEmpty then some value else none
  | none => none

end Splittable.Json
