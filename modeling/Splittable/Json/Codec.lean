import Splittable.Coordination.Checkpoint
import Splittable.Json.Reader
import Splittable.Json.Writer
import Splittable.Span
import Splittable.Settings

/-!
# Values in JSON

How spans, splits, progress, interleavings and settings are written as JSON and read back.  A
record is written as an object with its fields in order; it is read from an object with the fields
in any order or from an array with the fields in order.  Reading checks no bounds.

* `Settings.load` : settings from the content of a file.
-/

namespace Splittable

namespace Span

def fieldNames : List String := ["start", "end"]

def toJson (s : Span) : Json :=
  .ofFields [("start", .ofInt s.start.toInt), ("end", .ofInt s.stop.toInt)]

def ofJson? (j : Json) : Option Span :=
  match j.fields? fieldNames with
  | some [some start, some stop] => do
    let start ← start.int64?
    let stop ← stop.int64?
    return ⟨start, stop⟩
  | _ => none

end Span

namespace Split

def fieldNames : List String := ["primary", "residual"]

def toJson (s : Split) : Json :=
  .ofFields [("primary", s.primary.toJson), ("residual", s.residual.toJson)]

def ofJson? (j : Json) : Option Split :=
  match j.fields? fieldNames with
  | some [some primary, some residual] => do
    let primary ← Span.ofJson? primary
    let residual ← Span.ofJson? residual
    return ⟨primary, residual⟩
  | _ => none

end Split

namespace Progress

def fieldNames : List String := ["done", "remaining"]

def toJson (p : Progress) : Json :=
  .ofFields [("done", .ofBinary64 p.done), ("remaining", .ofBinary64 p.remaining)]

def ofJson? (j : Json) : Option Progress :=
  match j.fields? fieldNames with
  | some [some done, some remaining] => do
    let done ← done.binary64?
    let remaining ← remaining.binary64?
    return ⟨done, remaining⟩
  | _ => none

end Progress

namespace Interleaving

def toJson (i : Interleaving) : Json :=
  .ofString i.tag

/-- The interleaving of a name. -/
def ofTag? (tag : String) : Option Interleaving :=
  all.find? (·.tag = tag)

/-- A name, or an object with the name as its only key and `null` as its value. -/
def ofJson? : Json → Option Interleaving
  | .object [(key, .null)] => do ofTag? (← (Json.string key).text?)
  | j => do ofTag? (← j.text?)

end Interleaving

namespace Settings

def fieldNames : List String :=
  ["split_fraction", "signal_timeout_ms", "initial_splits", "parallelism"]

def toJson (s : Settings) : Json :=
  .ofFields [
    ("split_fraction", .ofBinary64 s.splitFraction),
    ("signal_timeout_ms", .ofInt s.signalTimeout.toNat),
    ("initial_splits", .ofInt s.initialSplits.toNat),
    ("parallelism", match s.parallelism with | some n => .ofInt n.toNat | none => .null)]

/-- A field that has a default where it is absent. -/
def field? {α : Type} (otherwise : α) (read : Json → Option α) : Option Json → Option α
  | some j => read j
  | none => some otherwise

/-- A number, or `null` for none. -/
def optional? : Json → Option (Option UInt64)
  | .null => some none
  | j => j.uint64?.map some

/-- Settings, with the default for every field that is absent. -/
def ofJson? (j : Json) : Option Settings :=
  match j.fields? fieldNames with
  | some [fraction, timeout, splits, parallelism] => do
    let fraction ← field? default.splitFraction (·.binary64?) fraction
    let timeout ← field? default.signalTimeout (·.uint64?) timeout
    let splits ← field? default.initialSplits (·.uint64?) splits
    let parallelism ← field? default.parallelism optional? parallelism
    return ⟨fraction, timeout, splits, parallelism⟩
  | _ => none

/-- Why settings could not be loaded: there is no such file or it is no text, the text is no JSON or
not that of settings, or the settings are out of range. -/
inductive LoadError where
  | unreadable
  | unparsable
  | invalid (error : SettingsError)
deriving DecidableEq

def LoadError.message (path : String) : LoadError → String
  | .unreadable => s!"failed to read config {path}"
  | .unparsable => s!"failed to parse config {path}"
  | .invalid error => error.message

/-- The settings in the content of a file, if there is a file. -/
def load (content : Option ByteArray) : Except LoadError Settings :=
  match content.bind String.fromUTF8? with
  | none => .error .unreadable
  | some text =>
    match (Json.parse? text).bind ofJson? with
    | none => .error .unparsable
    | some settings =>
      match settings.validate with
      | .error error => .error (.invalid error)
      | .ok _ => .ok settings

end Settings

end Splittable
