import Splittable.Json.Writer

/-!
# Tallies

A tally counts the claims and splits that were granted and refused and the failures that were
recorded, on one tracker or on many.  The counts are natural numbers: they agree with counters of 64
bits, which wrap, as long as fewer than `2 ^ 64` events of a kind are counted.
-/

namespace Splittable

/-- The counts of what happened on some trackers. -/
structure Tally where
  claimsAccepted : Nat
  claimsRejected : Nat
  splitsSucceeded : Nat
  splitsRejected : Nat
  processingErrors : Nat
deriving DecidableEq, Repr

namespace Tally

def empty : Tally := ⟨0, 0, 0, 0, 0⟩

def countClaim (n : Tally) (accepted : Bool) : Tally :=
  if accepted then { n with claimsAccepted := n.claimsAccepted + 1 }
  else { n with claimsRejected := n.claimsRejected + 1 }

def countSplit (n : Tally) (succeeded : Bool) : Tally :=
  if succeeded then { n with splitsSucceeded := n.splitsSucceeded + 1 }
  else { n with splitsRejected := n.splitsRejected + 1 }

def countFailure (n : Tally) : Tally :=
  { n with processingErrors := n.processingErrors + 1 }

/-- Every claim was accepted or rejected. -/
def claimsAttempted (n : Tally) : Nat :=
  n.claimsAccepted + n.claimsRejected

/-- The counts of both. -/
def add (n m : Tally) : Tally where
  claimsAccepted := n.claimsAccepted + m.claimsAccepted
  claimsRejected := n.claimsRejected + m.claimsRejected
  splitsSucceeded := n.splitsSucceeded + m.splitsSucceeded
  splitsRejected := n.splitsRejected + m.splitsRejected
  processingErrors := n.processingErrors + m.processingErrors

instance : Add Tally := ⟨add⟩

/-! ## Reports -/

/-- Every count under its name, the names in alphabetical order. -/
def entries (n : Tally) : List (String × Nat) :=
  [("claims_accepted", n.claimsAccepted),
   ("claims_attempted", n.claimsAttempted),
   ("claims_rejected", n.claimsRejected),
   ("processing_errors", n.processingErrors),
   ("splits_rejected", n.splitsRejected),
   ("splits_succeeded", n.splitsSucceeded)]

/-- The counts as a JSON object. -/
def toJson (n : Tally) : Json :=
  .ofFields (n.entries.map fun (name, count) => (name, .ofInt count))

/-- The report that is printed. -/
def report (n : Tally) : String :=
  let lines := n.entries.map fun (name, count) => s!"  {name}: {count}\n"
  "\n=== Tracker Metrics ===\n" ++ String.join lines ++ "=======================\n\n"

/-- The report that is saved: a JSON object with one count a line, indented by two blanks. -/
def document (n : Tally) : String :=
  let lines := n.entries.map fun (name, count) =>
    "  " ++ (Json.ofString name).compact ++ ": " ++ (Json.ofInt count).compact
  "\x7b\n" ++ ",\n".intercalate lines ++ "\n\x7d"

/-- The error that a report could not be saved at `path`. -/
def unsavedMessage (path : String) : String :=
  s!"failed to create metrics file {path}"

end Tally

/-! ## Shared tallies -/

/-- Tallies in use and the handles to them, each the position of a tally.  Several handles may share
one tally. -/
structure TallyBoard where
  tallies : List Tally
  handles : List Nat

namespace TallyBoard

/-- One handle to an empty tally. -/
def start : TallyBoard := ⟨[.empty], [0]⟩

/-- The tally behind a handle. -/
def read (b : TallyBoard) (handle : Nat) : Tally :=
  ((b.handles[handle]?).bind (b.tallies[·]?)).getD .empty

/-- Counts through a handle. -/
def update (b : TallyBoard) (handle : Nat) (count : Tally → Tally) : TallyBoard :=
  match b.handles[handle]? with
  | some cell => { b with tallies := b.tallies.modify cell count }
  | none => b

/-- A further handle to the same tally, after all others. -/
def share (b : TallyBoard) (handle : Nat) : TallyBoard :=
  { b with handles := b.handles ++ (b.handles[handle]?).toList }

/-- A handle to a new tally, after all others. -/
def fresh (b : TallyBoard) : TallyBoard :=
  { tallies := b.tallies ++ [.empty], handles := b.handles ++ [b.tallies.length] }

end TallyBoard

end Splittable
