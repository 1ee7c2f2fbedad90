/-!
# Checkpoints

A claim and a split on one tracker can come in any order.  To force an order, the threads are held
at checkpoints: before the lock of the tracker is taken, under the lock before anything takes
effect, and for a claim after the lock was given back.
-/

namespace Splittable

/-- A point at which a thread is held: before it takes the lock, under the lock before its request
takes effect, or after a claim has given the lock back. -/
inductive Checkpoint where
  | claimStarted
  | claimLocked
  | claimVisible
  | splitStarted
  | splitLocked
deriving DecidableEq, Repr

namespace Checkpoint

def all : List Checkpoint :=
  [claimStarted, claimLocked, claimVisible, splitStarted, splitLocked]

def name : Checkpoint → String
  | claimStarted => "claim-started"
  | claimLocked => "claim-locked"
  | claimVisible => "claim-visible"
  | splitStarted => "split-started"
  | splitLocked => "split-locked"

end Checkpoint

/-- The orders of one claim and one split that can be forced: the split is over before anything is
claimed, or one of the two holds the lock while the other waits for it. -/
inductive Interleaving where
  | nonBlocking
  | claimBlocksSplit
  | splitBlocksClaim
deriving DecidableEq, Repr

namespace Interleaving

def all : List Interleaving :=
  [nonBlocking, claimBlocksSplit, splitBlocksClaim]

def name : Interleaving → String
  | nonBlocking => "non-blocking"
  | claimBlocksSplit => "claim-blocks-split"
  | splitBlocksClaim => "split-blocks-claim"

/-- The name in JSON. -/
def tag : Interleaving → String
  | nonBlocking => "NonBlocking"
  | claimBlocksSplit => "ClaimBlocksSplit"
  | splitBlocksClaim => "SplitBlocksClaim"

end Interleaving

end Splittable
