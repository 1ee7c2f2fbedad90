import Splittable.Settings
import Splittable.Work

/-!
# Batches

A transform says how the work of an element is divided and done.  A batch is a list of elements;
every element is divided into pieces, and every piece is a work item with a tracker of its own.

* `Batch.workItems` : the work items of a batch in order;
* `Batch.run`       : the outputs of all work items in order, or the first failure in that order.
-/

namespace Splittable

/-- Work that can be divided, for elements of type `Element`.  `divide` is given the number of
pieces that is wished for, and `weigh` estimates the cost of a piece. -/
structure Transform (Element Output : Type) where
  initialSpan : Element → Except InvertedBounds Span
  divide : Element → Span → Nat → List Span := fun _ span _ => [span]
  weigh : Element → Span → Binary64 := fun _ span => span.size
  work : Element → Work Output

/-- Counts through spans, each of them divided into pieces of nearly equal length. -/
def Transform.counting : Transform Span Offset where
  initialSpan s := Span.checked s.start s.stop
  divide _ span count := span.pieces count
  work _ := .count

/-- A piece of the element at a position of the batch. -/
structure WorkItem where
  element : Nat
  span : Span
  size : Binary64
deriving DecidableEq

/-- What came of a batch. -/
structure BatchOutcome (Output : Type) where
  outputs : List Output
  workItems : Nat
  totalSize : Binary64

/-- Why a batch failed: the bounds of an element are inverted, the work on a piece failed, or the
tracker of a piece has no progress. -/
inductive BatchError where
  | settings (error : SettingsError)
  | inverted (bounds : InvertedBounds)
  | element (index : Nat) (span : Span) (fault : Fault)
  | unmeasured
deriving DecidableEq

def BatchError.message : BatchError → String
  | .settings error => error.message
  | .inverted bounds => bounds.message
  | .element index span fault => s!"element {index} failed over {span}: {fault.message}"
  | .unmeasured => "the size of a span is negative"

namespace Batch

variable {Element Output : Type}

/-- The pieces of one element. -/
def itemsOf (f : Transform Element Output) (settings : Settings) (index : Nat) (e : Element) :
    Except InvertedBounds (List WorkItem) :=
  match f.initialSpan e with
  | .error bounds => .error bounds
  | .ok whole =>
    .ok ((f.divide e whole settings.initialSplits.toNat).map fun span =>
      ⟨index, span, f.weigh e span⟩)

/-- The pieces of the elements from the position `index` on. -/
def itemsFrom (f : Transform Element Output) (settings : Settings) :
    Nat → List Element → Except InvertedBounds (List WorkItem)
  | _, [] => .ok []
  | index, e :: es =>
    match itemsOf f settings index e with
    | .error bounds => .error bounds
    | .ok items =>
      match itemsFrom f settings (index + 1) es with
      | .error bounds => .error bounds
      | .ok rest => .ok (items ++ rest)

/-- The work items of a batch, in the order of the elements and of the pieces of each. -/
def workItems (f : Transform Element Output) (settings : Settings) (elements : List Element) :
    Except InvertedBounds (List WorkItem) :=
  itemsFrom f settings 0 elements

/-- The sum of the sizes, from the first item on. -/
def totalSize (items : List WorkItem) : Binary64 :=
  items.foldl (fun total item => total + item.size) .zero

/-! ## Running -/

/-- The work on one item, on a tracker of its own. -/
def runItem (f : Transform Element Output) (elements : List Element) (item : WorkItem)
    (n : Tally) : Option (Outcome Output) × Tally :=
  match elements[item.element]? with
  | none => (none, n)
  | some e =>
    let (outcome, _, n) := process (f.work e) (.new item.span) n
    (outcome, n)

/-- The work on the items whose positions are given, in that order; what came of the item at each
position, and the tally of all of it. -/
def runInOrder (f : Transform Element Output) (elements : List Element) (items : List WorkItem) :
    List Nat → Tally → List (Nat × Option (Outcome Output)) × Tally
  | [], n => ([], n)
  | position :: order, n =>
    match items[position]? with
    | none => runInOrder f elements items order n
    | some item =>
      let (outcome, n) := runItem f elements item n
      let (rest, n) := runInOrder f elements items order n
      ((position, outcome) :: rest, n)

/-- The outcomes of all items, if each of them has one. -/
def measured : List (Option (Outcome Output)) → Option (List (Outcome Output))
  | [] => some []
  | none :: _ => none
  | some outcome :: rest => (measured rest).map (outcome :: ·)

/-- The outputs of all items in their order, or the first failure in that order. -/
def collect : List (WorkItem × Outcome Output) → Except BatchError (List Output)
  | [] => .ok []
  | (item, outcome) :: rest =>
    match outcome.result with
    | .error fault => .error (.element item.element item.span fault)
    | .ok outputs =>
      match collect rest with
      | .error error => .error error
      | .ok more => .ok (outputs ++ more)

/-- What came of a batch, from what came of its items in their order.  An item without an outcome
leaves the batch without one, whatever came of the others. -/
def report (items : List WorkItem) (outcomes : List (Option (Outcome Output))) :
    Except BatchError (BatchOutcome Output) :=
  match measured outcomes with
  | none => .error .unmeasured
  | some outcomes =>
    match collect (items.zip outcomes) with
    | .error error => .error error
    | .ok outputs => .ok ⟨outputs, items.length, totalSize items⟩

/-- Runs a batch, the work items in the given order of their positions.  What came of them is put
back into the order of the items, so the order in which they ran cannot be seen. -/
def runOrdered (f : Transform Element Output) (settings : Settings) (elements : List Element)
    (order : List WorkItem → List Nat) (n : Tally) :
    Except BatchError (BatchOutcome Output) × Tally :=
  match settings.validate with
  | .error error => (.error (.settings error), n)
  | .ok _ =>
    match workItems f settings elements with
    | .error bounds => (.error (.inverted bounds), n)
    | .ok items =>
      let (outcomes, n) := runInOrder f elements items (order items) n
      let ordered := (List.range items.length).map fun position => (outcomes.lookup position).join
      (report items ordered, n)

/-- Runs a batch, the work items one after the other. -/
def run (f : Transform Element Output) (settings : Settings) (elements : List Element)
    (n : Tally) : Except BatchError (BatchOutcome Output) × Tally :=
  runOrdered f settings elements (fun items => List.range items.length) n

end Batch

end Splittable
