import Splittable.Proofs.Batch.Items
import Splittable.Proofs.Batch.Outcome
import Splittable.Proofs.Span.Pieces
import Splittable.Proofs.Tracker.Counting

/-!
# Counting in a batch

The transform that counts through spans, each of them divided into pieces.  However finely the spans
are divided and in whatever order the pieces are counted through, the offsets of all spans come out
in order; only how many pieces there were can be told, from the claims that were refused.

* `alone_counting`  : what counting through one piece comes to;
* `filter_counting` : the pieces of an element lie end to end;
* `flatMap_counted` : the outputs of all pieces are the offsets of all elements, in order;
* `count_batch`     : the work items, the outputs and the tally of a batch.
-/

namespace Splittable.Batch

open Transform (counting)

/-! ## One piece -/

/-- What counting through a span of its own comes to. -/
def counted (span : Span) : Outcome Offset where
  outputs := Offset.run span.start span.stop
  span := span
  progress := (Tracker.exhausted span).progress.getD .empty
  fault := none

theorem process_count_counted {span : Span} (h : span.start ≤ span.stop) (n : Tally) :
    (process .count (.new span) n).1 = some (counted span) := by
  obtain ⟨progress, hprogress⟩ := Tracker.exists_progress (t := .exhausted span) h
  rw [process_count_eq h, hprogress, Option.map_some, counted, hprogress, Option.getD_some]

variable {elements : List Span} {items : List WorkItem}

/-- What an item comes to, and what it counts: a granted claim for each of its offsets, and one that
is refused at the end. -/
theorem alone_counting {item : WorkItem} {e : Span} (he : elements[item.element]? = some e)
    (h : item.span.start ≤ item.span.stop) :
    alone counting elements item =
      (some (counted item.span), ⟨(counted item.span).outputs.length, 1, 0, 0, 0⟩) := by
  rw [alone_of_getElem? counting elements he]
  refine Prod.ext (process_count_counted h .empty) ?_
  exact (congrArg (·.2.2) (process_count_eq h .empty)).trans (zero_add _)

/-! ## All pieces -/

theorem sum_counts {α : Type} (read : WorkItem → List α) (items : List WorkItem) :
    (items.map fun item => (⟨(read item).length, 1, 0, 0, 0⟩ : Tally)).sum =
      ⟨(items.flatMap read).length, items.length, 0, 0, 0⟩ := by
  induction items with
  | nil => rfl
  | cons item items ih =>
    rw [List.map_cons, List.sum_cons, ih, List.flatMap_cons, List.length_append, List.length_cons,
      Nat.add_comm items.length]
    rfl

theorem initialSpan_counting {e whole : Span} :
    counting.initialSpan e = .ok whole ↔ whole = e ∧ e.start ≤ e.stop := by
  simp only [counting, Span.checked]
  split
  · rename_i hlt
    exact iff_of_false (fun h => by cases h) fun h => Int64.not_le.2 hlt h.2
  · rename_i hle
    rw [Int64.not_lt] at hle
    exact ⟨fun h => ⟨(Except.ok.inj h).symm, hle⟩, fun h => by rw [h.1]⟩

variable {settings : Settings}

theorem filter_counting (h : workItems counting settings elements = .ok items) {k : Nat} {e : Span}
    (hk : elements[k]? = some e) :
    Tiles e.start e.stop ((items.filter (·.element = k)).map (·.span)) := by
  obtain ⟨whole, hwhole, hfilter⟩ := filter_itemsFrom h hk
  obtain ⟨rfl, hle⟩ := initialSpan_counting.1 hwhole
  rw [Nat.zero_add] at hfilter
  rw [hfilter]
  exact Span.pieces_tile hle settings.initialSplits.toNat

theorem map_alone_counting (h : workItems counting settings elements = .ok items) :
    items.map (alone counting elements) =
      items.map fun item =>
        (some (counted item.span), ⟨(counted item.span).outputs.length, 1, 0, 0, 0⟩) := by
  refine List.map_congr_left fun item hitem => ?_
  obtain ⟨k, e, whole, hposition, hk, hwhole, hspan⟩ := mem_itemsFrom h hitem
  obtain ⟨rfl, hle⟩ := initialSpan_counting.1 hwhole
  rw [Nat.zero_add] at hposition
  refine alone_counting (by rw [hposition]; exact hk) ?_
  exact (Span.pieces_tile hle settings.initialSplits.toNat).le_of_mem hspan

theorem flatMap_counted (h : workItems counting settings elements = .ok items) :
    items.flatMap (fun item => (counted item.span).outputs) =
      elements.flatMap fun e => Offset.run e.start e.stop := by
  refine flatMap_itemsFrom h (fun span => (counted span).outputs) _ fun e _ whole hwhole => ?_
  obtain ⟨rfl, hle⟩ := initialSpan_counting.1 hwhole
  exact (Span.pieces_tile hle settings.initialSplits.toNat).flatMap_run

/-! ## The batch -/

/-- **Counting in a batch**, whatever the settings and in whatever order the items run.  The work
items stand in the order of the elements, and those of an element divide it from its start to its
end.  The batch succeeds and its outputs are the offsets of all elements, in order; every output is
a claim that was granted, and every item had one claim refused. -/
theorem count_batch (hsettings : settings.validate = .ok ())
    (helements : ∀ e ∈ elements, e.start ≤ e.stop) (order : List WorkItem → List Nat)
    (horder : ∀ items, (order items).Perm (List.range items.length)) :
    ∃ items, workItems counting settings elements = .ok items ∧
      items.Pairwise (·.element ≤ ·.element) ∧
      (∀ item ∈ items, ∃ e, elements[item.element]? = some e) ∧
      (∀ k e, elements[k]? = some e →
        Tiles e.start e.stop ((items.filter (·.element = k)).map (·.span))) ∧
      runOrdered counting settings elements order .empty =
        (.ok ⟨elements.flatMap fun e => Offset.run e.start e.stop, items.length, totalSize items⟩,
          ⟨(elements.flatMap fun e => Offset.run e.start e.stop).length, items.length, 0, 0, 0⟩) ∧
      ∀ schedule, runOrdered counting settings elements order .empty =
        (report items ((Pool.start counting elements items .empty).run schedule).finish.1,
          ((Pool.start counting elements items .empty).run schedule).finish.2) := by
  obtain ⟨items, hitems⟩ : ∃ items, workItems counting settings elements = .ok items :=
    exists_itemsFrom (fun e he => ⟨e, initialSpan_counting.2 ⟨rfl, helements e he⟩⟩) 0
  have hrun := runOrdered_eq counting elements hsettings hitems (horder items) .empty
  have halone := map_alone_counting hitems
  have hflat := flatMap_counted hitems
  have hsettles := settles_report counting elements items .empty
  rw [← hrun] at hsettles
  refine ⟨items, hitems, sorted_itemsFrom hitems, fun item => mem_workItems hitems,
    fun k e hk => filter_counting hitems hk,
    Prod.ext ?_ ?_, fun schedule => by rw [hrun, Pool.finish_run]⟩
  · have houtcomes := congrArg (List.map Prod.fst) halone
    simp only [List.map_map, Function.comp_def] at houtcomes
    have hok := hsettles.ok (items.map fun item => counted item.span)
      (by rw [List.map_map]; exact houtcomes) fun o ho => by
        obtain ⟨item, _, rfl⟩ := List.mem_map.1 ho
        rfl
    rw [hok, List.flatMap_map, hflat]
  · have htallies := congrArg (List.map Prod.snd) halone
    simp only [List.map_map, Function.comp_def] at htallies
    rw [hsettles.tally, htallies, sum_counts fun item => (counted item.span).outputs, hflat]
    exact zero_add _

/-- Three elements in three pieces each, one of the elements empty and so without any piece. -/
theorem count_batch_three :
    let settings : Settings := { Settings.default with initialSplits := 3, parallelism := some 2 }
    let elements : List Span := [⟨0, 5⟩, ⟨7, 7⟩, ⟨-2, 1⟩]
    let order (items : List WorkItem) := (List.range items.length).reverse
    settings.validate = .ok () ∧ (∀ e ∈ elements, e.start ≤ e.stop) ∧
      (∀ items, (order items).Perm (List.range items.length)) ∧
      ∃ size, runOrdered counting settings elements order .empty =
        (.ok ⟨[0, 1, 2, 3, 4, -2, -1, 0], 6, size⟩, ⟨8, 6, 0, 0, 0⟩) := by
  intro settings elements order
  have hsettings : settings.validate = .ok () := by decide +kernel
  have helements : ∀ e ∈ elements, e.start ≤ e.stop := by decide
  have horder : ∀ items, (order items).Perm (List.range items.length) :=
    fun items => List.reverse_perm _
  obtain ⟨items, hitems, _, _, _, hrun, _⟩ := count_batch hsettings helements order horder
  have hlength : items.length = 6 := by
    have hcount : (workItems counting settings elements).map List.length = .ok 6 := by
      decide +kernel
    rw [hitems] at hcount
    exact Except.ok.inj hcount
  refine ⟨hsettings, helements, horder, totalSize items, ?_⟩
  rw [hrun, hlength]
  rfl

end Splittable.Batch
