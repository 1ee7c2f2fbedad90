import Mathlib.Algebra.BigOperators.Group.List.Lemmas
import Splittable.Batch
import Splittable.Proofs.Work.Alone

/-!
# Work items in any order

Every work item has a tracker of its own, and the items share nothing but the tally, which sums up
whatever is counted.  So an item comes to the same at any place in the order, and what came of the
items is put back in the order of the items.

* `alone`           : what an item comes to by itself;
* `runItem_eq`      : so it does among others;
* `runInOrder_perm` : in any order of all positions every item is run once;
* `runOrdered_eq`   : the order in which the items run cannot be seen.
-/

namespace Splittable.Batch

variable {Element Output : Type}

/-! ## One item -/

/-- What comes of an item by itself, and what it counts. -/
def alone (f : Transform Element Output) (elements : List Element) (item : WorkItem) :
    Option (Outcome Output) × Tally :=
  runItem f elements item .empty

variable (f : Transform Element Output) (elements : List Element)

theorem alone_of_getElem? {item : WorkItem} {e : Element} (h : elements[item.element]? = some e) :
    alone f elements item =
      ((process (f.work e) (.new item.span) .empty).1,
        (process (f.work e) (.new item.span) .empty).2.2) := by
  simp only [alone, runItem, h]

/-- **An item comes to the same on any tally**, and what it counts is added. -/
theorem runItem_eq (item : WorkItem) (n : Tally) :
    runItem f elements item n =
      ((alone f elements item).1, n + (alone f elements item).2) := by
  unfold alone runItem
  cases elements[item.element]? with
  | none => exact Prod.ext rfl (add_zero n).symm
  | some e =>
    have hadd := process_add (f.work e) (.new item.span) n 0
    rw [add_zero] at hadd
    simp only [hadd, Tally.empty_eq_zero]

/-! ## All items -/

variable (items : List WorkItem)

/-- The items whose positions are given are run one after the other, each as by itself. -/
theorem runInOrder_eq (order : List Nat) (n : Tally) :
    runInOrder f elements items order n =
      (order.filterMap fun i => items[i]?.map fun item => (i, (alone f elements item).1),
        n + ((order.filterMap (items[·]?)).map fun item => (alone f elements item).2).sum) := by
  induction order generalizing n with
  | nil => simp [runInOrder]
  | cons i order ih =>
    cases hitem : items[i]? with
    | none => simp [runInOrder, hitem, ih]
    | some item => simp [runInOrder, hitem, runItem_eq, ih, add_assoc]

theorem filterMap_range {α β : Type} (l : List α) (g : Nat → α → β) :
    (List.range l.length).filterMap (fun i => l[i]?.map (g i)) =
      l.zipIdx.map fun (a, i) => g i a := by
  induction l generalizing g with
  | nil => rfl
  | cons a l ih =>
    have hrest := ih fun i => g (i + 1)
    simp only [List.length_cons, List.range_succ_eq_map, List.filterMap_cons, List.filterMap_map,
      List.getElem?_cons_zero, Option.map_some, Function.comp_def, List.getElem?_cons_succ,
      List.zipIdx_cons', List.map_cons, List.map_map]
    rw [hrest]
    rfl

theorem items_perm {order : List Nat} (h : order.Perm (List.range items.length)) :
    (order.filterMap (items[·]?)).Perm items := by
  have hall : (List.range items.length).filterMap (items[·]?) = items := by
    have hzip := filterMap_range items fun _ item => item
    simp only [Option.map_id'] at hzip
    exact hzip.trans (List.zipIdx_map_fst 0 items)
  have hperm := h.filterMap (items[·]?)
  rwa [hall] at hperm

/-- **In any order of all positions every item is run once**, and comes to what it comes to by
itself. -/
theorem runInOrder_perm {order : List Nat} (h : order.Perm (List.range items.length)) (n : Tally) :
    (runInOrder f elements items order n).1.Perm
      (items.zipIdx.map fun (item, i) => (i, (alone f elements item).1)) := by
  rw [runInOrder_eq, ← filterMap_range items fun i item => (i, (alone f elements item).1)]
  exact h.filterMap _

/-- **In any order of all positions the same is counted.** -/
theorem runInOrder_tally {order : List Nat} (h : order.Perm (List.range items.length))
    (n : Tally) :
    (runInOrder f elements items order n).2 =
      n + (items.map fun item => (alone f elements item).2).sum := by
  rw [runInOrder_eq]
  exact congrArg (n + ·) ((items_perm items h).map _).sum_eq

theorem lookup_filterMap {α : Type} (g : Nat → Option α) (order : List Nat) (k : Nat) :
    (order.filterMap fun i => (g i).map (i, ·)).lookup k = if k ∈ order then g k else none := by
  induction order with
  | nil => rfl
  | cons i order ih =>
    rw [List.filterMap_cons]
    by_cases hik : k = i
    · subst hik
      cases hg : g k with
      | none => simp [ih, hg]
      | some a => simp
    · cases hg : g i with
      | none => simp [ih, hik]
      | some a =>
        have hne : (k == i) = false := by simpa using hik
        simp [ih, hik, List.lookup_cons, hne]

/-- What came of the items is put back in their order. -/
theorem lookup_runInOrder {order : List Nat} (h : order.Perm (List.range items.length)) (n : Tally)
    {k : Nat} {item : WorkItem} (hk : items[k]? = some item) :
    ((runInOrder f elements items order n).1.lookup k).join = (alone f elements item).1 := by
  have hmem : k ∈ order := by
    obtain ⟨hlt, _⟩ := List.getElem?_eq_some_iff.1 hk
    exact h.mem_iff.2 (List.mem_range.2 hlt)
  have hlookup := lookup_filterMap (fun i => items[i]?.map fun item => (alone f elements item).1)
    order k
  simp only [Option.map_map, Function.comp_def] at hlookup
  rw [runInOrder_eq]
  simp only [hlookup, hmem, hk, if_true, Option.map_some, Option.join_some]

theorem ordered_runInOrder {order : List Nat} (h : order.Perm (List.range items.length))
    (n : Tally) :
    ((List.range items.length).map fun k =>
      ((runInOrder f elements items order n).1.lookup k).join) =
        items.map fun item => (alone f elements item).1 := by
  refine List.ext_getElem (by simp) fun k hk _ => ?_
  rw [List.length_map, List.length_range] at hk
  simp only [List.getElem_map, List.getElem_range]
  exact lookup_runInOrder f elements items h n (List.getElem?_eq_getElem hk)

/-! ## The batch -/

/-- **The order in which the items run cannot be seen** in what comes of a batch. -/
theorem runOrdered_eq {settings : Settings} (hsettings : settings.validate = .ok ())
    {items : List WorkItem} (hitems : workItems f settings elements = .ok items)
    {order : List WorkItem → List Nat}
    (horder : (order items).Perm (List.range items.length)) (n : Tally) :
    runOrdered f settings elements order n =
      (report items (items.map fun item => (alone f elements item).1),
        n + (items.map fun item => (alone f elements item).2).sum) := by
  simp only [runOrdered, hsettings, hitems]
  exact Prod.ext (congrArg (report items) (ordered_runInOrder f elements items horder n))
    (runInOrder_tally f elements items horder n)

end Splittable.Batch
