import Splittable.Proofs.Batch.Items
import Splittable.Proofs.Batch.Pool
import Splittable.Striding

/-!
# What a batch comes to

A batch comes to what its items come to by themselves: to all of their outputs in the order of the
items, or to the failure that stands first in that order, whenever it happened.

* `FirstFault`   : the first of several outcomes with a fault;
* `collect_spec` : the outputs of all items, or the failure of the first one that has a fault;
* `Settles`      : what a batch comes to, said of its items by themselves;
* `runs_alike`   : so it does, in whatever order and however interleaved they run.
-/

namespace Splittable.Batch

variable {Element Output : Type}

/-! ## Outcomes -/

/-- The outcome at position `k` has a fault, and none before it has. -/
structure FirstFault (outcomes : List (Outcome Output)) (k : Nat) (outcome : Outcome Output)
    (fault : Fault) : Prop where
  here : outcomes[k]? = some outcome
  fault_eq : outcome.fault = some fault
  before : ∀ (j : Nat) (o : Outcome Output), j < k → outcomes[j]? = some o → o.fault = none

theorem FirstFault.head {outcome : Outcome Output} {fault : Fault}
    (h : outcome.fault = some fault) (outcomes : List (Outcome Output)) :
    FirstFault (outcome :: outcomes) 0 outcome fault :=
  ⟨rfl, h, fun j _ hj => by omega⟩

theorem FirstFault.cons {outcomes : List (Outcome Output)} {k : Nat} {o outcome : Outcome Output}
    {fault : Fault} (h : FirstFault outcomes k outcome fault) (ho : o.fault = none) :
    FirstFault (o :: outcomes) (k + 1) outcome fault := by
  refine ⟨h.here, h.fault_eq, fun j o' hj hget => ?_⟩
  cases j with
  | zero =>
    cases hget
    exact ho
  | succ j => exact h.before j o' (by omega) hget

theorem FirstFault.not_all {outcomes : List (Outcome Output)} {k : Nat} {outcome : Outcome Output}
    {fault : Fault} (h : FirstFault outcomes k outcome fault) :
    ¬ ∀ o ∈ outcomes, o.fault = none := by
  intro hall
  have hnone := hall outcome (List.mem_of_getElem? h.here)
  cases h.fault_eq.symm.trans hnone

/-- **The outputs of all items, or the failure of the first one that has a fault.** -/
theorem collect_spec {items : List WorkItem} {outcomes : List (Outcome Output)}
    (hlength : items.length = outcomes.length) :
    ((∀ o ∈ outcomes, o.fault = none) ∧
      collect (items.zip outcomes) = .ok (outcomes.flatMap (·.outputs))) ∨
    ∃ (k : Nat) (item : WorkItem) (outcome : Outcome Output) (fault : Fault),
      items[k]? = some item ∧ FirstFault outcomes k outcome fault ∧
      collect (items.zip outcomes) = .error (.element item.element item.span fault) := by
  induction items generalizing outcomes with
  | nil =>
    cases List.length_eq_zero_iff.1 hlength.symm
    exact Or.inl ⟨List.forall_mem_nil _, rfl⟩
  | cons item items ih =>
    obtain ⟨outcome, outcomes, rfl⟩ := List.exists_of_length_succ outcomes hlength.symm
    rw [List.zip_cons_cons]
    cases hfault : outcome.fault with
    | some fault =>
      refine Or.inr ⟨0, item, outcome, fault, rfl, .head hfault outcomes, ?_⟩
      simp only [collect, Outcome.result, hfault]
    | none =>
      rcases ih (Nat.succ.inj hlength) with
        ⟨hall, hcollect⟩ | ⟨k, item', outcome', fault, hitem, hfirst, hcollect⟩
      · refine Or.inl ⟨List.forall_mem_cons.2 ⟨hfault, hall⟩, ?_⟩
        simp only [collect, Outcome.result, hfault, hcollect, List.flatMap_cons]
      · refine Or.inr ⟨k + 1, item', outcome', fault, hitem, hfirst.cons hfault, ?_⟩
        simp only [collect, Outcome.result, hfault, hcollect]

theorem measured_map_some (outcomes : List (Outcome Output)) :
    measured (outcomes.map some) = some outcomes := by
  induction outcomes with
  | nil => rfl
  | cons outcome outcomes ih => simp only [List.map_cons, measured, ih, Option.map_some]

theorem measured_eq_none {outcomes : List (Option (Outcome Output))} (h : none ∈ outcomes) :
    measured outcomes = none := by
  induction outcomes with
  | nil => cases h
  | cons outcome outcomes ih =>
    cases outcome with
    | none => rfl
    | some outcome =>
      have hrest : none ∈ outcomes := by simpa using h
      simp only [measured, ih hrest, Option.map_none]

/-! ## The batch -/

variable (f : Transform Element Output) (elements : List Element)

/-- What a batch of these items comes to, said of the items by themselves.  What they count is added
to the tally, whether or not one of them fails.  There is no outcome if one of them has none;
otherwise the batch succeeds if and only if no item has a fault, with the outputs of all items in
their order, and else fails with the first of the faults in that order. -/
structure Settles (items : List WorkItem) (n : Tally)
    (result : Except BatchError (BatchOutcome Output) × Tally) : Prop where
  tally : result.2 = n + (items.map fun item => (alone f elements item).2).sum
  unmeasured : (∃ item ∈ items, (alone f elements item).1 = none) →
    result.1 = .error .unmeasured
  ok_iff : ∀ outcomes : List (Outcome Output),
    items.map (fun item => (alone f elements item).1) = outcomes.map some →
    ((∃ b, result.1 = .ok b) ↔ ∀ o ∈ outcomes, o.fault = none)
  ok : ∀ outcomes : List (Outcome Output),
    items.map (fun item => (alone f elements item).1) = outcomes.map some →
    (∀ o ∈ outcomes, o.fault = none) →
      result.1 = .ok ⟨outcomes.flatMap (·.outputs), items.length, totalSize items⟩
  error : ∀ outcomes : List (Outcome Output),
    items.map (fun item => (alone f elements item).1) = outcomes.map some →
    (∃ o ∈ outcomes, o.fault ≠ none) →
      ∃ (k : Nat) (item : WorkItem) (outcome : Outcome Output) (fault : Fault),
        items[k]? = some item ∧ FirstFault outcomes k outcome fault ∧
        result.1 = .error (.element item.element item.span fault) ∧
        (BatchError.element item.element item.span fault).message =
          s!"element {item.element} failed over {item.span}: {fault.message}"

theorem report_spec {items : List WorkItem} {outcomes : List (Outcome Output)}
    (h : items.map (fun item => (alone f elements item).1) = outcomes.map some) :
    ((∀ o ∈ outcomes, o.fault = none) ∧
      report items (items.map fun item => (alone f elements item).1) =
        .ok ⟨outcomes.flatMap (·.outputs), items.length, totalSize items⟩) ∨
    ∃ (k : Nat) (item : WorkItem) (outcome : Outcome Output) (fault : Fault),
      items[k]? = some item ∧ FirstFault outcomes k outcome fault ∧
      report items (items.map fun item => (alone f elements item).1) =
        .error (.element item.element item.span fault) := by
  have hlength : items.length = outcomes.length := by simpa using congrArg List.length h
  simp only [h, report, measured_map_some]
  rcases collect_spec hlength with
    ⟨hall, hcollect⟩ | ⟨k, item, outcome, fault, hitem, hfirst, hcollect⟩
  · exact Or.inl ⟨hall, by simp only [hcollect]⟩
  · exact Or.inr ⟨k, item, outcome, fault, hitem, hfirst, by simp only [hcollect]⟩

/-- A report on what the items come to by themselves settles the batch. -/
theorem settles_report (items : List WorkItem) (n : Tally) :
    Settles f elements items n
      (report items (items.map fun item => (alone f elements item).1),
        n + (items.map fun item => (alone f elements item).2).sum) where
  tally := rfl
  unmeasured hnone := by
    have hmem := List.mem_map.2 hnone
    simp only [report, measured_eq_none hmem]
  ok_iff outcomes houtcomes := by
    rcases report_spec f elements houtcomes with
      ⟨hall, hreport⟩ | ⟨k, _, outcome, _, _, hfirst, hreport⟩
    · exact iff_of_true ⟨_, hreport⟩ hall
    · exact iff_of_false (fun ⟨b, hb⟩ => by cases hreport.symm.trans hb) hfirst.not_all
  ok outcomes houtcomes hall := by
    rcases report_spec f elements houtcomes with ⟨_, hreport⟩ | ⟨_, _, _, _, _, hfirst, _⟩
    · exact hreport
    · exact absurd hall hfirst.not_all
  error outcomes houtcomes := by
    rintro ⟨o, ho, hne⟩
    rcases report_spec f elements houtcomes with
      ⟨hall, _⟩ | ⟨k, item, outcome, fault, hitem, hfirst, hreport⟩
    · exact absurd (hall o ho) hne
    · exact ⟨k, item, outcome, fault, hitem, hfirst, hreport, rfl⟩

/-- **However the items of a batch are run, it comes to what they come to by themselves.**  Settings
that are out of range and inverted bounds keep every item from running.  Otherwise every item is run
once, whether or not others fail, and the batch is settled by what the items come to by themselves;
so it is if they are run side by side, one request of one item at a time. -/
theorem runs_alike (settings : Settings) (order : List WorkItem → List Nat)
    (horder : ∀ items, (order items).Perm (List.range items.length)) (n : Tally) :
    (∀ error, settings.validate = .error error →
      runOrdered f settings elements order n = (.error (.settings error), n)) ∧
    (settings.validate = .ok () → ∀ bounds, workItems f settings elements = .error bounds →
      runOrdered f settings elements order n = (.error (.inverted bounds), n)) ∧
    (settings.validate = .ok () → ∀ items, workItems f settings elements = .ok items →
      (∀ item ∈ items, ∃ e, elements[item.element]? = some e ∧
        alone f elements item =
          ((process (f.work e) (.new item.span) .empty).1,
            (process (f.work e) (.new item.span) .empty).2.2) ∧
        (item.span.start ≤ item.span.stop →
          ∃ outcome, (alone f elements item).1 = some outcome)) ∧
      (runInOrder f elements items (order items) n).1.Perm
        (items.zipIdx.map fun (item, k) => (k, (alone f elements item).1)) ∧
      Settles f elements items n (runOrdered f settings elements order n) ∧
      ∀ schedule, runOrdered f settings elements order n =
        (report items ((Pool.start f elements items n).run schedule).finish.1,
          ((Pool.start f elements items n).run schedule).finish.2)) := by
  refine ⟨fun error herror => ?_, fun hok bounds hbounds => ?_, fun hok items hitems => ?_⟩
  · simp only [runOrdered, herror]
  · simp only [runOrdered, hok, hbounds]
  · have hrun := runOrdered_eq f elements hok hitems (horder items) n
    refine ⟨fun item hitem => ?_, runInOrder_perm f elements items (horder items) n, ?_,
      fun schedule => ?_⟩
    · obtain ⟨e, he⟩ := mem_workItems hitems hitem
      have halone := alone_of_getElem? f elements he
      refine ⟨e, he, halone, fun hbounds => ?_⟩
      rw [halone]
      exact exists_process (f.work e) hbounds .empty
    · rw [hrun]
      exact settles_report f elements items n
    · rw [hrun, Pool.finish_run]

/-- Run in reverse order, the second item is the first to fail, and it fails with its first offset;
what is reported is the failure of the first item, after three. -/
theorem runs_alike_reversed :
    let boom (p : Offset) : Stride := ⟨none, 1, none, some (p, ["boom"])⟩
    let elements : List StridedElement := [⟨0, 4, boom 2⟩, ⟨5, 9, boom 5⟩]
    let order (items : List WorkItem) := (List.range items.length).reverse
    let result := runOrdered StridedElement.whole .default elements order .empty
    (∀ items, (order items).Perm (List.range items.length)) ∧
      result.1 = .error (.element 0 ⟨0, 4⟩ (.processing "2" "boom")) ∧
      result.2 = ⟨4, 0, 0, 0, 2⟩ := by
  intro boom elements order result
  have horder : ∀ items, (order items).Perm (List.range items.length) :=
    fun items => List.reverse_perm _
  obtain ⟨_, _, hitems⟩ := runs_alike StridedElement.whole elements .default order horder .empty
  let items : List WorkItem :=
    [⟨0, ⟨0, 4⟩, Span.size ⟨0, 4⟩⟩, ⟨1, ⟨5, 9⟩, Span.size ⟨5, 9⟩⟩]
  obtain ⟨halone, _, hsettles, _⟩ := hitems (by decide +kernel) items rfl
  obtain ⟨first, hfirst, hfault⟩ : ∃ o,
      (alone StridedElement.whole elements ⟨0, ⟨0, 4⟩, Span.size ⟨0, 4⟩⟩).1 = some o ∧
        o.fault = some (.processing "2" "boom") := by
    refine ⟨_, (Option.some_get (h := ?_)).symm, ?_⟩ <;> decide +kernel
  obtain ⟨_, _, _, hmeasured⟩ :=
    halone ⟨1, ⟨5, 9⟩, Span.size ⟨5, 9⟩⟩ (List.mem_cons_of_mem _ List.mem_cons_self)
  obtain ⟨second, hsecond⟩ := hmeasured (by decide)
  refine ⟨horder, ?_, ?_⟩
  · obtain ⟨k, item, outcome, fault, hitem, hfaulty, herror, _⟩ :=
      hsettles.error [first, second]
        (by rw [List.map_cons, List.map_cons, hfirst, hsecond]; rfl)
        ⟨first, List.mem_cons_self, by simp [hfault]⟩
    cases k with
    | zero =>
      cases hitem
      cases hfaulty.here
      cases hfault.symm.trans hfaulty.fault_eq
      exact herror
    | succ k =>
      have hnone := hfaulty.before 0 first (by omega) rfl
      cases hfault.symm.trans hnone
  · rw [show result.2 = _ from hsettles.tally]
    decide +kernel

end Splittable.Batch
