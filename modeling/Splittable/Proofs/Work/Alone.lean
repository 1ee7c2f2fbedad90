import Mathlib.Algebra.BigOperators.Group.List.Basic
import Splittable.Proofs.Tracker.Steps
import Splittable.Work

/-!
# Work on a tracker of its own

A work never sees a tally, so what comes of it is the same on any tally, and what it counts is
added to whatever was counted before.  Tallies are added count by count: they are a commutative
monoid, with the empty tally as its zero.

* `Tally.add_countClaim`, `Tally.add_countSplit` : counting into a sum;
* `Work.run_add`, `process_add` : counting from a tally on is adding to it;
* `exists_process_of_bounds`    : there is an outcome if the bounds of the span are in order.
-/

namespace Splittable

/-! ## Sums of tallies -/

namespace Tally

attribute [ext] Tally

instance : Zero Tally := ⟨empty⟩

theorem empty_eq_zero : empty = 0 := rfl

instance : AddCommMonoid Tally where
  add_assoc a b c := by ext <;> exact Nat.add_assoc ..
  zero_add a := by ext <;> exact Nat.zero_add _
  add_zero a := by ext <;> exact Nat.add_zero _
  add_comm a b := by ext <;> exact Nat.add_comm ..
  nsmul := nsmulRec

variable (n m : Tally)

theorem add_countClaim (accepted : Bool) :
    (n + m).countClaim accepted = n + m.countClaim accepted := by
  cases accepted <;> rfl

theorem countClaim_add (accepted : Bool) :
    n.countClaim accepted + m = n + m.countClaim accepted := by
  rw [add_comm, ← add_countClaim, add_comm m, add_countClaim]

theorem add_countSplit (succeeded : Bool) :
    (n + m).countSplit succeeded = n + m.countSplit succeeded := by
  cases succeeded <;> rfl

theorem add_countFailure : (n + m).countFailure = n + m.countFailure := rfl

end Tally

variable {Output : Type}

/-! ## What is counted -/

theorem Work.run_add (work : Work Output) (t : Tracker) (n m : Tally) :
    work.run t (n + m) = { work.run t m with tally := n + (work.run t m).tally } := by
  induction work generalizing t m with
  | finish result => rfl
  | claim p next ih =>
    simp only [Work.run, Tally.add_countClaim]
    exact ih _ _ _
  | split f next ih =>
    simp only [Work.run, Tally.add_countSplit]
    exact ih _ _ _
  | emit output next ih => simp only [Work.run, ih t m]
  | inspect next ih => exact ih t t m

theorem judge_add (result : Except Chain Unit) (t : Tracker) (n m : Tally) :
    judge result t (n + m) =
      ((judge result t m).1, (judge result t m).2.1, n + (judge result t m).2.2) := by
  cases result <;> rfl

/-- **Processing does not depend on the tally**, and what it counts is added to it. -/
theorem process_add (work : Work Output) (t : Tracker) (n m : Tally) :
    process work t (n + m) =
      ((process work t m).1, (process work t m).2.1, n + (process work t m).2.2) := by
  simp only [process, work.run_add t n m, judge_add]

/-! ## There is an outcome -/

/-- A work keeps the bounds of its span in order, also if it splits them. -/
theorem Work.run_bounds (work : Work Output) {t : Tracker} (hordered : t.Ordered)
    (hbounds : t.span.start ≤ t.span.stop) (n : Tally) :
    (work.run t n).tracker.span.start ≤ (work.run t n).tracker.span.stop := by
  induction work generalizing t n with
  | finish result => exact hbounds
  | claim p next ih =>
    exact ih _ (hordered.claim p) (by rw [Tracker.claim_span]; exact hbounds) _
  | split f next ih => exact ih _ (hordered.split f) (hordered.split_bounds hbounds f) _
  | emit output next ih => exact ih hordered hbounds n
  | inspect next ih => exact ih t hordered hbounds n

theorem judge_span (result : Except Chain Unit) (t : Tracker) (n : Tally) :
    (judge result t n).2.1.span = t.span := by
  cases result <;> rfl

/-- **A work on a tracker whose bounds are in order has an outcome.** -/
theorem exists_process_of_bounds (work : Work Output) {t : Tracker} (hordered : t.Ordered)
    (hbounds : t.span.start ≤ t.span.stop) (n : Tally) :
    ∃ outcome, (process work t n).1 = some outcome := by
  have hlast := work.run_bounds hordered hbounds n
  rw [← judge_span (work.run t n).result _ (work.run t n).tally] at hlast
  obtain ⟨progress, hprogress⟩ := Tracker.exists_progress hlast
  simp only [process, hprogress, Option.map_some]
  exact ⟨_, rfl⟩

theorem exists_process (work : Work Output) {span : Span} (h : span.start ≤ span.stop)
    (n : Tally) : ∃ outcome, (process work (.new span) n).1 = some outcome :=
  exists_process_of_bounds work (Tracker.ordered_new span) h n

end Splittable
