import Splittable.Proofs.Offset.Runs
import Splittable.Span

/-!
# The pieces of a span

A span is divided at bounds that are spaced as evenly as offsets allow.  The pieces lie end to end:
the first begins where the span begins, each of the others where the one before it ends, and the
last ends where the span ends.

* `Tiles`              : spans that lie end to end;
* `Tiles.flatMap_run`  : together they hold the offsets of the whole, in order;
* `toInt_bound`        : where the bounds between the pieces are;
* `pieces_tile`        : the pieces of a span lie end to end, with the empty ones left out.
-/

namespace Splittable

/-- The spans lie end to end from `start` to `stop`. -/
inductive Tiles : Offset → Offset → List Span → Prop where
  | nil (p : Offset) : Tiles p p []
  | cons {start middle stop : Offset} {rest : List Span} : start ≤ middle →
      Tiles middle stop rest → Tiles start stop (⟨start, middle⟩ :: rest)

namespace Tiles

variable {start stop : Offset} {spans : List Span}

theorem single (h : start ≤ stop) : Tiles start stop [⟨start, stop⟩] :=
  .cons h (.nil stop)

theorem le (h : Tiles start stop spans) : start ≤ stop := by
  induction h with
  | nil p => exact Int64.le_refl p
  | cons hle _ ih => exact Int64.le_trans hle ih

theorem le_of_mem (h : Tiles start stop spans) {s : Span} (hs : s ∈ spans) : s.start ≤ s.stop := by
  induction h with
  | nil => cases hs
  | cons hle _ ih =>
    cases hs with
    | head => exact hle
    | tail _ hs => exact ih hs

theorem append {middle : Offset} {rest : List Span} (h : Tiles start middle spans)
    (h' : Tiles middle stop rest) : Tiles start stop (spans ++ rest) := by
  induction h with
  | nil => exact h'
  | cons hle _ ih => exact .cons hle (ih h')

theorem flatMap_run (h : Tiles start stop spans) :
    spans.flatMap (fun s => Offset.run s.start s.stop) = Offset.run start stop := by
  induction h with
  | nil p => exact (Offset.run_self p).symm
  | cons hle htail ih => rw [List.flatMap_cons, ih, Offset.run_append hle htail.le]

/-- Leaving out empty spans leaves no gap. -/
theorem filter_nonempty (h : Tiles start stop spans) :
    Tiles start stop (spans.filter (!·.isEmpty)) := by
  induction h with
  | nil p => exact .nil p
  | @cons start middle stop rest hle _ ih =>
    cases hempty : (Span.mk start middle).isEmpty with
    | false =>
      rw [List.filter_cons_of_pos (by simp [hempty])]
      exact .cons hle ih
    | true =>
      have hge : middle ≤ start := by simpa [Span.isEmpty] using hempty
      rw [List.filter_cons_of_neg (by simp [hempty]), Int64.le_antisymm hle hge]
      exact ih

theorem of_bounds (bound : Nat → Offset) (n : Nat) (h : ∀ i < n, bound i ≤ bound (i + 1)) :
    Tiles (bound 0) (bound n) ((List.range n).map fun i => ⟨bound i, bound (i + 1)⟩) := by
  induction n generalizing bound with
  | zero => exact .nil _
  | succ n ih =>
    rw [List.range_succ_eq_map, List.map_cons, List.map_map]
    exact .cons (h 0 (by omega)) (ih (fun i => bound (i + 1)) fun i hi => h (i + 1) (by omega))

end Tiles

namespace Span

variable {s : Span} {n : Nat}

/-- Where the bounds between the pieces are. -/
theorem toInt_bound (h : s.start ≤ s.stop) {i : Nat} (hi : i ≤ n) (hn : 0 < n) :
    (s.bound n i).toInt = s.start.toInt + i * (s.stop.toInt - s.start.toInt) / n := by
  rw [Offset.le_iff] at h
  have hlow := s.start.le_toInt
  have hhigh := s.stop.toInt_lt
  have hsize : 0 ≤ s.stop.toInt - s.start.toInt := by omega
  have hpart : i * (s.stop.toInt - s.start.toInt) ≤ n * (s.stop.toInt - s.start.toInt) :=
    Int.mul_le_mul_of_nonneg_right (by omega) hsize
  have hfrom : 0 ≤ i * (s.stop.toInt - s.start.toInt) / n :=
    Int.ediv_nonneg (Int.mul_nonneg (by omega) hsize) (by omega)
  have hto : i * (s.stop.toInt - s.start.toInt) / n ≤ s.stop.toInt - s.start.toInt := by
    have hdiv := Int.ediv_le_ediv (c := (n : Int)) (by omega) hpart
    rwa [Int.mul_ediv_cancel_left _ (by omega)] at hdiv
  unfold bound
  rw [Int.tdiv_eq_ediv_of_nonneg (Int.mul_nonneg (by omega) hsize),
    Int64.toInt_ofInt_of_le (by omega) (by omega)]

theorem bound_zero (h : s.start ≤ s.stop) (hn : 0 < n) : s.bound n 0 = s.start := by
  rw [Offset.eq_iff, toInt_bound h (Nat.zero_le n) hn]
  simp

theorem bound_self (h : s.start ≤ s.stop) (hn : 0 < n) : s.bound n n = s.stop := by
  rw [Offset.eq_iff, toInt_bound h (Nat.le_refl n) hn, Int.mul_ediv_cancel_left _ (by omega)]
  omega

theorem bound_le_succ (h : s.start ≤ s.stop) {i : Nat} (hi : i < n) :
    s.bound n i ≤ s.bound n (i + 1) := by
  rw [Offset.le_iff, toInt_bound h (by omega) (by omega), toInt_bound h (by omega) (by omega)]
  have hsize : 0 ≤ s.stop.toInt - s.start.toInt := by
    rw [Offset.le_iff] at h
    omega
  have hstep : i * (s.stop.toInt - s.start.toInt) ≤
      (i + 1 : Nat) * (s.stop.toInt - s.start.toInt) :=
    Int.mul_le_mul_of_nonneg_right (by omega) hsize
  have hdiv := Int.ediv_le_ediv (c := (n : Int)) (by omega) hstep
  omega

/-- **The pieces of a span lie end to end** and leave nothing out. -/
theorem pieces_tile (h : s.start ≤ s.stop) (n : Nat) : Tiles s.start s.stop (s.pieces n) := by
  unfold pieces
  split
  · exact .single h
  · have htiles := Tiles.of_bounds (s.bound n) n fun i hi => bound_le_succ h hi
    rw [bound_zero h (by omega), bound_self h (by omega)] at htiles
    exact htiles.filter_nonempty

end Span

end Splittable
