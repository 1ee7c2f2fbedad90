import Splittable.Proofs.Numeric.Fractions
import Splittable.Proofs.Tracker.Histories

/-!
# What a split request comes to

The split point is found by way of a binary64 number: the unclaimed work as a number, times the
fraction, rounded down, held to the unclaimed work.  Rounding can carry the product past the
unclaimed work but never out of reach, so in every state that a history leads to, a request is
refused for its fraction, refused because nothing is left, or granted.

* `unclaimed_bounds`     : the width of the unclaimed work;
* `splitDistance_eq`     : how the distance of the split point is rounded;
* `splitDistance_spec`   : it is the floor of a finite number;
* `Within`               : the attempts of a running tracker lie before the end of its span;
* `split_after_history`  : the three things a request comes to, and that every step is exact.
-/

namespace Splittable.Tracker

variable {t : Tracker}

/-! ## The split point -/

theorem unclaimed_bounds (h : t.cursor < t.span.stop) : 0 < t.unclaimed ∧ t.unclaimed < 2 ^ 64 := by
  rw [Offset.lt_iff] at h
  have hlow := t.cursor.le_toInt
  have hhigh := t.span.stop.toInt_lt
  unfold unclaimed
  omega

theorem unclaimed_le (h : t.cursor < t.span.stop) {k : ℤ} (hk : 64 ≤ k) :
    (t.unclaimed : ℚ) ≤ (2 : ℚ) ^ k := by
  have hle : (t.unclaimed : ℚ) ≤ (2 : ℚ) ^ (64 : ℤ) := by exact_mod_cast (unclaimed_bounds h).2.le
  exact hle.trans (zpow_le_zpow_right₀ one_le_two hk)

/-- The distance of the split point: the width is rounded, times the fraction, rounded again, and
rounded down. -/
theorem splitDistance_eq (h : t.cursor < t.span.stop) {f : Binary64} {φ : ℚ}
    (hf : f.value? = some φ) (hφ : 0 ≤ φ) (hφ' : φ ≤ 1) :
    (Binary64.ofInt t.unclaimed * f).value? = some (nearest (nearest t.unclaimed * φ)) ∧
      t.splitDistance f = (nearest (nearest t.unclaimed * φ)).floor := by
  have hproduct := Binary64.value?_ofInt_mul (unclaimed_bounds h).1.le (unclaimed_le h (by omega))
    hf hφ hφ'
  exact ⟨hproduct, by simp only [splitDistance, Binary64.floor, hproduct]⟩

/-- **The distance of the split point is the floor of a finite number** of at most `2 ^ 64`, however
wide the unclaimed work is and whatever the fraction. -/
theorem splitDistance_spec (h : t.cursor < t.span.stop) {f : Binary64} (hf : f.InUnit) :
    ∃ q, (Binary64.ofInt t.unclaimed * f).value? = some q ∧ 0 ≤ q ∧ q ≤ 2 ^ 64 ∧
      t.splitDistance f = q.floor := by
  obtain ⟨φ, hvalue, hφ, hφ'⟩ := Binary64.inUnit_iff.1 hf
  obtain ⟨hproduct, hdistance⟩ := splitDistance_eq h hvalue hφ hφ'
  obtain ⟨-, -, hlow, hhigh⟩ := Binary64.nearest_mul_bounds (by omega) (unclaimed_bounds h).1.le
    (unclaimed_le h (le_refl 64)) hφ hφ'
  exact ⟨_, hproduct, hlow, by exact_mod_cast hhigh, hdistance⟩

/-! ## The cursor -/

/-- The attempts of a tracker that has not stopped lie before the end of its span. -/
def Within (t : Tracker) : Prop :=
  t.stopped = false → ∀ last, t.lastAttempted = some last → last < t.span.stop

theorem within_new (span : Span) : (new span).Within := by
  intro _ last hlast
  cases hlast

theorem Within.claim (h : t.Within) (p : Offset) : (t.claim p).2.Within := by
  have hspec := claim_spec t p
  generalize (t.claim p).1 = granted, (t.claim p).2 = t' at hspec ⊢
  cases hspec with
  | stopped => exact h
  | beforeStart | backwards | exhausted => exact nofun
  | granted _ _ _ hstop =>
    intro _ last hlast
    cases hlast
    exact hstop

theorem Within.split (h : t.Within) (ht : t.Ordered) (f : Binary64) : (t.split f).2.Within := by
  have hspec := split_spec ht f
  generalize (t.split f).1 = result, (t.split f).2 = t' at hspec ⊢
  cases hspec with
  | invalid | nothing => exact h
  | cut _ _ _ hcursor hlow =>
    intro _ last (hlast : t.lastAttempted = some last)
    exact Int64.lt_of_lt_of_le (lt_cursor_of_attempted hlast hcursor) hlow

theorem after_within (span : Span) (uses : List Use) : ((new span).after uses).Within := by
  have huse : ∀ t u, Consistent t ∧ t.Within → (t.use u).Consistent ∧ (t.use u).Within := by
    intro t u h
    refine ⟨h.1.use u, ?_⟩
    cases u with
    | claim p => exact h.2.claim p
    | split f => exact h.2.split h.1.ordered f
    | checkpoint => exact h.2.split h.1.ordered .zero
    | fail reason => exact nofun
  exact (after_induction huse ⟨consistent_new span, within_new span⟩ uses).2

/-- As long as a tracker has not stopped, its cursor need not be held to the offsets. -/
theorem Within.toInt_cursor (h : t.Within) (hs : t.stopped = false) {last : Offset}
    (hlast : t.lastAttempted = some last) : t.cursor.toInt = last.toInt + 1 := by
  have hlt := h hs last hlast
  simp only [cursor, hlast]
  rw [Offset.after_of_lt hlt, Offset.toInt_add_one hlt]

/-! ## Requests -/

/-- **A split request comes to one of three things.**  After any history of a tracker: a fraction
that is not from zero to one is refused, and so is a request to a tracker that is done; the refused
request leaves the tracker as it was.  Every other request is granted at some point from the cursor
to the end of the span, and moves the end of the span to that point and nothing else.  A split point
is never refused.  The steps in between are exact: the unclaimed work and the distance fit into 128
bits, the product is a finite number, the split point is an offset, and the cursor is one past the
last attempt unless the tracker has stopped. -/
theorem split_after_history (span : Span) (uses : List Use) (f : Binary64) :
    let t := (new span).after uses
    (¬ f.InUnit → t.split f = (.error (.invalidFraction f), t)) ∧
    (f.InUnit → t.isDone = true →
      t.split f = (.error (.nothingToSplit (toString t.span)), t)) ∧
    (f.InUnit → t.isDone = false → ∃ p,
      t.cursor ≤ p ∧ p ≤ t.span.stop ∧
      t.split f = (.ok ⟨⟨t.cursor, p⟩, ⟨p, t.span.stop⟩⟩,
        { t with span := ⟨t.span.start, p⟩ }) ∧
      cursor { t with span := ⟨t.span.start, p⟩ } = t.cursor ∧
      0 < t.unclaimed ∧ t.unclaimed < 2 ^ 64 ∧
      (∃ q, (Binary64.ofInt t.unclaimed * f).value? = some q ∧ 0 ≤ q ∧ q ≤ 2 ^ 64 ∧
        t.splitDistance f = q.floor) ∧
      p.toInt = t.cursor.toInt + max 0 (min (t.splitDistance f) t.unclaimed)) ∧
    (∀ position s, (t.split f).1 ≠ .error (.invalidSplitPoint position s)) ∧
    (t.stopped = false → ∀ last, t.lastAttempted = some last →
      t.cursor.toInt = last.toInt + 1) := by
  intro t
  have h : t.Consistent := after_consistent span uses
  refine ⟨fun hf => ?_, fun hf hdone => split_of_isDone h hdone hf, fun hf hdone => ?_,
    fun position s => ?_, fun hs last hlast => (after_within span uses).toInt_cursor hs hlast⟩
  · rw [split, if_pos hf]
  · have hspec := split_spec h.ordered f
    have hopen : ¬(t.stopped = true ∨ t.span.stop ≤ t.cursor) := by
      rw [← isDone_iff h, hdone]
      exact Bool.false_ne_true
    generalize houtcome : t.split f = outcome at hspec ⊢
    obtain ⟨result, t'⟩ := outcome
    dsimp only at hspec
    cases hspec with
    | invalid hinvalid => exact absurd hf hinvalid
    | nothing _ hnothing => exact absurd hnothing hopen
    | cut point _ _ hcursor hlow hhigh hvalue =>
      obtain ⟨hpos, hlt⟩ := unclaimed_bounds hcursor
      exact ⟨point, hlow, hhigh, rfl, rfl, hpos, hlt, splitDistance_spec hcursor hf, hvalue⟩
  · have hspec := split_spec h.ordered f
    generalize (t.split f).1 = result, (t.split f).2 = t' at hspec ⊢
    intro hpoint
    cases hspec with
    | invalid | nothing | cut => cases hpoint

end Splittable.Tracker
