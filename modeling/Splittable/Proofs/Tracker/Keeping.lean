import Splittable.Proofs.Numeric.Values
import Splittable.Proofs.Tracker.Cutting

/-!
# Splitting at one

A split at one is meant to keep everything.  The width of the unclaimed work becomes a binary64
number on the way: rounded up, it is held to the work there is; rounded down, the offsets beyond it
are handed back.  Up to 53 bits nothing is rounded and everything is kept; beyond, at most one
offset in `2 ^ 53` is handed back.

* `splitDistance_one`         : the distance of the split point is the rounded width;
* `split_one_after_history`   : when everything is kept, and how little is handed back otherwise;
* `split_one_hands_back`      : the least width of which an offset is handed back.
-/

namespace Splittable.Tracker

variable {t : Tracker}

theorem splitDistance_one (h : t.cursor < t.span.stop) :
    ((t.splitDistance .one : ℤ) : ℚ) = nearest t.unclaimed := by
  have hwidth : (0 : ℚ) ≤ t.unclaimed := by exact_mod_cast (unclaimed_bounds h).1.le
  obtain ⟨-, hdistance⟩ := splitDistance_eq h Binary64.value?_one zero_le_one le_rfl
  obtain ⟨m, hm⟩ := exists_nearest_eq t.unclaimed
  rw [hdistance, mul_one, nearest_nearest hwidth (unclaimed_le h (by omega)), hm,
    Rat.floor_intCast]

/-- The rounded width is not below the width exactly if the distance is not. -/
theorem unclaimed_le_splitDistance_iff (h : t.cursor < t.span.stop) :
    t.unclaimed ≤ t.splitDistance .one ↔ (t.unclaimed : ℚ) ≤ nearest t.unclaimed := by
  rw [← splitDistance_one h, Int.cast_le]

/-- The rounded width falls short by at most one in `2 ^ 53`. -/
theorem unclaimed_sub_splitDistance_le (h : t.cursor < t.span.stop) :
    (t.unclaimed - t.splitDistance .one) * 2 ^ 53 ≤ t.unclaimed := by
  have hone : (1 : ℚ) ≤ t.unclaimed := by exact_mod_cast (unclaimed_bounds h).1
  have hlow := (nearest_bounds hone).1
  rw [← splitDistance_one h] at hlow
  have hscaled : ((t.unclaimed - t.splitDistance .one) * 2 ^ 53 : ℚ) ≤ t.unclaimed := by
    norm_num at hlow ⊢
    linarith
  exact_mod_cast hscaled

/-- **Splitting at one.**  After any history of a tracker that is not done the split is granted.
Everything is kept, so that nothing is handed back and the tracker stays as it was, exactly if the
width of the unclaimed work is not rounded down.  Up to 53 bits it never is; beyond, at most one
offset in `2 ^ 53` of the unclaimed work is handed back. -/
theorem split_one_after_history (span : Span) (uses : List Use)
    (hdone : ((new span).after uses).isDone = false) :
    let t := (new span).after uses
    ∃ parts, (t.split .one).1 = .ok parts ∧ parts.primary.start = t.cursor ∧
      parts.isContiguous = true ∧ parts.residual.stop = t.span.stop ∧
      (parts.hasResidual = false ↔ (t.unclaimed : ℚ) ≤ nearest t.unclaimed) ∧
      ((t.split .one).2 = t ↔ (t.unclaimed : ℚ) ≤ nearest t.unclaimed) ∧
      (t.unclaimed ≤ 2 ^ 53 → parts.hasResidual = false ∧ (t.split .one).2 = t) ∧
      (parts.residual.length : ℤ) * 2 ^ 53 ≤ t.unclaimed := by
  intro t
  have h : t.Consistent := after_consistent span uses
  have hspec := split_spec h.ordered .one
  generalize (t.split .one).1 = result, (t.split .one).2 = t' at hspec ⊢
  cases hspec with
  | invalid hf => exact absurd Binary64.one_inUnit hf
  | nothing _ hnothing =>
    rw [show t.isDone = true from (isDone_iff h).2 hnothing] at hdone
    cases hdone
  | cut point _ _ hcursor hlow hhigh hvalue =>
    obtain ⟨hpos, -⟩ := unclaimed_bounds hcursor
    have hshort := unclaimed_sub_splitDistance_le hcursor
    have hstop : t.span.stop.toInt = t.cursor.toInt + t.unclaimed := by
      unfold unclaimed
      omega
    -- the split point is the end exactly if the distance reaches it
    have hend : point = t.span.stop ↔ (t.unclaimed : ℚ) ≤ nearest t.unclaimed := by
      rw [← unclaimed_le_splitDistance_iff hcursor, Offset.eq_iff, hvalue, hstop]
      omega
    have hempty : (!(Span.mk point t.span.stop).isEmpty) = false ↔ point = t.span.stop := by
      rw [Bool.not_eq_false', Span.isEmpty, decide_eq_true_iff]
      exact ⟨fun hle => Int64.le_antisymm hhigh hle, fun heq => Int64.le_of_eq heq.symm⟩
    have hsame : { t with span := ⟨t.span.start, point⟩ } = t ↔ point = t.span.stop :=
      ⟨fun heq => congrArg (fun u => u.span.stop) heq, fun heq => by rw [heq]⟩
    refine ⟨_, rfl, rfl, decide_eq_true rfl, rfl, hempty.trans hend, hsame.trans hend,
      fun hle => ?_, ?_⟩
    · have hexact : point = t.span.stop := hend.2 (nearest_intCast hpos.le hle).ge
      exact ⟨hempty.2 hexact, hsame.2 hexact⟩
    · rw [Offset.le_iff] at hhigh
      simp only [Span.length]
      omega

/-- Of `2 ^ 53 + 3` offsets the width is rounded up, and everything is kept. -/
theorem split_one_after_history_up :
    let t := (new ⟨-3, 9007199254740992⟩).after []
    t.isDone = false ∧ (t.unclaimed : ℚ) < nearest t.unclaimed ∧ (t.split .one).2 = t := by
  intro t
  obtain ⟨parts, -, -, -, -, -, hsame, -⟩ :=
    split_one_after_history ⟨-3, 9007199254740992⟩ [] (by decide +kernel)
  have hup : (t.unclaimed : ℚ) < nearest t.unclaimed := by decide +kernel
  exact ⟨by decide +kernel, hup, hsame.2 hup.le⟩

/-- **A split at one can hand back work.**  The width of `2 ^ 53 + 1` offsets is a tie and is
rounded down, so that the last offset is handed back and the span of the tracker ends before it. -/
theorem split_one_hands_back :
    let t := new ⟨0, 9007199254740993⟩
    t.isDone = false ∧
      (t.split .one).1.toOption =
        some ⟨⟨0, 9007199254740992⟩, ⟨9007199254740992, 9007199254740993⟩⟩ ∧
      (t.split .one).2.span = ⟨0, 9007199254740992⟩ := by
  decide +kernel

end Splittable.Tracker
