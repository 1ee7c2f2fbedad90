import Splittable.Proofs.Numeric.Rounding
import Splittable.Proofs.Span.Partition
import Splittable.Tracker

/-!
# What a tracker does in one step

Everything that is proved about trackers rests on the two relations of this file, not on the bodies
of the operations.

* `Claims`, `claim_spec` : the five things a claim can come to;
* `claim_of_order`, `claim_of_end` : which of them an offset that is in order comes to;
* `Splits`, `split_spec` : the three things a split can come to;
* `Ordered`              : no attempt lies before the span, so that the cursor never does;
* `Holds`                : granted offsets stay in the span, however it is split;
* `exists_progress`      : a tracker whose bounds are in order has a progress.
-/

namespace Splittable.Tracker

/-! ## Claims -/

/-- The five things a claim of `p` on `t` can come to: whether it is granted, and the tracker after
it. -/
inductive Claims (t : Tracker) (p : Offset) : Bool → Tracker → Prop where
  | stopped : t.stopped = true → Claims t p false t
  | beforeStart : t.stopped = false → p < t.span.start →
      Claims t p false (t.record (.claimBeforeStart (toString p) (toString t.span)))
  | backwards (last : Offset) : t.stopped = false → t.span.start ≤ p →
      t.lastAttempted = some last → p ≤ last →
      Claims t p false (t.record (.nonMonotonicClaim (toString p) (toString last)))
  | exhausted : t.stopped = false → t.span.start ≤ p →
      (∀ last, t.lastAttempted = some last → last < p) → t.span.stop ≤ p →
      Claims t p false { t with lastAttempted := some p, stopped := true }
  | granted : t.stopped = false → t.span.start ≤ p →
      (∀ last, t.lastAttempted = some last → last < p) → p < t.span.stop →
      Claims t p true { t with lastAttempted := some p }

theorem attempt_spec {t : Tracker} {p : Offset} (hs : t.stopped = false) (hp : t.span.start ≤ p)
    (hlast : ∀ last, t.lastAttempted = some last → last < p) :
    Claims t p (t.attempt p).1 (t.attempt p).2 := by
  unfold attempt
  split
  · rename_i hstop
    exact .exhausted hs hp hlast hstop
  · rename_i hstop
    exact .granted hs hp hlast (Int64.not_le.1 hstop)

/-- **A claim comes to one of the five things.** -/
theorem claim_spec (t : Tracker) (p : Offset) : Claims t p (t.claim p).1 (t.claim p).2 := by
  unfold claim
  split
  · rename_i hs
    exact .stopped hs
  rename_i hs
  rw [Bool.not_eq_true] at hs
  split
  · rename_i hp
    exact .beforeStart hs hp
  rename_i hp
  rw [Int64.not_lt] at hp
  split
  · rename_i last hlast
    split
    · rename_i hle
      exact .backwards last hs hp hlast hle
    · rename_i hle
      refine attempt_spec hs hp fun last' h => ?_
      cases hlast.symm.trans h
      exact Int64.not_le.1 hle
  · rename_i hlast
    exact attempt_spec hs hp fun last' h => by cases hlast.symm.trans h

/-- Before the end of the span an offset that is in order is granted. -/
theorem claim_of_order {t : Tracker} {p : Offset} (hs : t.stopped = false)
    (hp : t.span.start ≤ p) (hlast : ∀ last, t.lastAttempted = some last → last < p)
    (hstop : p < t.span.stop) : t.claim p = (true, { t with lastAttempted := some p }) := by
  have hspec := claim_spec t p
  generalize t.claim p = outcome at hspec ⊢
  obtain ⟨granted, t'⟩ := outcome
  dsimp only at hspec
  cases hspec with
  | stopped hstopped => rw [hs] at hstopped; cases hstopped
  | beforeStart _ hlt => exact absurd hp (Int64.not_le.2 hlt)
  | backwards last _ _ hl hle => exact absurd (hlast last hl) (Int64.not_lt.2 hle)
  | exhausted _ _ _ hle => exact absurd hstop (Int64.not_lt.2 hle)
  | granted => rfl

theorem claim_of_end {t : Tracker} {p : Offset} (hs : t.stopped = false)
    (hp : t.span.start ≤ p) (hlast : ∀ last, t.lastAttempted = some last → last < p)
    (hstop : t.span.stop ≤ p) :
    t.claim p = (false, { t with lastAttempted := some p, stopped := true }) := by
  have hspec := claim_spec t p
  generalize t.claim p = outcome at hspec ⊢
  obtain ⟨granted, t'⟩ := outcome
  dsimp only at hspec
  cases hspec with
  | stopped hstopped => rw [hs] at hstopped; cases hstopped
  | beforeStart _ hlt => exact absurd hp (Int64.not_le.2 hlt)
  | backwards last _ _ hl hle => exact absurd (hlast last hl) (Int64.not_lt.2 hle)
  | exhausted => rfl
  | granted _ _ _ hlt => exact absurd hlt (Int64.not_lt.2 hstop)

/-! ## Order -/

/-- No attempt lies before the span. -/
def Ordered (t : Tracker) : Prop :=
  ∀ last, t.lastAttempted = some last → t.span.start ≤ last

theorem ordered_new (span : Span) : (new span).Ordered := by
  intro last h
  cases h

theorem Ordered.start_le_cursor {t : Tracker} (h : t.Ordered) : t.span.start ≤ t.cursor := by
  unfold cursor
  split
  · rename_i last hlast
    exact Int64.le_trans (h last hlast) (Offset.le_after last)
  · exact Int64.le_refl _

theorem lt_cursor_of_attempted {t : Tracker} {last : Offset} (h : t.lastAttempted = some last)
    (hc : t.cursor < t.span.stop) : last < t.cursor := by
  simp only [cursor, h] at hc ⊢
  exact Offset.lt_after_of_after_lt hc

/-! ## Splits -/

/-- The three things a split of `t` at `f` can come to: the result, and the tracker after it. -/
inductive Splits (t : Tracker) (f : Binary64) : Except Fault Split → Tracker → Prop where
  | invalid : ¬ f.InUnit → Splits t f (.error (.invalidFraction f)) t
  | nothing : f.InUnit → t.stopped = true ∨ t.span.stop ≤ t.cursor →
      Splits t f (.error (.nothingToSplit (toString t.span))) t
  | cut (point : Offset) : f.InUnit → t.stopped = false → t.cursor < t.span.stop →
      t.cursor ≤ point → point ≤ t.span.stop →
      point.toInt = t.cursor.toInt + max 0 (min (t.splitDistance f) t.unclaimed) →
      Splits t f (.ok ⟨⟨t.cursor, point⟩, ⟨point, t.span.stop⟩⟩)
        { t with span := ⟨t.span.start, point⟩ }

/-- **A split comes to one of the three things.**  The distance of the split point from the cursor
is held to the unclaimed work, so that no fraction and no rounding can move it out of there. -/
theorem split_spec {t : Tracker} (ht : t.Ordered) (f : Binary64) :
    Splits t f (t.split f).1 (t.split f).2 := by
  unfold split
  split
  · rename_i hf
    exact .invalid hf
  rename_i hf
  rw [Decidable.not_not] at hf
  split
  · rename_i hn
    exact .nothing hf hn
  rename_i hn
  rw [not_or, Bool.not_eq_true, Int64.not_le] at hn
  obtain ⟨hs, hc⟩ := hn
  have hlt := Offset.lt_iff.1 hc
  obtain ⟨point, hpoint, hvalue⟩ :=
    Offset.ofInt?_eq_some (n := t.cursor.toInt + max 0 (min (t.splitDistance f) t.unclaimed))
      t.cursor t.span.stop (by omega) (by unfold unclaimed; omega)
  have hlow : t.cursor ≤ point := by
    rw [Offset.le_iff]
    omega
  have hhigh : point ≤ t.span.stop := by
    rw [Offset.le_iff, hvalue]
    unfold unclaimed
    omega
  have hcut : t.span.cutAt point = .ok (⟨t.span.start, point⟩, ⟨point, t.span.stop⟩) := by
    have hstart := Int64.le_trans ht.start_le_cursor hlow
    unfold Span.cutAt
    rw [if_neg (by simp [hstart, hhigh])]
  simp only [hpoint, hcut]
  exact .cut point hf hs hc hlow hhigh hvalue

/-! ## Order is kept -/

theorem Ordered.fail {t : Tracker} (h : t.Ordered) (reason : String) : (t.fail reason).Ordered :=
  h

theorem Ordered.claim {t : Tracker} (h : t.Ordered) (p : Offset) : (t.claim p).2.Ordered := by
  have hspec := claim_spec t p
  generalize (t.claim p).1 = granted, (t.claim p).2 = t' at hspec ⊢
  cases hspec with
  | stopped => exact h
  | beforeStart => exact h
  | backwards => exact h
  | exhausted _ hp | granted _ hp =>
    intro last hlast
    cases hlast
    exact hp

theorem Ordered.split {t : Tracker} (h : t.Ordered) (f : Binary64) : (t.split f).2.Ordered := by
  have hspec := split_spec h f
  generalize (t.split f).1 = result, (t.split f).2 = t' at hspec ⊢
  cases hspec with
  | invalid => exact h
  | nothing => exact h
  | cut => exact h

/-- A split keeps the bounds of the span in order. -/
theorem Ordered.split_bounds {t : Tracker} (h : t.Ordered) (hbounds : t.span.start ≤ t.span.stop)
    (f : Binary64) : (t.split f).2.span.start ≤ (t.split f).2.span.stop := by
  have hspec := split_spec h f
  generalize (t.split f).1 = result, (t.split f).2 = t' at hspec ⊢
  cases hspec with
  | invalid => exact hbounds
  | nothing => exact hbounds
  | cut _ _ _ _ hlow => exact Int64.le_trans h.start_le_cursor hlow

/-! ## What was granted -/

/-- The offsets lie in the span and not past the last attempt, so that the cursor, and with it every
later split point, is beyond. -/
def Holds (t : Tracker) (given : List Offset) : Prop :=
  ∀ p ∈ given, p ∈ t.span ∧ ∃ last, t.lastAttempted = some last ∧ p ≤ last

theorem Holds.claim {t : Tracker} {given : List Offset} (h : t.Holds given) (p : Offset) :
    (t.claim p).2.Holds (given ++ if (t.claim p).1 then [p] else []) := by
  have hspec := claim_spec t p
  generalize (t.claim p).1 = granted, (t.claim p).2 = t' at hspec ⊢
  cases hspec with
  | stopped | beforeStart | backwards =>
    simp only [Bool.false_eq_true, if_false, List.append_nil]
    exact h
  | exhausted _ _ hlast =>
    intro q hq
    obtain ⟨hmem, last, hl, hle⟩ := h q (by simpa using hq)
    exact ⟨hmem, p, rfl, Int64.le_trans hle (Int64.le_of_lt (hlast last hl))⟩
  | granted _ hp hlast hstop =>
    intro q hq
    rcases List.mem_append.1 hq with hq | hq
    · obtain ⟨hmem, last, hl, hle⟩ := h q hq
      exact ⟨hmem, p, rfl, Int64.le_trans hle (Int64.le_of_lt (hlast last hl))⟩
    · obtain rfl : q = p := by simpa using hq
      exact ⟨⟨hp, hstop⟩, q, rfl, Int64.le_refl q⟩

theorem Holds.cut {t : Tracker} {given : List Offset} {point : Offset} (h : t.Holds given)
    (hcursor : t.cursor < t.span.stop) (hlow : t.cursor ≤ point) :
    Holds { t with span := ⟨t.span.start, point⟩ } given := by
  intro q hq
  obtain ⟨hmem, last, hl, hle⟩ := h q hq
  refine ⟨⟨hmem.1, ?_⟩, last, hl, hle⟩
  exact Int64.lt_of_le_of_lt hle (Int64.lt_of_lt_of_le (lt_cursor_of_attempted hl hcursor) hlow)

end Splittable.Tracker

namespace Splittable

/-! ## Progress -/

theorem Offset.abs_toInt_le (p : Offset) : |p.toInt| ≤ 2 ^ 63 := by
  have h₁ := p.le_toInt
  have h₂ := p.toInt_lt
  rw [abs_le]
  omega

theorem Span.zero_le_size {s : Span} (h : s.start ≤ s.stop) : Binary64.zero ≤ s.size := by
  have hle : (s.start.toInt : ℚ) ≤ s.stop.toInt := by exact_mod_cast Int64.le_iff_toInt_le.1 h
  exact Binary64.zero_le_sub (Binary64.value?_ofInt s.stop.abs_toInt_le)
    (Binary64.value?_ofInt s.start.abs_toInt_le) (Binary64.rounded_mono hle)

theorem Tracker.exists_progress {t : Tracker} (h : t.span.start ≤ t.span.stop) :
    ∃ progress, t.progress = some progress := by
  unfold Tracker.progress
  rw [if_pos (Span.zero_le_size h)]
  exact ⟨_, rfl⟩

end Splittable
