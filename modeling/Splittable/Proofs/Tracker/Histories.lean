import Splittable.Proofs.Tracker.Steps

/-!
# Histories of a tracker

A history is any sequence of claims, splits, checkpoints and failures on one tracker.  Four
operations decide whether work is left, and each looks at another part of the state: a claim at the
stop and the end of the span, a split at the stop and the cursor, `isDone` at the fault as well,
`checkDone` at everything but the stop.  They agree because these parts belong together in every
state that a history leads to.

* `Use`, `use`, `after`              : one operation, and a history of them;
* `Consistent`, `after_consistent`   : how the parts of the state belong together;
* `claim_of_isDone`, `claim_cursor`  : a tracker that is done grants nothing, any other the cursor;
* `done_after_history`               : the four operations agree, and what is done stays done.
-/

namespace Splittable

theorem Binary64.zero_inUnit : zero.InUnit := by decide +kernel

namespace Tracker

/-! ## Histories -/

/-- What is done on a tracker. -/
inductive Use where
  | claim (p : Offset)
  | split (f : Binary64)
  | checkpoint
  | fail (reason : String)

/-- The tracker after one operation. -/
def use (t : Tracker) : Use → Tracker
  | .claim p => (t.claim p).2
  | .split f => (t.split f).2
  | .checkpoint => t.checkpoint.2
  | .fail reason => t.fail reason

/-- The tracker after a history. -/
def after (t : Tracker) (uses : List Use) : Tracker :=
  uses.foldl use t

theorem after_induction {P : Tracker → Prop} (huse : ∀ t u, P t → P (t.use u)) {t : Tracker}
    (h : P t) (uses : List Use) : P (t.after uses) := by
  induction uses generalizing t with
  | nil => exact h
  | cons u uses ih => exact ih (huse t u h)

/-! ## The parts of the state -/

/-- How the parts of the state belong together.  A fault has stopped the tracker; without a fault
nothing but an attempt at the end or beyond has. -/
structure Consistent (t : Tracker) : Prop where
  ordered : t.Ordered
  stopped_of_fault : t.fault ≠ none → t.stopped = true
  reached_of_stopped : t.stopped = true → t.fault = none → t.span.stop ≤ t.cursor

variable {t : Tracker}

theorem consistent_new (span : Span) : (new span).Consistent where
  ordered := ordered_new span
  stopped_of_fault h := absurd rfl h
  reached_of_stopped h := by cases h

theorem fault_record (t : Tracker) (fault : Fault) : (t.record fault).fault ≠ none := by
  simp [record]

theorem split_fault (t : Tracker) (f : Binary64) : (t.split f).2.fault = t.fault := by
  unfold split
  split
  · rfl
  split
  · rfl
  dsimp only
  split
  · rfl
  split <;> rfl

theorem claim_fault (hfault : t.fault ≠ none) (p : Offset) : (t.claim p).2.fault ≠ none := by
  have hspec := claim_spec t p
  generalize (t.claim p).1 = granted, (t.claim p).2 = t' at hspec ⊢
  cases hspec with
  | stopped | exhausted | granted => exact hfault
  | beforeStart | backwards => exact fault_record t _

namespace Consistent

theorem fault_eq_none (h : t.Consistent) (hs : t.stopped = false) : t.fault = none := by
  cases hfault : t.fault with
  | none => rfl
  | some fault =>
    rw [h.stopped_of_fault (by simp [hfault])] at hs
    cases hs

theorem record (h : t.Consistent) (fault : Fault) : (t.record fault).Consistent where
  ordered := h.ordered
  stopped_of_fault _ := rfl
  reached_of_stopped _ hnone := absurd hnone (fault_record t fault)

theorem claim (h : t.Consistent) (p : Offset) : (t.claim p).2.Consistent := by
  have hordered := h.ordered.claim p
  have hspec := claim_spec t p
  generalize (t.claim p).1 = granted, (t.claim p).2 = t' at hspec hordered ⊢
  cases hspec with
  | stopped => exact h
  | beforeStart => exact h.record _
  | backwards => exact h.record _
  | exhausted _ _ _ hstop =>
    exact ⟨hordered, fun _ => rfl, fun _ _ => Int64.le_trans hstop (Offset.le_after p)⟩
  | granted hs =>
    refine ⟨hordered, fun hfault => absurd (h.fault_eq_none hs) hfault, fun hstopped => ?_⟩
    rw [hs] at hstopped
    cases hstopped

theorem split (h : t.Consistent) (f : Binary64) : (t.split f).2.Consistent := by
  have hordered := h.ordered.split f
  have hspec := split_spec h.ordered f
  generalize (t.split f).1 = result, (t.split f).2 = t' at hspec hordered ⊢
  cases hspec with
  | invalid => exact h
  | nothing => exact h
  | cut _ _ hs =>
    refine ⟨hordered, h.stopped_of_fault, fun hstopped => ?_⟩
    rw [hs] at hstopped
    cases hstopped

/-- **Every operation keeps the parts together.** -/
theorem use (h : t.Consistent) (u : Use) : (t.use u).Consistent := by
  cases u with
  | claim p => exact h.claim p
  | split f => exact h.split f
  | checkpoint => exact h.split .zero
  | fail reason => exact h.record _

end Consistent

theorem after_consistent (span : Span) (uses : List Use) :
    ((new span).after uses).Consistent :=
  after_induction (fun _ u h => h.use u) (consistent_new span) uses

/-! ## Trackers that are done -/

theorem cursor_le {p : Offset} (hp : t.span.start ≤ p)
    (hlast : ∀ last, t.lastAttempted = some last → last < p) : t.cursor ≤ p := by
  unfold cursor
  split
  · rename_i last h
    have hlt := hlast last h
    rw [Offset.after_of_lt hlt]
    exact Offset.add_one_le hlt
  · exact hp

/-- The fault need not be looked at. -/
theorem isDone_iff (h : t.Consistent) :
    t.isDone = true ↔ t.stopped = true ∨ t.span.stop ≤ t.cursor := by
  simp only [isDone, Bool.or_eq_true, decide_eq_true_eq, Option.isSome_iff_ne_none]
  constructor
  · rintro ((hfault | hs) | hc)
    · exact Or.inl (h.stopped_of_fault hfault)
    · exact Or.inl hs
    · exact Or.inr hc
  · rintro (hs | hc)
    · exact Or.inl (Or.inr hs)
    · exact Or.inr hc

theorem claim_of_isDone (h : t.Consistent) (hdone : t.isDone = true) (p : Offset) :
    (t.claim p).1 = false := by
  have hspec := claim_spec t p
  generalize (t.claim p).1 = granted, (t.claim p).2 = t' at hspec ⊢
  cases hspec with
  | granted hs hp hlast hstop =>
    rcases (isDone_iff h).1 hdone with hstopped | hc
    · rw [hs] at hstopped
      cases hstopped
    · exact absurd hstop (Int64.not_lt.2 (Int64.le_trans hc (cursor_le hp hlast)))
  | _ => rfl

theorem claim_cursor (h : t.Consistent) (hdone : t.isDone = false) :
    (t.claim t.cursor).1 = true := by
  have hopen : ¬(t.stopped = true ∨ t.span.stop ≤ t.cursor) := by
    rw [← isDone_iff h, hdone]
    exact Bool.false_ne_true
  obtain ⟨hs, hc⟩ := not_or.1 hopen
  have hspec := claim_spec t t.cursor
  generalize (t.claim t.cursor).1 = granted, (t.claim t.cursor).2 = t' at hspec ⊢
  cases hspec with
  | stopped hstopped => exact absurd hstopped hs
  | beforeStart _ hlt => exact absurd h.ordered.start_le_cursor (Int64.not_le.2 hlt)
  | backwards last _ _ hlast hle =>
    exact absurd hle (Int64.not_le.2 (lt_cursor_of_attempted hlast (Int64.not_le.1 hc)))
  | exhausted _ _ _ hstop => exact absurd hstop hc
  | granted => rfl

theorem split_of_isDone (h : t.Consistent) (hdone : t.isDone = true) {f : Binary64}
    (hf : f.InUnit) : t.split f = (.error (.nothingToSplit (toString t.span)), t) := by
  have hnothing := (isDone_iff h).1 hdone
  unfold split
  rw [if_neg (not_not_intro hf), if_pos hnothing]

theorem split_refused (h : t.Consistent) (hdone : t.isDone = true) (f : Binary64) :
    ∃ fault, t.split f = (.error fault, t) := by
  by_cases hf : f.InUnit
  · exact ⟨_, split_of_isDone h hdone hf⟩
  · exact ⟨_, by rw [split, if_pos hf]⟩

theorem exists_split_of_not_isDone (h : t.Consistent) (hdone : t.isDone = false) :
    ∃ parts, (t.split .zero).1 = .ok parts := by
  have hspec := split_spec h.ordered .zero
  generalize (t.split .zero).1 = result, (t.split .zero).2 = t' at hspec ⊢
  cases hspec with
  | invalid hf => exact absurd Binary64.zero_inUnit hf
  | nothing _ hnothing =>
    rw [(isDone_iff h).2 hnothing] at hdone
    cases hdone
  | cut => exact ⟨_, rfl⟩

/-- The check looks at the fault and at the cursor; an empty span ends at or before its start, and
no cursor is before the start. -/
theorem checkDone_iff_reached (h : t.Ordered) :
    t.checkDone = .ok () ↔ t.fault = none ∧ t.span.stop ≤ t.cursor := by
  unfold checkDone
  cases hfault : t.fault with
  | some fault => simp
  | none =>
    have hempty : t.span.isEmpty = true → t.span.stop ≤ t.cursor := by
      intro hempty
      have hle : t.span.stop ≤ t.span.start := by simpa [Span.isEmpty] using hempty
      exact Int64.le_trans hle h.start_le_cursor
    simp only [or_iff_right_of_imp hempty, true_and]
    split <;> simp [*]

theorem checkDone_iff (h : t.Consistent) :
    t.checkDone = .ok () ↔ t.isDone = true ∧ t.fault = none := by
  rw [checkDone_iff_reached h.ordered, isDone_iff h]
  constructor
  · rintro ⟨hfault, hc⟩
    exact ⟨Or.inr hc, hfault⟩
  · rintro ⟨hs | hc, hfault⟩
    · exact ⟨hfault, h.reached_of_stopped hs hfault⟩
    · exact ⟨hfault, hc⟩

/-- **What is done stays done.** -/
theorem use_isDone (h : t.Consistent) (hdone : t.isDone = true) (u : Use) :
    (t.use u).isDone = true := by
  cases u with
  | claim p =>
    have hspec := claim_spec t p
    have hrefused := claim_of_isDone h hdone p
    simp only [use]
    generalize (t.claim p).1 = granted, (t.claim p).2 = t' at hspec hrefused ⊢
    cases hspec with
    | stopped => exact hdone
    | beforeStart | backwards | exhausted => simp [isDone, record]
    | granted => cases hrefused
  | split f =>
    obtain ⟨fault, hrefused⟩ := split_refused h hdone f
    rw [use, hrefused]
    exact hdone
  | checkpoint =>
    obtain ⟨fault, hrefused⟩ := split_refused h hdone .zero
    rw [use, checkpoint, hrefused]
    exact hdone
  | fail reason => simp [use, fail, isDone, record]

/-- **Being done means one thing.**  After any history of a tracker, whatever the bounds of its
span: it is done exactly if no offset would be granted, and exactly if no fraction from zero to one
finds anything to split.  The check passes exactly if it is done and holds no fault.  Once it is
done, it is done after every further history. -/
theorem done_after_history (span : Span) (uses : List Use) :
    let t := (new span).after uses
    (t.isDone = true ↔ ∀ p, (t.claim p).1 = false) ∧
    (t.isDone = true ↔
      ∀ f : Binary64, f.InUnit → ∃ s, (t.split f).1 = .error (.nothingToSplit s)) ∧
    (t.checkDone = .ok () ↔ t.isDone = true ∧ t.fault = none) ∧
    (t.isDone = true → ∀ more, (t.after more).isDone = true) := by
  intro t
  have h : t.Consistent := after_consistent span uses
  refine ⟨⟨claim_of_isDone h, fun hrefused => ?_⟩, ⟨fun hdone f hf => ?_, fun hnothing => ?_⟩,
    checkDone_iff h, fun hdone more => ?_⟩
  · cases hdone : t.isDone with
    | true => rfl
    | false =>
      have hgranted := claim_cursor h hdone
      rw [hrefused] at hgranted
      cases hgranted
  · exact ⟨_, by rw [split_of_isDone h hdone hf]⟩
  · cases hdone : t.isDone with
    | true => rfl
    | false =>
      obtain ⟨parts, hparts⟩ := exists_split_of_not_isDone h hdone
      obtain ⟨s, hs⟩ := hnothing .zero Binary64.zero_inUnit
      cases hparts.symm.trans hs
  · exact (after_induction (P := fun t => t.Consistent ∧ t.isDone = true)
      (fun _ u h => ⟨h.1.use u, use_isDone h.1 h.2 u⟩) ⟨h, hdone⟩ more).2

end Tracker

end Splittable
