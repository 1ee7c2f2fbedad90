import Splittable.Proofs.Span.Pieces
import Splittable.Proofs.Tracker.Claims

/-!
# Claiming everything, whole or cut

A tracker that is not done is swept: the offset at its cursor is claimed, the one after it, and so
on until a claim is refused.  If it is cut first, any number of times and anywhere, the sweeps of
what it keeps and of what was handed back, the last part first, come to the same offsets.

* `Sweep`, `sweep_claimFrom`  : a sweep ends, and no offset on the way wraps around;
* `Ready`, `Sweep.eq_run`     : what a sweep from a position that is in turn comes to;
* `Open`, `splitAll`          : trackers with work left or none, and how they are cut;
* `Open.splitAll`             : what was handed back lies end to end behind what is kept;
* `claims_after_splits`       : sweeping the parts is sweeping the whole.
-/

namespace Splittable.Tracker

variable {t t' : Tracker} {p : Offset}

/-! ## Sweeps -/

/-- Claims from `p` on, one offset after the other, that end with the first one that is refused: the
offsets that are granted, and the tracker after that.  No offset on the way is the greatest one, so
that the next one never wraps around. -/
inductive Sweep : Tracker → Offset → List Offset → Tracker → Prop where
  | refused {t t' : Tracker} {p : Offset} : t.claim p = (false, t') → Sweep t p [] t'
  | granted {t t' last : Tracker} {p : Offset} {ps : List Offset} :
      t.claim p = (true, t') → (p + 1).toInt = p.toInt + 1 → Sweep t' (p + 1) ps last →
      Sweep t p (p :: ps) last

/-- **Every sweep ends**, whatever the state of the tracker and wherever it begins: a granted offset
lies before the end of the span. -/
theorem sweep_claimFrom (t : Tracker) (p : Offset) :
    Sweep t p (t.claimFrom p).1 (t.claimFrom p).2 := by
  fun_induction claimFrom t p with
  | case1 t p t' hclaim => exact .refused hclaim
  | case2 t p t' hclaim claimed last hrest ih =>
    have hlt : p < t.span.stop := lt_of_claim (by rw [hclaim])
    rw [hrest] at ih
    exact .granted hclaim (Offset.toInt_add_one hlt) ih

/-- The offset `p` is the next one to claim, or the end of the span. -/
structure Ready (t : Tracker) (p : Offset) : Prop where
  running : t.stopped = false
  start_le : t.span.start ≤ p
  past : ∀ last, t.lastAttempted = some last → last < p
  le_stop : p ≤ t.span.stop

namespace Ready

theorem claim (h : Ready t p) (hlt : p < t.span.stop) :
    t.claim p = (true, { t with lastAttempted := some p }) :=
  claim_of_order h.running h.start_le h.past hlt

theorem next (h : Ready t p) (hlt : p < t.span.stop) :
    Ready { t with lastAttempted := some p } (p + 1) where
  running := h.running
  start_le := Int64.le_trans h.start_le (Offset.le_add_one hlt)
  past last hlast := by
    cases hlast
    rw [Offset.lt_iff, Offset.toInt_add_one hlt]
    omega
  le_stop := Offset.add_one_le hlt

theorem claim_stop (h : Ready t p) (hstop : p = t.span.stop) :
    t.claim p = (false, { t with lastAttempted := some p, stopped := true }) :=
  claim_of_end h.running h.start_le h.past (Int64.le_of_eq hstop.symm)

end Ready

/-- **A sweep from an offset that is in turn** is granted every offset up to the end of the span,
and stops the tracker with the claim of the end. -/
theorem Sweep.eq_run {ps : List Offset} (hsweep : Sweep t p ps t') (h : Ready t p) :
    ps = Offset.run p t.span.stop ∧
      t' = { t with lastAttempted := some t.span.stop, stopped := true } := by
  induction hsweep with
  | @refused t t' p hclaim =>
    have hnot : ¬ p < t.span.stop := fun hlt => by
      rw [h.claim hlt] at hclaim
      cases hclaim
    have hstop : p = t.span.stop := Int64.le_antisymm h.le_stop (Int64.not_lt.1 hnot)
    rw [h.claim_stop hstop] at hclaim
    cases hclaim
    rw [← hstop, Offset.run_self]
    exact ⟨rfl, rfl⟩
  | @granted t t' last p ps hclaim _ _ ih =>
    have hlt : p < t.span.stop := lt_of_claim (by rw [hclaim])
    rw [h.claim hlt] at hclaim
    cases hclaim
    obtain ⟨hps, hlast⟩ := ih (h.next hlt)
    rw [Offset.run_cons hlt]
    exact ⟨congrArg (p :: ·) hps, hlast⟩

/-! ## Open trackers -/

/-- A tracker that has not stopped and holds no fault; its cursor is past every attempt and not past
the end of the span, though it may be there. -/
structure Open (t : Tracker) : Prop where
  ordered : t.Ordered
  running : t.stopped = false
  clean : t.fault = none
  past : ∀ last, t.lastAttempted = some last → last < t.cursor
  le_stop : t.cursor ≤ t.span.stop

theorem open_new {span : Span} (h : span.start ≤ span.stop) : (new span).Open where
  ordered := ordered_new span
  running := rfl
  clean := rfl
  past _ hlast := by cases hlast
  le_stop := h

theorem Consistent.open_of_not_done (h : t.Consistent) (hdone : t.isDone = false) : t.Open := by
  have hopen : ¬(t.stopped = true ∨ t.span.stop ≤ t.cursor) := by
    rw [← isDone_iff h, hdone]
    exact Bool.false_ne_true
  obtain ⟨hs, hc⟩ := not_or.1 hopen
  rw [Bool.not_eq_true] at hs
  rw [Int64.not_le] at hc
  exact ⟨h.ordered, hs, h.fault_eq_none hs, fun _ hlast => lt_cursor_of_attempted hlast hc,
    Int64.le_of_lt hc⟩

namespace Open

theorem ready (h : t.Open) : Ready t t.cursor :=
  ⟨h.running, h.ordered.start_le_cursor, h.past, h.le_stop⟩

theorem cut (h : t.Open) {point : Offset} (hpoint : t.cursor ≤ point) :
    Open { t with span := ⟨t.span.start, point⟩ } :=
  ⟨h.ordered, h.running, h.clean, h.past, hpoint⟩

end Open

/-- What a sweep of a whole tracker comes to: it ends, the offsets from the cursor to the end of the
span are granted in order, no fault is recorded, and nothing was left out. -/
structure Swept (t : Tracker) (claimed : List Offset) (last : Tracker) : Prop where
  sweep : Sweep t t.cursor claimed last
  claimed : claimed = Offset.run t.cursor t.span.stop
  clean : last.fault = none
  complete : last.checkDone = .ok ()

theorem Open.swept (h : t.Open) : Swept t t.claimAll.1 t.claimAll.2 := by
  have hsweep : Sweep t t.cursor t.claimAll.1 t.claimAll.2 := sweep_claimFrom t t.cursor
  obtain ⟨hclaimed, hlast⟩ := hsweep.eq_run h.ready
  refine ⟨hsweep, hclaimed, by rw [hlast]; exact h.clean, ?_⟩
  have hordered : t.claimAll.2.Ordered := by
    rw [hlast]
    intro last heq
    cases heq
    exact Int64.le_trans h.ordered.start_le_cursor h.le_stop
  rw [checkDone_iff_reached hordered, hlast]
  exact ⟨h.clean, Offset.le_after t.span.stop⟩

/-! ## Cutting -/

/-- Splits at one fraction after the other; a split that is refused is passed over.  The residuals
in the order of their splits, and the tracker with what it keeps. -/
def splitAll (t : Tracker) : List Binary64 → List Span × Tracker
  | [] => ([], t)
  | f :: fs =>
    match t.split f with
    | (.ok parts, t') => (parts.residual :: (t'.splitAll fs).1, (t'.splitAll fs).2)
    | (.error _, t') => t'.splitAll fs

/-- **However an open tracker is cut**, it stays open with its cursor where it was, and the
residuals, the last one first, lie end to end from the end of what it keeps to the old end. -/
theorem Open.splitAll (h : t.Open) (fractions : List Binary64) :
    (t.splitAll fractions).2.Open ∧ (t.splitAll fractions).2.cursor = t.cursor ∧
      Tiles (t.splitAll fractions).2.span.stop t.span.stop (t.splitAll fractions).1.reverse := by
  induction fractions generalizing t with
  | nil => exact ⟨h, rfl, .nil _⟩
  | cons f fs ih =>
    have hspec := split_spec h.ordered f
    rw [Tracker.splitAll]
    generalize t.split f = outcome at hspec ⊢
    obtain ⟨result, t'⟩ := outcome
    dsimp only at hspec
    cases hspec with
    | invalid | nothing => exact ih h
    | cut point _ _ _ hlow hhigh =>
      obtain ⟨hopen, hcursor, htiles⟩ := ih (h.cut hlow)
      refine ⟨hopen, hcursor, ?_⟩
      dsimp only at htiles ⊢
      rw [List.reverse_cons]
      exact htiles.append (.single hhigh)

/-- **Sweeping the parts is sweeping the whole.**  After any history of a tracker that is not done:
cut at any fractions, one after the other, what it keeps and the residuals, the last one first, are
granted the same offsets in the same order as the tracker would be without a cut, which are those
from its cursor to its end.  Every one of these sweeps ends without an offset that wraps around,
records no fault and leaves nothing out. -/
theorem claims_after_splits (span : Span) (uses : List Use) (fractions : List Binary64)
    (hdone : ((new span).after uses).isDone = false) :
    let t := (new span).after uses
    let parts := (t.splitAll fractions).2 :: (t.splitAll fractions).1.reverse.map new
    parts.flatMap (fun u => u.claimAll.1) = t.claimAll.1 ∧
      t.claimAll.1 = Offset.run t.cursor t.span.stop ∧
      ∀ u ∈ t :: parts, Swept u u.claimAll.1 u.claimAll.2 := by
  intro t parts
  have h : t.Open := (after_consistent span uses).open_of_not_done hdone
  obtain ⟨hopen, hcursor, htiles⟩ := h.splitAll fractions
  have hparts : ∀ u ∈ parts, u.Open := by
    intro u hu
    rcases List.mem_cons.1 hu with rfl | hu
    · exact hopen
    · obtain ⟨residual, hmem, rfl⟩ := List.mem_map.1 hu
      exact open_new (htiles.le_of_mem hmem)
  refine ⟨?_, h.swept.claimed, fun u hu => ?_⟩
  · calc parts.flatMap (fun u => u.claimAll.1)
        = parts.flatMap (fun u => Offset.run u.cursor u.span.stop) :=
          List.flatMap_congr fun u hu => (hparts u hu).swept.claimed
      _ = Offset.run t.cursor (t.splitAll fractions).2.span.stop ++
            (t.splitAll fractions).1.reverse.flatMap (fun s => Offset.run s.start s.stop) := by
          rw [List.flatMap_cons, List.flatMap_map, hcursor]
          rfl
      _ = Offset.run t.cursor t.span.stop := by
          rw [htiles.flatMap_run, Offset.run_append (hcursor ▸ hopen.le_stop) htiles.le]
      _ = t.claimAll.1 := h.swept.claimed.symm
  · rcases List.mem_cons.1 hu with rfl | hu
    · exact h.swept
    · exact (hparts u hu).swept

/-- Twenty offsets of which three are claimed, cut in half, at a refused fraction, at the very end
and at the cursor. -/
theorem claims_after_splits_twenty :
    let t := (new ⟨0, 20⟩).after [.claim 0, .claim 1, .claim 2]
    let fractions := [.round false (1 / 2), .nan, .one, .zero]
    let parts := (t.splitAll fractions).2 :: (t.splitAll fractions).1.reverse.map new
    t.isDone = false ∧
      parts.map (·.span) = [⟨0, 3⟩, ⟨3, 11⟩, ⟨11, 11⟩, ⟨11, 20⟩] ∧
      parts.flatMap (fun u => u.claimAll.1) = Offset.run 3 20 := by
  intro t fractions parts
  obtain ⟨hwhole, hrun, -⟩ := claims_after_splits ⟨0, 20⟩ [.claim 0, .claim 1, .claim 2] fractions
    (by decide +kernel)
  exact ⟨by decide +kernel, by decide +kernel, hwhole.trans hrun⟩

end Splittable.Tracker
