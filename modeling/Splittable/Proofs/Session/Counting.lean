import Splittable.Proofs.Session.Turns
import Splittable.Proofs.Tracker.Counting

/-!
# Counting while another thread splits

One side counts through a span, the other sends split requests; the turns come in any order.
Whatever the schedule, the outputs are the offsets up to the last split point, and the residuals
lie behind it one after the other.  Counting through them in turn yields the rest.

* `HandedBack`                 : residuals that follow each other down to a split point;
* `Dividing`, `turn_dividing`  : what holds between any two turns;
* `count_under_splits`         : nothing is lost and nothing is emitted twice.
-/

namespace Splittable

/-! ## Residuals in the order of their splits -/

/-- The first residual ends at `stop`, every other one where the one before it begins, and the last
one begins at `p`; none is empty. -/
def HandedBack (p : Offset) : Offset → List Span → Prop
  | stop, [] => p = stop
  | stop, r :: rs => r.stop = stop ∧ r.start < r.stop ∧ HandedBack p r.start rs

namespace HandedBack

theorem append {p q : Offset} : ∀ {stop : Offset} {rs : List Span}, HandedBack p stop rs → q < p →
    HandedBack q stop (rs ++ [⟨q, p⟩])
  | _, [], h, hq => ⟨h, hq, rfl⟩
  | _, _ :: _, h, hq => ⟨h.1, h.2.1, append h.2.2 hq⟩

theorem le {p : Offset} : ∀ {stop : Offset} {rs : List Span}, HandedBack p stop rs → p ≤ stop
  | _, [], h => Int64.le_of_eq h
  | _, _ :: _, h => by
    rw [← h.1]
    exact Int64.le_trans (le h.2.2) (Int64.le_of_lt h.2.1)

theorem start_le_stop {p : Offset} : ∀ {stop : Offset} {rs : List Span}, HandedBack p stop rs →
    ∀ r ∈ rs, r.start ≤ r.stop
  | _, _ :: _, h, r, hr => by
    rcases List.mem_cons.1 hr with rfl | hr
    · exact Int64.le_of_lt h.2.1
    · exact start_le_stop h.2.2 r hr

/-- **The offsets up to the split point and those of the residuals, the last one first**, are those
up to the end. -/
theorem run_append {start p : Offset} (hp : start ≤ p) :
    ∀ {stop : Offset} {rs : List Span}, HandedBack p stop rs →
      Offset.run start p ++ rs.reverse.flatMap (fun r => Offset.run r.start r.stop) =
        Offset.run start stop
  | _, [], h => by
    rw [show p = _ from h]
    exact List.append_nil _
  | stop, r :: rs, h => by
    have hstart := Int64.le_trans hp h.2.2.le
    rw [List.reverse_cons, List.flatMap_append, ← List.append_assoc, run_append hp h.2.2,
      List.flatMap_singleton, Offset.run_append hstart (Int64.le_of_lt h.2.1), h.1]

end HandedBack

namespace Session

/-! ## Between two turns -/

/-- How far the processing side has come with counting from `start` to `p`, with its outputs and
the tracker. -/
inductive Counted (start p : Offset) : Stage Offset → List Offset → Tracker → Prop where
  | working {work : Work Offset} {outputs : List Offset} {t : Tracker} :
      Counting start p work outputs t → Counted start p (.working work) outputs t
  | judged : start ≤ p →
      Counted start p (.judged none) (Offset.run start p) (.exhausted ⟨start, p⟩)
  | located : start ≤ p →
      Counted start p (.located none ⟨start, p⟩) (Offset.run start p) (.exhausted ⟨start, p⟩)
  | concluded (progress : Progress) : start ≤ p →
      Counted start p (.over none ⟨start, p⟩ (some progress)) (Offset.run start p)
        (.exhausted ⟨start, p⟩)

/-- What holds between two turns: the processing side counts up to some offset, and the residuals
lead from there to the end. -/
def Dividing {Note : Type} (start stop : Offset) (s : Session Offset Note) : Prop :=
  ∃ p, Counted start p s.stage s.outputs s.tracker ∧ HandedBack p stop s.residuals

variable {Note : Type} {start stop p : Offset} {s : Session Offset Note}

theorem Counted.process (h : Counted start p s.stage s.outputs s.tracker) :
    Counted start p s.process.stage s.process.outputs s.process.tracker := by
  obtain ⟨t, n, stage, outputs, splitter, notes, residuals⟩ := s
  dsimp only at h
  cases h with
  | @working work _ _ hc =>
    cases work with
    | finish result =>
      obtain ⟨rfl, rfl, rfl⟩ := hc.finish
      simp only [Session.process, Tracker.checkDone_exhausted, faultOf]
      exact .judged hc.le
    | claim q next => exact .working hc.claim
    | split f next => cases hc
    | emit q next => exact .working hc.emit
    | inspect next => exact .working hc.inspect
  | judged hle => exact .located hle
  | located hle =>
    obtain ⟨progress, hprogress⟩ := Tracker.exists_progress (t := .exhausted ⟨start, p⟩) hle
    simp only [Session.process, hprogress]
    exact .concluded progress hle
  | concluded progress hle => exact .concluded progress hle

/-- A split is refused and changes nothing, or it cuts the span, and counting goes on to there. -/
theorem Counted.split {stage : Stage Offset} {outputs : List Offset} {t : Tracker}
    (h : Counted start p stage outputs t) (f : Binary64) :
    (∃ fault, t.split f = (.error fault, t)) ∨
    ∃ point, point ≤ p ∧
      t.split f = (.ok ⟨⟨t.cursor, point⟩, ⟨point, p⟩⟩, { t with span := ⟨start, point⟩ }) ∧
      Counted start point stage outputs { t with span := ⟨start, point⟩ } := by
  cases h with
  | working hc =>
    rcases hc.split f with hrefused | ⟨point, _, _, hle, hsplit, hcut⟩
    · exact Or.inl hrefused
    · exact Or.inr ⟨point, hle, hsplit, .working hcut⟩
  | judged hle | located hle | concluded _ hle =>
    exact Or.inl (Tracker.split_exhausted ⟨start, p⟩ hle f)

/-- A turn of the splitting side hands back the end of what is left, or nothing. -/
theorem split_dividing (h : Dividing start stop s) : Dividing start stop s.split := by
  obtain ⟨p, hc, hr⟩ := h
  obtain ⟨t, n, stage, outputs, splitter, notes, residuals⟩ := s
  dsimp only at hc hr
  cases splitter with
  | finish result => exact ⟨p, hc, hr⟩
  | inspect next => exact ⟨p, hc, hr⟩
  | note entry next => exact ⟨p, hc, hr⟩
  | split f next =>
    rcases hc.split f with ⟨fault, hsplit⟩ | ⟨point, hle, hsplit, hcut⟩
    · refine ⟨p, ?_, ?_⟩ <;> simp only [Session.split, hsplit, List.append_nil]
      · exact hc
      · exact hr
    · refine ⟨point, ?_, ?_⟩ <;> simp only [Session.split, hsplit]
      · exact hcut
      · -- a split at the very end hands nothing back
        by_cases hlt : point < p
        · have hempty : (Span.mk point p).isEmpty = false := by
            simp [Span.isEmpty, hlt]
          simp only [Split.hasResidual, hempty, Bool.not_false, if_true]
          exact hr.append hlt
        · have heq : point = p := by
            rw [Offset.eq_iff]
            rw [Offset.lt_iff] at hlt
            rw [Offset.le_iff] at hle
            omega
          subst heq
          simp only [Split.hasResidual, Span.isEmpty, Int64.le_refl, decide_true, Bool.not_true,
            Bool.false_eq_true, if_false, List.append_nil]
          exact hr

/-- **Every turn keeps it.** -/
theorem turn_dividing (s : Session Offset Note) (side : Turn) (h : Dividing start stop s) :
    Dividing start stop (s.turn side) := by
  cases side with
  | processing =>
    obtain ⟨p, hc, hr⟩ := h
    have hresiduals : s.process.residuals = s.residuals := by
      unfold process
      split <;> rfl
    exact ⟨p, hc.process, by rw [turn, hresiduals]; exact hr⟩
  | splitting => exact split_dividing h

/-! ## The whole session -/

/-- **Counting under splits.**  For every splitting side and every schedule, the session has an
outcome without a fault.  Its outputs are the offsets from the start to some `p` in order, and its
span ends there; the residuals are not empty and lead from the end down to `p` in the order of
their splits.  Counting through the residuals, the last one first, emits what is missing, whatever
was tallied before. -/
theorem count_under_splits {start stop : Offset} (h : start ≤ stop) (n : Tally)
    (splitter : Splitter Note) (schedule : List Turn) (tallies : Span → Tally) :
    ∃ o p, (((Session.start (.new ⟨start, stop⟩) n .count splitter).run schedule).finish).outcome =
        some o ∧
      o.element.fault = none ∧ o.element.outputs = Offset.run start p ∧
      o.element.span = ⟨start, p⟩ ∧ HandedBack p stop o.residuals ∧
      ∃ taken : List (Outcome Offset),
        o.residuals.reverse.map (fun r => (Splittable.process .count (.new r) (tallies r)).1) =
          taken.map some ∧
        (∀ out ∈ taken, out.fault = none) ∧
        o.element.outputs ++ taken.flatMap (·.outputs) = Offset.run start stop := by
  have hfirst : Dividing start stop (Session.start (.new ⟨start, stop⟩) n .count splitter) :=
    ⟨stop, .working (.count_new h), rfl⟩
  have hmiddle := run_induction turn_dividing hfirst schedule
  generalize (Session.start (.new ⟨start, stop⟩) n Work.count splitter).run schedule = s at *
  obtain ⟨⟨rest, hrest⟩, ⟨fault, span, progress?, hover⟩, ⟨result, hresult⟩⟩ := finish_eq_run s
  obtain ⟨p, hc, hr⟩ : Dividing start stop s.finish := by
    rw [hrest]
    exact run_induction turn_dividing hmiddle rest
  rw [hover] at hc
  generalize houtputs : s.finish.outputs = outputs at hc
  generalize s.finish.tracker = t at hc
  cases hc with
  | concluded progress hle =>
    refine ⟨_, p, by simp only [outcome, hover, hresult]; rfl, rfl, houtputs, rfl, hr, ?_⟩
    have hordered := hr.start_le_stop
    refine ⟨s.finish.residuals.reverse.map fun r =>
      ((Splittable.process .count (.new r) (tallies r)).1).getD ⟨[], r, .empty, none⟩, ?_, ?_, ?_⟩
    · rw [List.map_map]
      refine List.map_congr_left fun r hmem => ?_
      obtain ⟨q, hq⟩ := process_count (hordered r (List.mem_reverse.1 hmem)) (tallies r)
      simp only [Function.comp, hq, Option.getD_some]
    · intro out hout
      obtain ⟨r, hmem, rfl⟩ := List.mem_map.1 hout
      obtain ⟨q, hq⟩ := process_count (hordered r (List.mem_reverse.1 hmem)) (tallies r)
      rw [hq, Option.getD_some]
    · rw [List.flatMap_map, houtputs, ← hr.run_append hle]
      congr 1
      refine List.flatMap_congr fun r hmem => ?_
      obtain ⟨q, hq⟩ := process_count (hordered r (List.mem_reverse.1 hmem)) (tallies r)
      rw [hq, Option.getD_some]

/-- Ten offsets, of which a split after the first claim hands back all that are left. -/
theorem count_under_splits_ten :
    (0 : Offset) ≤ 10 ∧
      ∃ o p, (((Session.start (.new ⟨0, 10⟩) .empty .count
          (.split .zero fun _ => .finish (.ok ()) : Splitter Splittable.Note)).run
            [.processing, .processing, .splitting]).finish).outcome = some o ∧
        o.element.fault = none ∧ o.element.outputs = Offset.run 0 p ∧
        o.element.span = ⟨0, p⟩ ∧ HandedBack p 10 o.residuals ∧
        ∃ taken : List (Outcome Offset),
          o.residuals.reverse.map (fun r => (Splittable.process .count (.new r) .empty).1) =
            taken.map some ∧
          (∀ out ∈ taken, out.fault = none) ∧
          o.element.outputs ++ taken.flatMap (·.outputs) = Offset.run 0 10 :=
  ⟨by decide, count_under_splits (by decide) .empty
    (.split .zero fun _ => .finish (.ok ()) : Splitter Splittable.Note)
    [.processing, .processing, .splitting] fun _ => .empty⟩

end Session

end Splittable
