import Splittable.Proofs.Session.Sharing

/-!
# The verdict on a session

When the work of a session is over, its verdict is put together from several looks at the tracker,
and splits may come between them.  What the verdict says is settled by the first look: without a
fault every offset of the span was attempted, so no later split can change the tracker; and a fault,
once it is found, stays in the verdict.

* `judgedAt`                  : the result of the work and the tracker at the first look;
* `Approved`, `Refused`       : how a verdict goes on after the first look;
* `judgedAt_spec`             : the first look decides which of them;
* `Accounted`                 : what is known of the work from what a session hands back;
* `verdict_under_splits`      : no schedule lets work vanish behind a session without a failure.
-/

namespace Splittable.Session

variable {Output Note : Type} {whole : Span} {given : List Offset} {s : Session Output Note}

/-! ## The first look -/

/-- The result of the work, and the tracker as it is when the verdict on the work begins. -/
def judgedAt (s : Session Output Note) : List Turn → Option (Except Chain Unit × Tracker)
  | [] => none
  | side :: rest =>
    match side, s.stage with
    | .processing, .working (.finish result) => some (result, s.tracker)
    | _, _ => (s.turn side).judgedAt rest

theorem judgedAt_finish {result : Except Chain Unit} (hstage : s.stage = .working (.finish result))
    (rest : List Turn) : s.judgedAt (.processing :: rest) = some (result, s.tracker) := by
  simp only [judgedAt, hstage]

theorem judgedAt_cons {side : Turn} (rest : List Turn)
    (hnot : ∀ result, side = .processing → s.stage ≠ .working (.finish result)) :
    s.judgedAt (side :: rest) = (s.turn side).judgedAt rest := by
  rw [judgedAt]
  exact hnot

theorem working_turn {work : Work Output} (hwork : s.stage = .working work) (side : Turn) :
    (∃ result, side = .processing ∧ work = .finish result) ∨
      ∃ next, (s.turn side).stage = .working next := by
  cases side with
  | splitting => exact Or.inr ⟨work, (split_stage s).trans hwork⟩
  | processing =>
    cases work with
    | finish result => exact Or.inl ⟨result, rfl, rfl⟩
    | _ => exact Or.inr ⟨_, by simp only [turn, process, hwork]; rfl⟩

theorem exists_judgedAt {work : Work Output} (hwork : s.stage = .working work)
    (schedule : List Turn) (hover : (s.run schedule).ProcessingOver) :
    ∃ result t, s.judgedAt schedule = some (result, t) := by
  induction schedule generalizing s work with
  | nil =>
    obtain ⟨fault, span, progress, hstage⟩ := hover
    cases hwork.symm.trans hstage
  | cons side rest ih =>
    by_cases hfirst : ∃ result, side = .processing ∧ work = .finish result
    · obtain ⟨result, rfl, rfl⟩ := hfirst
      exact ⟨result, s.tracker, judgedAt_finish hwork rest⟩
    · obtain ⟨next, hnext⟩ := (working_turn hwork side).resolve_left hfirst
      rw [judgedAt_cons rest fun result hside hstage =>
        hfirst ⟨result, hside, Stage.working.inj (hwork.symm.trans hstage)⟩]
      exact ih hnext hover

/-! ## After the first look -/

/-- The first look found no fault on `t`. -/
inductive Approved (t : Tracker) : Stage Output → Prop where
  | judged : Approved t (.judged none)
  | located : Approved t (.located none t.span)
  | concluded (progress : Option Progress) : Approved t (.over none t.span progress)

/-- The verdict names a fault, or is about to name the one on the tracker `t`. -/
inductive Refused (t : Tracker) : Stage Output → Prop where
  | failed : t.fault ≠ none → Refused t .failed
  | judged (fault : Fault) : Refused t (.judged (some fault))
  | located (fault : Fault) (span : Span) : Refused t (.located (some fault) span)
  | concluded (fault : Fault) (span : Span) (progress : Option Progress) :
      Refused t (.over (some fault) span progress)

theorem split_tracker (s : Session Output Note) :
    s.split.tracker = s.tracker ∨ ∃ f, s.split.tracker = (s.tracker.split f).2 := by
  unfold split
  split
  · exact Or.inl rfl
  · rename_i f next _
    exact Or.inr ⟨f, rfl⟩
  · exact Or.inl rfl
  · exact Or.inl rfl

theorem split_tracker_fault (s : Session Output Note) :
    s.split.tracker.fault = s.tracker.fault := by
  rcases split_tracker s with h | ⟨f, h⟩
  · rw [h]
  · rw [h, Tracker.split_fault]

/-- A tracker that is done is out of reach for the splitting side. -/
theorem Approved.turn {t : Tracker} (ht : t.Consistent) (hdone : t.isDone = true)
    (h : s.tracker = t ∧ Approved t s.stage) (side : Turn) :
    (s.turn side).tracker = t ∧ Approved t (s.turn side).stage := by
  obtain ⟨rfl, h⟩ := h
  cases side with
  | processing =>
    obtain ⟨t, n, stage, outputs, splitter, notes, residuals⟩ := s
    dsimp only at h
    cases h with
    | judged => exact ⟨rfl, .located⟩
    | located => exact ⟨rfl, .concluded _⟩
    | concluded progress => exact ⟨rfl, .concluded progress⟩
  | splitting =>
    refine ⟨?_, by rw [Session.turn, split_stage]; exact h⟩
    rcases split_tracker s with hs | ⟨f, hs⟩
    · exact hs
    · obtain ⟨fault, hrefused⟩ := Tracker.split_refused ht hdone f
      rw [Session.turn, hs, hrefused]

theorem Refused.turn (h : Refused s.tracker s.stage) (side : Turn) :
    Refused (s.turn side).tracker (s.turn side).stage := by
  cases side with
  | processing =>
    obtain ⟨t, n, stage, outputs, splitter, notes, residuals⟩ := s
    dsimp only at h
    cases h with
    | failed hfault =>
      obtain ⟨fault, hfault⟩ := Option.ne_none_iff_exists'.1 hfault
      simp only [Session.turn, process, hfault]
      exact .judged fault
    | judged fault => exact .located fault _
    | located fault span => exact .concluded fault span _
    | concluded fault span progress => exact .concluded fault span progress
  | splitting =>
    have hfault := split_tracker_fault s
    rw [Session.turn, split_stage]
    cases hstage : s.stage <;> rw [hstage] at h <;> cases h
    · rename_i hne
      exact .failed (by rw [hfault]; exact hne)
    · exact .judged _
    · exact .located _ _
    · exact .concluded _ _ _

theorem turn_fault (s : Session Output Note) (side : Turn) (h : s.tracker.fault ≠ none) :
    (s.turn side).tracker.fault ≠ none := by
  cases side with
  | splitting => rwa [turn, split_tracker_fault]
  | processing =>
    obtain ⟨t, n, stage, outputs, splitter, notes, residuals⟩ := s
    cases stage with
    | working work =>
      cases work with
      | finish result =>
        cases result with
        | error reasons => exact Tracker.fault_record t _
        | ok => exact h
      | claim p next => exact Tracker.claim_fault h p
      | split f next => rwa [← Tracker.split_fault t f] at h
      | emit | inspect => exact h
    | _ => exact h

/-- The first look finds a fault, and the verdict will name one, or finds none and is the last word
on the tracker. -/
theorem first_look (h : Sharing whole given s) {result : Except Chain Unit}
    (hstage : s.stage = .working (.finish result)) (rest : List Turn) :
    (result = .ok () ∧ s.tracker.checkDone = .ok () ∧ (s.process.run rest).tracker = s.tracker ∧
        Approved s.tracker (s.process.run rest).stage) ∨
      ((result = .ok () → s.tracker.checkDone ≠ .ok ()) ∧
        Refused (s.process.run rest).tracker (s.process.run rest).stage) := by
  have hrefused : ∀ next : Session Output Note, Refused next.tracker next.stage →
      Refused (next.run rest).tracker (next.run rest).stage :=
    fun next hnext => run_induction (P := fun s => Refused s.tracker s.stage)
      (fun _ side hs => hs.turn side) hnext rest
  cases result with
  | error reasons =>
    refine Or.inr ⟨(fun hok => by cases hok), hrefused _ ?_⟩
    simp only [process, hstage]
    exact .failed (Tracker.fault_record s.tracker _)
  | ok =>
    cases hcheck : s.tracker.checkDone with
    | error fault =>
      refine Or.inr ⟨(fun _ hok => by cases hok), hrefused _ ?_⟩
      simp only [process, hstage, hcheck, faultOf]
      exact .judged fault
    | ok =>
      have hdone := ((Tracker.checkDone_iff h.consistent).1 hcheck).1
      refine Or.inl ⟨rfl, rfl, run_induction (P := fun next => next.tracker = s.tracker ∧
        Approved s.tracker next.stage)
        (fun _ side hs => Approved.turn h.consistent hdone hs side) ?_ rest⟩
      simp only [process, hstage, hcheck, faultOf]
      exact ⟨trivial, .judged⟩

/-- **The first look settles the verdict**, whatever the other side does before and after it. -/
theorem judgedAt_spec (h : Sharing whole given s) {schedule : List Turn}
    {result : Except Chain Unit} {t : Tracker} (hj : s.judgedAt schedule = some (result, t)) :
    t.Consistent ∧ (∃ k, (s.run (schedule.take k)).tracker = t) ∧
      ((result = .ok () ∧ t.checkDone = .ok () ∧ (s.run schedule).tracker = t ∧
          Approved t (s.run schedule).stage) ∨
        ((result = .ok () → t.checkDone ≠ .ok ()) ∧
          Refused (s.run schedule).tracker (s.run schedule).stage)) := by
  induction schedule generalizing given s with
  | nil => cases hj
  | cons side rest ih =>
    by_cases hfirst : ∃ result, side = .processing ∧ s.stage = .working (.finish result)
    · obtain ⟨result', rfl, hstage⟩ := hfirst
      rw [judgedAt_finish hstage] at hj
      cases hj
      exact ⟨h.consistent, ⟨0, rfl⟩, first_look h hstage rest⟩
    · rw [judgedAt_cons rest fun result hside hstage => hfirst ⟨result, hside, hstage⟩] at hj
      obtain ⟨hconsistent, ⟨k, hk⟩, hsettled⟩ := ih (turn_sharing h side) hj
      exact ⟨hconsistent, ⟨k + 1, hk⟩, hsettled⟩

theorem fault_of_earlier {schedule : List Turn} {k : Nat}
    (h : (s.run (schedule.take k)).tracker.fault ≠ none) :
    (s.run schedule).tracker.fault ≠ none := by
  have hend := run_induction (P := fun s => s.tracker.fault ≠ none) turn_fault h (schedule.drop k)
  rwa [← run_append, List.take_append_drop] at hend

/-- A verdict without a fault was given on the tracker as it is at the end. -/
theorem approved_of_over (h : Sharing whole given s) {schedule : List Turn}
    {result : Except Chain Unit} {t : Tracker} (hj : s.judgedAt schedule = some (result, t))
    {span : Span} {progress : Option Progress}
    (hover : (s.run schedule).stage = .over none span progress) :
    (s.run schedule).tracker.checkDone = .ok () ∧ span = (s.run schedule).tracker.span := by
  obtain ⟨_, _, hsettled⟩ := judgedAt_spec h hj
  rw [hover] at hsettled
  rcases hsettled with ⟨_, hcheck, htracker, happroved⟩ | ⟨_, hrefused⟩
  · cases happroved
    rw [htracker]
    exact ⟨hcheck, rfl⟩
  · cases hrefused

/-- **A verdict names a fault exactly if** the work failed, a fault was on the tracker at some time,
or the cursor was below the end at the first look. -/
theorem fault_iff_of_over (h : Sharing whole given s) {schedule : List Turn}
    {result : Except Chain Unit} {t : Tracker} (hj : s.judgedAt schedule = some (result, t))
    {found : Option Fault} {span : Span} {progress : Option Progress}
    (hover : (s.run schedule).stage = .over found span progress) :
    (∃ fault, found = some fault) ↔ (∃ reasons, result = .error reasons) ∨
      (∃ k, (s.run (schedule.take k)).tracker.fault ≠ none) ∨ t.cursor < t.span.stop := by
  obtain ⟨hconsistent, ⟨k, hk⟩, hsettled⟩ := judgedAt_spec h hj
  have hreached := Tracker.checkDone_iff_reached hconsistent.ordered
  rw [hover] at hsettled
  rcases hsettled with ⟨rfl, hcheck, htracker, happroved⟩ | ⟨hbad, hrefused⟩
  · cases happroved
    refine iff_of_false (by simp) ?_
    rintro (⟨reasons, herror⟩ | ⟨j, hfault⟩ | hbelow)
    · cases herror
    · have hend := fault_of_earlier hfault
      rw [htracker] at hend
      exact hend (hreached.1 hcheck).1
    · exact Int64.not_le.2 hbelow (hreached.1 hcheck).2
  · cases hrefused with
    | concluded fault =>
      refine iff_of_true ⟨fault, rfl⟩ ?_
      cases result with
      | error reasons => exact Or.inl ⟨reasons, rfl⟩
      | ok =>
        have hcheck := hbad rfl
        rw [ne_eq, hreached, not_and_or, Int64.not_le] at hcheck
        exact Or.inr (hcheck.imp_left fun hfault => ⟨k, by rw [hk]; exact hfault⟩)

/-! ## The whole session -/

/-- What the final span and the residuals that are handed back say about the work: the span is the
one the tracker is left with, it and the residuals divide the whole, every offset up to its end was
attempted without a fault, and no offset that was granted was handed back. -/
structure Accounted (whole : Span) (given : List Offset) (t : Tracker) (final : Span)
    (residuals : List Span) : Prop where
  span : final = t.span
  start : final.start = whole.start
  partition : Partition whole (final :: residuals)
  reached : final.stop ≤ t.cursor
  faultless : t.fault = none
  apart : ∀ p ∈ given, ∀ r ∈ residuals, p ∉ r

theorem Sharing.accounted (h : Sharing whole given s) (hcheck : s.tracker.checkDone = .ok ()) :
    Accounted whole given s.tracker s.tracker.span s.residuals := by
  obtain ⟨hfault, hreached⟩ := (Tracker.checkDone_iff_reached h.consistent.ordered).1 hcheck
  refine ⟨rfl, h.start, h.partition, hreached, hfault, fun p hp r hr => ?_⟩
  exact (List.pairwise_cons.1 h.partition.apart).1 r hr p (h.holds p hp).1

theorem exists_outcome {found : Option Fault} {span : Span} {progress : Progress}
    (hstage : s.stage = .over found span (some progress)) (hsplitter : s.SplittingOver) :
    ∃ o, s.outcome = some o ∧ o.element.fault = found ∧ o.element.span = span ∧
      o.residuals = s.residuals := by
  obtain ⟨ended, hended⟩ := hsplitter
  simp only [outcome, hstage, hended]
  exact ⟨_, rfl, rfl, rfl, rfl⟩

theorem result_eq_ok_iff {o : SessionOutcome Output Note} {got : List Output × List Span} :
    o.result = .ok got ↔
      o.element.fault = none ∧ o.splitError = none ∧ got = (o.element.outputs, o.residuals) := by
  unfold SessionOutcome.result
  cases o.element.fault <;> cases o.splitError <;> simp [eq_comm]

theorem result_eq_processing_iff {o : SessionOutcome Output Note} {fault : Fault} :
    o.result = .error (.processing fault) ↔ o.element.fault = some fault := by
  unfold SessionOutcome.result
  cases o.element.fault <;> cases o.splitError <;> simp

/-- **No work vanishes behind a success.**  A work claims offsets in any order and then succeeds or
fails, while another thread splits its tracker; the turns come in any order.  Both sides come to
their end, and the session has an outcome.  If its result is a success, that is the outputs and the
residuals, and the work is accounted for by the final span and the residuals it hands back.  It is
the failure of the processing side exactly if the work failed, a fault was on the tracker at some
time, or the cursor was below the end when the verdict began. -/
theorem verdict_under_splits {start stop : Offset} (hle : start ≤ stop) (n : Tally)
    {work : Work Output} (hwork : work.NeverSplits) (splitter : Splitter Note)
    (schedule : List Turn) :
    let first := Session.start (.new ⟨start, stop⟩) n work splitter
    ∃ rest o result t,
      (first.run schedule).finish = first.run (schedule ++ rest) ∧
      (first.run (schedule ++ rest)).outcome = some o ∧
      first.judgedAt (schedule ++ rest) = some (result, t) ∧
      (∀ got, o.result = .ok got → got = (o.element.outputs, o.residuals) ∧
        Accounted ⟨start, stop⟩ (first.granted (schedule ++ rest))
          (first.run (schedule ++ rest)).tracker o.element.span got.2) ∧
      ((∃ fault, o.result = .error (.processing fault)) ↔
        (∃ reasons, result = .error reasons) ∨
        (∃ k, (first.run ((schedule ++ rest).take k)).tracker.fault ≠ none) ∨
        t.cursor < t.span.stop) := by
  intro first
  obtain ⟨⟨rest, hrest⟩, hprocessing, hsplitting⟩ := finish_eq_run (first.run schedule)
  rw [← run_append] at hrest
  rw [hrest] at hprocessing hsplitting
  have hfirst : Sharing ⟨start, stop⟩ [] first := start_sharing hle n hwork splitter
  have hlast := run_sharing hfirst (schedule ++ rest)
  rw [List.nil_append] at hlast
  obtain ⟨result, t, hj⟩ := exists_judgedAt (s := first) rfl (schedule ++ rest) hprocessing
  obtain ⟨found, span, progress?, hover⟩ := hprocessing
  have hmeasured := hlast.regular
  rw [hover] at hmeasured
  obtain ⟨progress, rfl⟩ := Option.ne_none_iff_exists'.1 hmeasured
  obtain ⟨o, ho, hfound, hspan, hresiduals⟩ := exists_outcome hover hsplitting
  refine ⟨rest, o, result, t, hrest, ho, hj, fun got hok => ?_, ?_⟩
  · obtain ⟨hnone, _, hgot⟩ := result_eq_ok_iff.1 hok
    obtain rfl : found = none := hfound.symm.trans hnone
    obtain ⟨hcheck, hend⟩ := approved_of_over hfirst hj hover
    refine ⟨hgot, ?_⟩
    rw [hgot, hspan, hend, hresiduals]
    exact hlast.accounted hcheck
  · simp only [result_eq_processing_iff, hfound]
    exact fault_iff_of_over hfirst hj hover

/-- Five offsets, of which the second is claimed; a split then hands back the last three. -/
theorem verdict_under_splits_five :
    let work : Work Offset :=
      .claim 1 fun granted => .finish (if granted then .ok () else .error ["refused"])
    let first := Session.start (.new ⟨0, 5⟩) .empty work
      (.split .zero fun _ => .finish (.ok ()) : Splitter Splittable.Note)
    let schedule : List Turn := [.processing, .splitting, .processing]
    (0 : Offset) ≤ 5 ∧ work.NeverSplits ∧
      ∃ rest o result t,
        (first.run schedule).finish = first.run (schedule ++ rest) ∧
        (first.run (schedule ++ rest)).outcome = some o ∧
        first.judgedAt (schedule ++ rest) = some (result, t) ∧
        (∀ got, o.result = .ok got → got = (o.element.outputs, o.residuals) ∧
          Accounted ⟨0, 5⟩ (first.granted (schedule ++ rest))
            (first.run (schedule ++ rest)).tracker o.element.span got.2) ∧
        ((∃ fault, o.result = .error (.processing fault)) ↔
          (∃ reasons, result = .error reasons) ∨
          (∃ k, (first.run ((schedule ++ rest).take k)).tracker.fault ≠ none) ∨
          t.cursor < t.span.stop) := by
  intro work first schedule
  have hwork : work.NeverSplits := fun _ => trivial
  exact ⟨by decide, hwork, verdict_under_splits (by decide) .empty hwork _ schedule⟩

end Splittable.Session
