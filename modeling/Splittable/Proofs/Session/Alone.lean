import Splittable.Proofs.Session.Turns
import Splittable.Proofs.Work.Alone

/-!
# The processing side alone

If nobody splits, the turns of the processing side come to what processing does in one go.

* `outcome_start`, `tally_start` : turn by turn a work comes to what it comes to in one go;
* `process_finishProcessing`     : a turn does not change what the work comes to;
* `finishProcessing_counted`     : nor does what was counted before.
-/

namespace Splittable.Session

variable {Output Note : Type}

/-! ## All turns at once -/

theorem finishWork_eq (work : Work Output) (s : Session Output Note)
    (h : s.stage = .working work) :
    finishWork work s =
      let run := work.run s.tracker s.tally
      let (fault, t, n) := judge run.result run.tracker run.tally
      { s with
        tracker := t
        tally := n
        stage := .over fault t.span t.progress
        outputs := s.outputs ++ run.outputs } := by
  induction work generalizing s with
  | finish result =>
    cases result <;> simp [finishWork, conclude, process, h, Work.run, judge]
  | claim p next ih =>
    rw [finishWork, ih _ _ (by simp [process, h])]
    simp [process, h, Work.run]
  | split f next ih =>
    rw [finishWork, ih _ _ (by simp [process, h])]
    simp [process, h, Work.run]
  | emit output next ih =>
    rw [finishWork, ih _ (by simp [process, h])]
    simp [process, h, Work.run]
  | inspect next ih =>
    rw [finishWork, ih _ _ (by simp [process, h])]
    simp [process, h, Work.run]

theorem finishProcessing_start (t : Tracker) (n : Tally) (work : Work Output)
    (splitter : Splitter Note) :
    (start t n work splitter).finishProcessing =
      let run := work.run t n
      let (fault, t, n) := judge run.result run.tracker run.tally
      ⟨t, n, .over fault t.span t.progress, run.outputs, splitter, [], []⟩ :=
  finishWork_eq work _ rfl

/-- **Turn by turn a work comes to the same** as in one go. -/
theorem outcome_start (t : Tracker) (n : Tally) (work : Work Output)
    (result : Except SplitterFailure Unit) :
    (start t n work (.finish result : Splitter Note)).finishProcessing.outcome.map (·.element) =
      (Splittable.process work t n).1 := by
  simp only [finishProcessing_start, Splittable.process]
  generalize judge _ _ _ = judged
  obtain ⟨fault, t, n⟩ := judged
  cases t.progress <;> simp [outcome]

/-- Turn by turn a work counts the same as in one go. -/
theorem tally_start (t : Tracker) (n : Tally) (work : Work Output) (splitter : Splitter Note) :
    (start t n work splitter).finishProcessing.tally = (Splittable.process work t n).2.2 := by
  simp only [finishProcessing_start, Splittable.process]

/-! ## One turn at a time -/

theorem process_of_over {s : Session Output Note} (h : s.ProcessingOver) : s.process = s := by
  obtain ⟨fault, span, progress, hstage⟩ := h
  simp [process, hstage]

/-- After the work a further turn changes nothing about the end. -/
theorem conclude_process {s : Session Output Note}
    (h : ∀ work, s.stage = .working work → ∃ result, work = .finish result) :
    s.process.conclude = s.conclude :=
  process_of_over (conclude_over h)

/-- **A turn does not change what the processing side comes to.** -/
theorem process_finishProcessing (s : Session Output Note) :
    s.process.finishProcessing = s.finishProcessing := by
  cases hstage : s.stage with
  | working work =>
    cases work with
    | finish result =>
      have hconclude : s.process.finishProcessing = s.process.conclude := by
        cases result <;> simp [finishProcessing, process, hstage]
      rw [hconclude, conclude_process fun work hwork => ⟨result, ?_⟩]
      · simp only [finishProcessing, hstage, finishWork]
      · rw [hstage] at hwork
        exact (Stage.working.inj hwork).symm
    | claim | split | emit | inspect =>
      simp [finishProcessing, process, hstage, finishWork]
  | failed | judged | located | «over» =>
    have hconclude : s.process.finishProcessing = s.process.conclude := by
      simp [finishProcessing, process, hstage]
    rw [hconclude, conclude_process fun work hwork => by rw [hstage] at hwork; cases hwork]
    simp only [finishProcessing, hstage]

/-! ## What was counted before -/

/-- The session with further counts in its tally. -/
def counted (n : Tally) (s : Session Output Note) : Session Output Note :=
  { s with tally := n + s.tally }

theorem process_counted (n : Tally) (s : Session Output Note) :
    (s.counted n).process = s.process.counted n := by
  unfold process
  simp only [counted]
  split <;> simp only [Tally.add_countClaim, Tally.add_countSplit, Tally.add_countFailure]

theorem conclude_counted (n : Tally) (s : Session Output Note) :
    (s.counted n).conclude = s.conclude.counted n := by
  simp only [conclude, process_counted]

theorem finishWork_counted (n : Tally) (work : Work Output) (s : Session Output Note) :
    finishWork work (s.counted n) = (finishWork work s).counted n := by
  induction work generalizing s with
  | finish result => exact conclude_counted n s
  | claim p next ih | split f next ih | emit output next ih | inspect next ih =>
    rw [finishWork, process_counted]
    exact ih ..

/-- **What was counted before stays in the tally**, and changes nothing else. -/
theorem finishProcessing_counted (n : Tally) (s : Session Output Note) :
    (s.counted n).finishProcessing = s.finishProcessing.counted n := by
  have hstage : (s.counted n).stage = s.stage := rfl
  unfold finishProcessing
  rw [hstage]
  split
  · exact finishWork_counted n _ s
  · exact conclude_counted n s

end Splittable.Session
