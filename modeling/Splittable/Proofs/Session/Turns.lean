import Splittable.Session

/-!
# Running a session to its end

Once a schedule is over, the processing side goes on to its end and the splitting side after it.
That is nothing but more turns, so what every turn keeps holds of a finished session as well.

* `finish_eq_run` : finishing a session is a schedule of further turns, after which both sides are
  over.
-/

namespace Splittable.Session

variable {Output Note : Type}

/-- The processing side is over. -/
def ProcessingOver (s : Session Output Note) : Prop :=
  ∃ fault span progress, s.stage = .over fault span progress

/-- The splitting side is over. -/
def SplittingOver (s : Session Output Note) : Prop :=
  ∃ result, s.splitter = .finish result

/-- `n` turns of one side. -/
def turns (s : Session Output Note) (side : Turn) (n : Nat) : Session Output Note :=
  s.run (List.replicate n side)

theorem run_append (s : Session Output Note) (first second : List Turn) :
    s.run (first ++ second) = (s.run first).run second :=
  List.foldl_append

/-! ## The processing side -/

/-- After the work four turns are enough. -/
theorem conclude_over {s : Session Output Note}
    (h : ∀ work, s.stage = .working work → ∃ result, work = .finish result) :
    s.conclude.ProcessingOver := by
  unfold conclude ProcessingOver
  cases hstage : s.stage with
  | working work =>
    obtain ⟨result, rfl⟩ := h work hstage
    cases result <;> simp [process, hstage]
  | failed => simp [process, hstage]
  | judged => simp [process, hstage]
  | located => simp [process, hstage]
  | «over» => simp [process, hstage]

theorem conclude_eq_turns (s : Session Output Note) : s.conclude = s.turns .processing 4 := rfl

theorem finishWork_eq_turns (work : Work Output) (s : Session Output Note)
    (h : s.stage = .working work) :
    (∃ n, finishWork work s = s.turns .processing n) ∧ (finishWork work s).ProcessingOver := by
  induction work generalizing s with
  | finish result =>
    refine ⟨⟨4, conclude_eq_turns s⟩, conclude_over fun work hw => ⟨result, ?_⟩⟩
    rw [h] at hw
    exact (Stage.working.inj hw).symm
  | claim p next ih =>
    have hnext : s.process.stage = .working (next (s.tracker.claim p).1) := by simp [process, h]
    obtain ⟨⟨n, hn⟩, hover⟩ := ih _ s.process hnext
    exact ⟨⟨n + 1, hn⟩, hover⟩
  | split f next ih =>
    have hnext : s.process.stage = .working (next (s.tracker.split f).1) := by simp [process, h]
    obtain ⟨⟨n, hn⟩, hover⟩ := ih _ s.process hnext
    exact ⟨⟨n + 1, hn⟩, hover⟩
  | emit output next ih =>
    have hnext : s.process.stage = .working next := by simp [process, h]
    obtain ⟨⟨n, hn⟩, hover⟩ := ih s.process hnext
    exact ⟨⟨n + 1, hn⟩, hover⟩
  | inspect next ih =>
    have hnext : s.process.stage = .working (next s.tracker) := by simp [process, h]
    obtain ⟨⟨n, hn⟩, hover⟩ := ih _ s.process hnext
    exact ⟨⟨n + 1, hn⟩, hover⟩

theorem finishProcessing_eq_turns (s : Session Output Note) :
    (∃ n, s.finishProcessing = s.turns .processing n) ∧ s.finishProcessing.ProcessingOver := by
  unfold finishProcessing
  split
  · rename_i work hstage
    exact finishWork_eq_turns work s hstage
  · rename_i hstage
    exact ⟨⟨4, conclude_eq_turns s⟩, conclude_over fun work hw => absurd hw (hstage work)⟩

/-! ## The splitting side -/

/-- A turn of the splitting side leaves the processing side where it is. -/
theorem split_stage (s : Session Output Note) : s.split.stage = s.stage := by
  unfold split
  split <;> rfl

theorem finishSplitter_eq_turns (splitter : Splitter Note) (s : Session Output Note)
    (h : s.splitter = splitter) :
    (∃ n, finishSplitter splitter s = s.turns .splitting n) ∧
      (finishSplitter splitter s).SplittingOver ∧ (finishSplitter splitter s).stage = s.stage := by
  induction splitter generalizing s with
  | finish result => exact ⟨⟨0, rfl⟩, ⟨result, h⟩, rfl⟩
  | split f next ih =>
    have hnext : s.split.splitter = next (s.tracker.split f).1 := by simp [split, h]
    obtain ⟨⟨n, hn⟩, hover, hstage⟩ := ih _ s.split hnext
    exact ⟨⟨n + 1, hn⟩, hover, hstage.trans (split_stage s)⟩
  | inspect next ih =>
    have hnext : s.split.splitter = next s.tracker s.residuals := by simp [split, h]
    obtain ⟨⟨n, hn⟩, hover, hstage⟩ := ih _ _ s.split hnext
    exact ⟨⟨n + 1, hn⟩, hover, hstage.trans (split_stage s)⟩
  | note entry next ih =>
    have hnext : s.split.splitter = next := by simp [split, h]
    obtain ⟨⟨n, hn⟩, hover, hstage⟩ := ih s.split hnext
    exact ⟨⟨n + 1, hn⟩, hover, hstage.trans (split_stage s)⟩

/-- **Finishing a session is a schedule of further turns**, after which both sides are over. -/
theorem finish_eq_run (s : Session Output Note) :
    (∃ schedule, s.finish = s.run schedule) ∧ s.finish.ProcessingOver ∧
      s.finish.SplittingOver := by
  obtain ⟨⟨n, hn⟩, hprocessing⟩ := finishProcessing_eq_turns s
  obtain ⟨⟨m, hm⟩, hsplitting, hstage⟩ :=
    finishSplitter_eq_turns s.finishProcessing.splitter s.finishProcessing rfl
  refine ⟨⟨List.replicate n .processing ++ List.replicate m .splitting, ?_⟩, ?_, hsplitting⟩
  · rw [run_append]
    unfold finish
    rw [hm, hn]
    rfl
  · obtain ⟨fault, span, progress, hover⟩ := hprocessing
    exact ⟨fault, span, progress, hstage.trans hover⟩

theorem run_induction {P : Session Output Note → Prop} (hturn : ∀ s side, P s → P (s.turn side))
    {s : Session Output Note} (h : P s) (schedule : List Turn) : P (s.run schedule) := by
  induction schedule generalizing s with
  | nil => exact h
  | cons side schedule ih => exact ih (hturn s side h)

end Splittable.Session
