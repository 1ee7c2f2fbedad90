import Splittable.Proofs.Batch.Orders
import Splittable.Proofs.Session.Alone

/-!
# Work items side by side

Several threads work on the items of a batch at the same time.  Each item is a job with a tracker of
its own and takes one request at a time; a job adds what it has counted to the shared tally at some
later time.  So an execution is a list of moves, each of them by some job.

* `Pool.move`, `Pool.run` : one move, and a schedule of them;
* `Pool.finish`           : what the jobs come to if all of them go on to their end;
* `move_finish`           : no move changes that;
* `finish_run`            : so every schedule comes to what the items come to by themselves.
-/

namespace Splittable.Batch

variable {Output : Type}

/-- Jobs side by side, and the tally they share.  The tally of a job holds what it has counted and
not added to the shared tally yet. -/
structure Pool (Output : Type) where
  jobs : List (Session Output Empty)
  tally : Tally

/-- A move of the job at some position: it takes its next request, or it adds what it has counted to
the shared tally. -/
inductive Move where
  | turn (job : Nat)
  | post (job : Nat)

namespace Pool

/-- The pool after one move. -/
def move (p : Pool Output) : Move → Pool Output
  | .turn i =>
    match p.jobs[i]? with
    | none => p
    | some job => { p with jobs := p.jobs.set i job.process }
  | .post i =>
    match p.jobs[i]? with
    | none => p
    | some job => ⟨p.jobs.set i { job with tally := .empty }, p.tally + job.tally⟩

/-- The moves of a schedule. -/
def run (schedule : List Move) (p : Pool Output) : Pool Output :=
  schedule.foldl move p

/-- What a job comes to. -/
def verdict (job : Session Output Empty) : Option (Outcome Output) :=
  job.finishProcessing.outcome.map (·.element)

/-- What a job has still to add to the shared tally. -/
def due (job : Session Output Empty) : Tally :=
  job.finishProcessing.tally

/-- Every job goes on to its end and adds what it has counted. -/
def finish (p : Pool Output) : List (Option (Outcome Output)) × Tally :=
  (p.jobs.map verdict, p.tally + (p.jobs.map due).sum)

/-! ## Moves -/

theorem verdict_process (job : Session Output Empty) : verdict job.process = verdict job := by
  rw [verdict, verdict, job.process_finishProcessing]

theorem due_process (job : Session Output Empty) : due job.process = due job := by
  rw [due, due, job.process_finishProcessing]

theorem eq_counted (job : Session Output Empty) :
    job = Session.counted job.tally { job with tally := .empty } := by
  have hadd : job.tally = job.tally + Tally.empty := (add_zero job.tally).symm
  unfold Session.counted
  dsimp only
  rw [← hadd]

theorem verdict_post (job : Session Output Empty) :
    verdict { job with tally := .empty } = verdict job := by
  conv_rhs => rw [eq_counted job]
  simp only [verdict, Session.finishProcessing_counted]
  rfl

theorem due_post (job : Session Output Empty) :
    job.tally + due { job with tally := .empty } = due job := by
  conv_rhs => rw [eq_counted job]
  simp only [due, Session.finishProcessing_counted]
  rfl

theorem map_set_eq {α β : Type} {l : List α} {i : Nat} {a b : α} {g : α → β} (h : l[i]? = some a)
    (hg : g b = g a) : (l.set i b).map g = l.map g := by
  obtain ⟨hlt, rfl⟩ := List.getElem?_eq_some_iff.1 h
  rw [List.map_set, hg, ← List.getElem_map g (h := by simpa using hlt), List.set_getElem_self]

theorem add_sum_set {α : Type} {l : List α} {i : Nat} {a b : α} {g : α → Tally} {n : Tally}
    (h : l[i]? = some a) (hg : n + g b = g a) :
    n + ((l.set i b).map g).sum = (l.map g).sum := by
  induction l generalizing i with
  | nil => cases h
  | cons c l ih =>
    cases i with
    | zero =>
      cases h
      rw [List.set_cons_zero, List.map_cons, List.sum_cons, ← add_assoc, hg]
      rfl
    | succ i =>
      rw [List.set_cons_succ, List.map_cons, List.sum_cons, add_left_comm, ih h]
      rfl

/-- **No move changes what the pool comes to.** -/
theorem move_finish (p : Pool Output) (m : Move) : (p.move m).finish = p.finish := by
  cases m with
  | turn i =>
    cases hjob : p.jobs[i]? with
    | none => simp only [move, hjob]
    | some job =>
      simp only [move, hjob, finish]
      rw [map_set_eq hjob (verdict_process job), map_set_eq hjob (due_process job)]
  | post i =>
    cases hjob : p.jobs[i]? with
    | none => simp only [move, hjob]
    | some job =>
      simp only [move, hjob, finish]
      rw [map_set_eq hjob (verdict_post job), add_assoc, add_sum_set hjob (due_post job)]

/-- **Nor does a schedule.** -/
theorem run_finish (schedule : List Move) (p : Pool Output) :
    (p.run schedule).finish = p.finish := by
  induction schedule generalizing p with
  | nil => rfl
  | cons m schedule ih => exact (ih (p.move m)).trans (move_finish p m)

/-! ## The items of a batch -/

variable {Element : Type} (f : Transform Element Output) (elements : List Element)

/-- The job of an item, before its first request. -/
def jobOf (item : WorkItem) : Session Output Empty :=
  match elements[item.element]? with
  | some e => .start (.new item.span) .empty (f.work e) (.finish (.ok ()))
  | none => ⟨.new item.span, .empty, .over none item.span none, [], .finish (.ok ()), [], []⟩

/-- All jobs of a batch, before the first request of any of them. -/
def start (items : List WorkItem) (n : Tally) : Pool Output :=
  ⟨items.map (jobOf f elements), n⟩

/-- A job comes to what its item comes to by itself. -/
theorem verdict_jobOf (item : WorkItem) :
    verdict (jobOf f elements item) = (alone f elements item).1 := by
  cases he : elements[item.element]? with
  | none =>
    simp only [jobOf, alone, runItem, he]
    rfl
  | some e =>
    simp only [jobOf, alone, runItem, he]
    exact Session.outcome_start _ _ _ _

theorem due_jobOf (item : WorkItem) :
    due (jobOf f elements item) = (alone f elements item).2 := by
  cases he : elements[item.element]? with
  | none =>
    simp only [jobOf, alone, runItem, he]
    rfl
  | some e =>
    simp only [jobOf, alone, runItem, he]
    exact Session.tally_start _ _ _ _

/-- **Side by side the items come to what they come to by themselves**, and count together what
they count by themselves, whoever moves when. -/
theorem finish_run (items : List WorkItem) (n : Tally) (schedule : List Move) :
    ((start f elements items n).run schedule).finish =
      (items.map fun item => (alone f elements item).1,
        n + (items.map fun item => (alone f elements item).2).sum) := by
  rw [run_finish]
  simp only [finish, start, List.map_map, Function.comp_def, verdict_jobOf, due_jobOf]

end Pool

end Splittable.Batch
