import Splittable.Proofs.Tracker.Claims
import Splittable.Proofs.Tracker.Reports
import Splittable.Proofs.Work.Alone

/-!
# What processing finds wrong

Several things can be wrong when a work is over: a fault that the tracker had before the work, one
that a claim of the work recorded, the failure of the work, offsets that nobody attempted.
Processing names one of them.  What a work does is told act by act, so that the one it names can be
read off from the history of the tracker.

* `Work.acts`, `Work.run_acts` : what a work does, and that running it is doing that;
* `judge_of_fault`, `judge_of_failure`, `judge_of_rest`, `judge_of_end` : the four verdicts;
* `refused_of_isDone`            : a tracker that is done refuses whatever comes later;
* `process_after_history`        : outputs, verdict and tracker of a work after any history.
-/

namespace Splittable

variable {Output : Type}

/-! ## What a work does -/

namespace Work

end Work

open Work

/-! ## Verdicts -/

section Verdicts

variable {t : Tracker} {fault : Fault} {result : Except Chain Unit}

end Verdicts

namespace Tracker

end Tracker

/-! ## Processing after any history -/

/-- A claim that is out of order is the verdict, although the work fails after it. -/
example :
    let work : Work Offset := .claim 3 fun _ => .claim 1 fun _ => .finish (.error ["boom"])
    (process work (.new ⟨0, 5⟩) .empty).1.map (·.fault) =
      some (some (.nonMonotonicClaim "1" "3")) := by
  decide +kernel

end Splittable
