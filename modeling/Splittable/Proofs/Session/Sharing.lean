import Splittable.Proofs.Session.Turns
import Splittable.Proofs.Tracker.Histories

/-!
# Sharing a span under splits

One side works on a tracker and only claims, in whatever order it likes; the other sends split
requests.  Between any two turns the span of the tracker and the residuals divide the first span,
and whatever was granted stays on the side of the tracker.

* `Work.NeverSplits`         : works that leave splitting to the other side;
* `Session.granted`          : the offsets that were granted in a schedule;
* `Sharing`, `turn_sharing`  : what holds between any two turns;
* `run_sharing`              : so it does after any schedule.
-/

namespace Splittable

variable {Output Note : Type}

/-- A work that may claim, emit and look at its tracker, but never splits it. -/
def Work.NeverSplits : Work Output → Prop
  | .finish _ => True
  | .claim _ next => ∀ granted, (next granted).NeverSplits
  | .split _ _ => False
  | .emit _ next => next.NeverSplits
  | .inspect next => ∀ t, (next t).NeverSplits

namespace Session

/-- The work that is left at a stage never splits, and a verdict that is over has measured its
tracker. -/
def Regular : Stage Output → Prop
  | .working work => work.NeverSplits
  | .over _ _ progress => progress ≠ none
  | _ => True

/-- The offset that a turn of a side is granted, if it claims one. -/
def grantedBy (s : Session Output Note) : Turn → List Offset
  | .processing =>
    match s.stage with
    | .working (.claim p _) => if (s.tracker.claim p).1 then [p] else []
    | _ => []
  | .splitting => []

/-- The offsets that are granted in a schedule, in their order. -/
def granted (s : Session Output Note) : List Turn → List Offset
  | [] => []
  | side :: rest => s.grantedBy side ++ (s.turn side).granted rest

/-- What holds between two turns, once the offsets in `given` were granted. -/
structure Sharing (whole : Span) (given : List Offset) (s : Session Output Note) : Prop where
  consistent : s.tracker.Consistent
  start : s.tracker.span.start = whole.start
  bounds : s.tracker.span.start ≤ s.tracker.span.stop
  partition : Partition whole (s.tracker.span :: s.residuals)
  holds : s.tracker.Holds given
  regular : Regular s.stage

theorem start_sharing {start stop : Offset} (h : start ≤ stop) (n : Tally) {work : Work Output}
    (hwork : work.NeverSplits) (splitter : Splitter Note) :
    Sharing ⟨start, stop⟩ [] (Session.start (.new ⟨start, stop⟩) n work splitter) where
  consistent := Tracker.consistent_new _
  start := rfl
  bounds := h
  partition := Partition.single _
  holds _ hp := by cases hp
  regular := hwork

variable {whole : Span} {given : List Offset} {s : Session Output Note}

theorem Sharing.claim (h : Sharing whole given s) {p : Offset} {next : Bool → Work Output}
    (hstage : s.stage = .working (.claim p next)) :
    Sharing whole (given ++ s.grantedBy .processing) s.process := by
  have hwork : ∀ granted, (next granted).NeverSplits := by
    have := h.regular
    rwa [hstage] at this
  have hspan := Tracker.claim_span s.tracker p
  simp only [grantedBy, process, hstage]
  exact ⟨h.consistent.claim p, by rw [hspan]; exact h.start, by rw [hspan]; exact h.bounds,
    by rw [hspan]; exact h.partition, h.holds.claim p, hwork _⟩

/-- A turn of the processing side keeps the span; only a claim adds to what was granted. -/
theorem Sharing.process (h : Sharing whole given s) :
    Sharing whole (given ++ s.grantedBy .processing) s.process := by
  cases hstage : s.stage with
  | working work =>
    have hwork : work.NeverSplits := by
      have := h.regular
      rwa [hstage] at this
    cases work with
    | claim p next => exact h.claim hstage
    | split f next => cases hwork
    | finish result =>
      cases result with
      | error reasons =>
        simp only [grantedBy, Session.process, hstage, List.append_nil]
        exact { h with
          consistent := h.consistent.record _
          holds := h.holds
          regular := trivial }
      | ok =>
        simp only [grantedBy, Session.process, hstage, List.append_nil]
        exact { h with regular := trivial }
    | emit output next =>
      simp only [grantedBy, Session.process, hstage, List.append_nil]
      exact { h with regular := hwork }
    | inspect next =>
      simp only [grantedBy, Session.process, hstage, List.append_nil]
      exact { h with regular := hwork s.tracker }
  | failed | judged =>
    simp only [grantedBy, Session.process, hstage, List.append_nil]
    exact { h with regular := trivial }
  | located fault span =>
    obtain ⟨progress, hprogress⟩ := Tracker.exists_progress h.bounds
    simp only [grantedBy, Session.process, hstage, List.append_nil, hprogress]
    exact { h with regular := Option.some_ne_none progress }
  | «over» fault span progress =>
    simp only [grantedBy, Session.process, hstage, List.append_nil]
    exact h

/-- A turn of the splitting side cuts off what was never attempted and hands it back. -/
theorem Sharing.split (h : Sharing whole given s) : Sharing whole given s.split := by
  cases hsplitter : s.splitter with
  | split f next =>
    have hspec := Tracker.split_spec h.consistent.ordered f
    have hconsistent := h.consistent.split f
    simp only [Session.split, hsplitter]
    generalize s.tracker.split f = outcome at hspec hconsistent ⊢
    obtain ⟨result, t⟩ := outcome
    dsimp only at hspec hconsistent ⊢
    cases hspec with
    | invalid | nothing =>
      exact { h with partition := by simpa using h.partition }
    | cut point _ _ hcursor hlow hhigh =>
      have hstart := Int64.le_trans h.consistent.ordered.start_le_cursor hlow
      exact ⟨hconsistent, h.start, hstart, h.partition.keep hstart hhigh,
        h.holds.cut hcursor hlow, h.regular⟩
  | finish result =>
    simp only [Session.split, hsplitter]
    exact h
  | inspect next =>
    simp only [Session.split, hsplitter]
    exact { h with }
  | note entry next =>
    simp only [Session.split, hsplitter]
    exact { h with }

/-- **Every turn keeps what is shared.** -/
theorem turn_sharing (h : Sharing whole given s) (side : Turn) :
    Sharing whole (given ++ s.grantedBy side) (s.turn side) := by
  cases side with
  | processing => exact h.process
  | splitting =>
    rw [grantedBy, List.append_nil]
    exact h.split

/-- **So does every schedule.** -/
theorem run_sharing (h : Sharing whole given s) (schedule : List Turn) :
    Sharing whole (given ++ s.granted schedule) (s.run schedule) := by
  induction schedule generalizing given s with
  | nil => simpa [granted, run] using h
  | cons side schedule ih =>
    rw [granted, ← List.append_assoc]
    exact ih (turn_sharing h side)

end Session

end Splittable
