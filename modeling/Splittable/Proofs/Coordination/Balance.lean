import Splittable.Proofs.Coordination.Scene

/-!
# Where the tokens are

As long as the control is there, every token at a checkpoint can be accounted for.  A thread that
came to the checkpoint still has its token of arrival, or the token lies in the slot, or the control
awaited it.  A token of release lies in the slot, or a thread went on with it.  The slots hold one
token each, and still nothing is lost or used twice, however many threads queue at a checkpoint and
whether or not they were released before they came.

* `Scene.Balanced`      : both accounts, for every checkpoint;
* `Transit.arrival`,
  `Transit.release`     : what a step of a thread does to them;
* `Balanced.step`       : every event keeps them.
-/

namespace Splittable

/-! ## Counting -/

/-- What happens at a checkpoint. -/
inductive Occasion where
  | reached
  | passed
  | awaited
  | released
deriving DecidableEq

namespace Sighting

/-- What was seen to happen at a checkpoint. -/
def occasion? : Sighting → Option (Occasion × Checkpoint)
  | .reached _ _ c => some (.reached, c)
  | .passed _ c => some (.passed, c)
  | .awaited c => some (.awaited, c)
  | .released c => some (.released, c)
  | _ => none

/-- How often something was seen to happen at a checkpoint. -/
def count (o : Occasion) (c : Checkpoint) (seen : List Sighting) : Nat :=
  (seen.filterMap occasion?).count (o, c)

variable {o : Occasion} {c : Checkpoint}

@[simp] theorem count_append (seen more : List Sighting) :
    count o c (seen ++ more) = count o c seen + count o c more := by
  simp [count]

@[simp] theorem count_singleton (x : Sighting) :
    count o c [x] = if x.occasion? = some (o, c) then 1 else 0 := by
  unfold count
  cases h : x.occasion? with
  | none => simp [h]
  | some y => simp [h, List.count_singleton]

@[simp] theorem count_toList_map {α : Type} (f : α → Sighting) (a : Option α) :
    count o c (a.toList.map f) = if a.bind (occasion? ∘ f) = some (o, c) then 1 else 0 := by
  cases a with
  | none => rfl
  | some a => exact count_singleton (f a)

end Sighting

open Sighting

/-- The thread is at the checkpoint and has not put down its token of arrival. -/
def Spot.bringsToken (c : Checkpoint) : Spot → Bool
  | .held d .toArrive | .held d .arriving => d = c
  | _ => false

/-- How many threads at the checkpoint have not put down their token of arrival. -/
def arrivingCount (c : Checkpoint) (threads : List Thread) : Nat :=
  threads.countP (·.spot.bringsToken c)

namespace Scene

/-- **Every token is accounted for.** -/
structure Balanced (sc : Scene) : Prop where
  arrivals : ∀ c, count .awaited c sc.seen + (sc.signals.gates.get c).arrival.toNat +
    arrivingCount c sc.signals.threads = count .reached c sc.seen
  releases : ∀ c, count .passed c sc.seen + (sc.signals.gates.get c).release.toNat =
    count .released c sc.seen

theorem balanced_new (tracker : Tracker) (block : Offset) (timeout : Milliseconds) :
    (new tracker block timeout).Balanced := by
  constructor <;> intro c <;> cases c <;> rfl

end Scene

/-! ## Steps of threads -/

section Shows

variable {i : Nat} {t t' : Thread} {c : Checkpoint}

theorem count_reached_shows :
    count .reached c (t.shows i t') = if t.comesTo t' = some c then 1 else 0 := by
  simp [Thread.shows, Function.comp_def, Option.bind_eq_some_iff, occasion?]

theorem count_passed_shows :
    count .passed c (t.shows i t') = if t.goesFrom t' = some c then 1 else 0 := by
  simp [Thread.shows, Function.comp_def, Option.bind_eq_some_iff, occasion?]

theorem count_control_shows {o : Occasion} (ho : o = .awaited ∨ o = .released) :
    count o c (t.shows i t') = 0 := by
  rcases ho with rfl | rfl <;>
    simp [Thread.shows, Function.comp_def, Option.bind_eq_some_iff, occasion?]

end Shows

theorem Spot.bringsToken_of_free {spot : Spot} (h : spot.checkpoint? = none) (c : Checkpoint) :
    spot.bringsToken c = false := by
  cases spot with
  | held => cases h
  | _ => rfl

theorem Spot.bringsToken_of_ne {spot : Spot} {c d : Checkpoint} (h : spot.checkpoint? = some d)
    (hd : d ≠ c) : spot.bringsToken c = false := by
  cases spot with
  | held e x =>
    cases h
    cases x <;> simp [bringsToken, hd]
  | _ => cases h

theorem Checkpoint.checkpoint?_spot (c : Checkpoint) (y : Option Passage) :
    (c.spot y).checkpoint? = none ∨ (c.spot y).checkpoint? = some c := by
  cases y with
  | some y => exact Or.inr rfl
  | none => cases c <;> exact Or.inl rfl

/-- Through a gate a thread stays at its checkpoint, or leaves it and is at none. -/
theorem Thread.comesTo_of_gate {t t' : Thread} {c : Checkpoint} {x : Passage} {y : Option Passage}
    (hspot : t.spot = .held c x) (hnext : t'.spot = c.spot y) : t.comesTo t' = none := by
  have hhere : t.spot.checkpoint? = some c := by rw [hspot]; rfl
  unfold comesTo
  rw [hnext, hhere]
  rcases c.checkpoint?_spot y with hy | hy <;> simp [hy]

/-- When a thread takes a step, only its own token moves. -/
theorem arrivingCount_set {threads : List Thread} {i : Nat} {t : Thread} (hi : threads[i]? = some t)
    (t' : Thread) (c : Checkpoint) :
    arrivingCount c (threads.set i t') + (t.spot.bringsToken c).toNat =
      arrivingCount c threads + (t'.spot.bringsToken c).toNat := by
  obtain ⟨hlt, rfl⟩ := List.getElem?_eq_some_iff.1 hi
  have hone : threads[i].spot.bringsToken c = true → 0 < arrivingCount c threads := fun h =>
    List.countP_pos_iff.2 ⟨_, List.getElem_mem hlt, h⟩
  unfold arrivingCount at hone ⊢
  rw [List.countP_set hlt]
  cases h : threads[i].spot.bringsToken c with
  | false => cases t'.spot.bringsToken c <;> simp
  | true =>
    have hpos := hone h
    cases t'.spot.bringsToken c <;> simp <;> omega

namespace Signals

variable {s s' : Signals} {i : Nat} {t t' : Thread}

/-- **The arrivals in a step of a thread.**  The token moves with the thread into the slot. -/
theorem Transit.arrival (h : Transit s i t s' t') (hcontrolled : s.controlled = true)
    (c : Checkpoint) : (s'.gates.get c).arrival.toNat + (t'.spot.bringsToken c).toNat =
      (s.gates.get c).arrival.toNat + (t.spot.bringsToken c).toNat +
        if t.comesTo t' = some c then 1 else 0 := by
  cases h with
  | free hgates hfree hentrance =>
    rw [hgates, Spot.bringsToken_of_free hfree]
    unfold Thread.comesTo
    rw [hfree]
    cases hspot : t'.spot with
    | held d x =>
      obtain ⟨rfl, -⟩ := hentrance d x hspot
      by_cases hd : d = c <;> simp [Spot.bringsToken, Spot.checkpoint?, hd]
    | outside | locking | inside => simp [Spot.bringsToken, Spot.checkpoint?]
  | gate d x g y hspot hg hgates hnext =>
    rw [Thread.comesTo_of_gate hspot hnext, hgates]
    by_cases hd : d = c
    · subst hd
      rw [hspot, hnext, Gates.get_set]
      cases hg with
      | skip hnot | escape hnot =>
        rw [hcontrolled] at hnot
        cases hnot
      | queue | turn => simp [Checkpoint.spot, Spot.bringsToken]
      | arrive _ hempty => simp [Checkpoint.spot, Spot.bringsToken, hempty]
      | leave => cases d <;> simp [Checkpoint.spot, Checkpoint.beyond, Spot.bringsToken]
    · have hbefore : t.spot.bringsToken c = false := by
        rw [hspot]
        exact Spot.bringsToken_of_ne rfl hd
      have hafter : t'.spot.bringsToken c = false := by
        rcases d.checkpoint?_spot y with hy | hy
        · exact Spot.bringsToken_of_free (by rw [hnext, hy]) c
        · exact Spot.bringsToken_of_ne (by rw [hnext, hy]) hd
      rw [Gates.get_set_of_ne _ _ hd, hbefore, hafter]
      simp

/-- **The releases in a step of a thread.**  It goes on with the token that lies in the slot. -/
theorem Transit.release (h : Transit s i t s' t') (hcontrolled : s.controlled = true)
    (c : Checkpoint) : (if t.goesFrom t' = some c then 1 else 0) + (s'.gates.get c).release.toNat =
      (s.gates.get c).release.toNat := by
  cases h with
  | free hgates hfree =>
    rw [hgates]
    simp [Thread.goesFrom, hfree]
  | gate d x g y hspot hg hgates hnext =>
    rw [hgates]
    by_cases hd : d = c
    · subst hd
      rw [Gates.get_set]
      unfold Thread.goesFrom
      rw [hspot, hnext]
      cases hg with
      | skip hnot | escape hnot =>
        rw [hcontrolled] at hnot
        cases hnot
      | queue | turn | arrive => simp [Checkpoint.spot, Spot.checkpoint?]
      | leave hrelease =>
        cases d <;> simp [Checkpoint.spot, Checkpoint.beyond, Spot.checkpoint?, hrelease]
    · have hother : t.goesFrom t' ≠ some c := by
        unfold Thread.goesFrom
        rw [hspot]
        split <;> simp [Spot.checkpoint?, hd]
      rw [if_neg hother, Gates.get_set_of_ne _ _ hd, Nat.zero_add]

end Signals

/-! ## Every event keeps the accounts -/

theorem Gates.get_set_frame {α : Type} (f : Gate → α) {gates : Gates} {d : Checkpoint} {g : Gate}
    (h : f g = f (gates.get d)) (c : Checkpoint) : f ((gates.set d g).get c) = f (gates.get c) := by
  by_cases hd : d = c
  · subst hd
    rw [Gates.get_set, h]
  · rw [Gates.get_set_of_ne _ _ hd]

namespace Scene

variable {sc sc' : Scene}

theorem Steps.controlled (h : Steps sc sc') (hcontrolled : sc'.signals.controlled = true) :
    sc.signals.controlled = true := by
  cases h with
  | thread i t s' hi hmove => exact hmove.frame.2.1 ▸ hcontrolled
  | dropControl => cases hcontrolled
  | start | call | fail | arrive | release | dropTracker => exact hcontrolled

theorem Balanced.thread (h : sc.Balanced) {i : Nat} {t : Thread} {s' : Signals}
    (hi : sc.signals.threads[i]? = some t) (hmove : sc.signals.Moves i t s')
    (hcontrolled : sc.signals.controlled = true) :
    Balanced { sc with signals := s', seen := sc.seen ++ sc.signals.shows s' i } := by
  obtain ⟨t', hset, hshows, htransit⟩ := hmove.transit hi
  constructor <;> intro c
  · have harrivals := h.arrivals c
    have hcount := arrivingCount_set hi t' c
    have harrival := htransit.arrival hcontrolled c
    simp only [hset, hshows, count_append, count_reached_shows,
      count_control_shows (Or.inl rfl)]
    omega
  · have hreleases := h.releases c
    have hrelease := htransit.release hcontrolled c
    simp only [hshows, count_append, count_passed_shows, count_control_shows (Or.inr rfl)]
    omega

/-- **Every event keeps the accounts**, as long as the control is there. -/
theorem Balanced.step (h : sc.Balanced) (hsteps : Steps sc sc')
    (hcontrolled : sc'.signals.controlled = true) : sc'.Balanced := by
  have hbefore := hsteps.controlled hcontrolled
  cases hsteps with
  | start work =>
    refine ⟨fun c => ?_, h.releases⟩
    have hnew : arrivingCount c (sc.signals.spawn work).threads =
        arrivingCount c sc.signals.threads := by
      simp [arrivingCount, Signals.spawn, Thread.start, Spot.bringsToken]
    rw [hnew]
    exact h.arrivals c
  | thread i t s' hi hmove => exact h.thread hi hmove hbefore
  | call | dropTracker => exact ⟨h.arrivals, h.releases⟩
  | fail error =>
    constructor <;> intro c
    · simpa [Scene.fail, occasion?] using h.arrivals c
    · simpa [Scene.fail, occasion?] using h.releases c
  | arrive d next htoken =>
    constructor <;> intro c
    · have harrivals := h.arrivals c
      by_cases hd : d = c
      · subst hd
        simpa [occasion?, htoken] using harrivals
      · simpa [occasion?, hd] using harrivals
    · simpa [occasion?, Gates.get_set_frame Gate.release] using h.releases c
  | release d hfree =>
    constructor <;> intro c
    · simpa [occasion?, Gates.get_set_frame Gate.arrival] using h.arrivals c
    · have hreleases := h.releases c
      by_cases hd : d = c
      · subst hd
        simpa [occasion?, hfree] using hreleases
      · simpa [occasion?, hd] using hreleases
  | dropControl => cases hcontrolled

theorem run_balanced (tracker : Tracker) (block : Offset) (timeout : Milliseconds)
    (events : List Event)
    (hcontrolled : ((new tracker block timeout).run events).signals.controlled = true) :
    ((new tracker block timeout).run events).Balanced :=
  run_induction (P := fun sc => sc.signals.controlled = true → sc.Balanced)
    (fun _ _ h hsteps hcontrolled => (h (hsteps.controlled hcontrolled)).step hsteps hcontrolled)
    (fun _ => balanced_new tracker block timeout) events hcontrolled

end Scene

end Splittable
