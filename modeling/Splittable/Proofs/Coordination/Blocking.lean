import Splittable.Proofs.Coordination.Balance

/-!
# How long the control waits

A control that awaits a thread waits for a limited time and then fails.  A control that releases a
checkpoint has no such limit: its token goes into a slot with room for one, and as long as another
token lies there it waits.  Which of its calls that happens to can be read off from what was seen.

* `Scene.Blocked`           : the control can neither put its token nor fail;
* `Blocked.step`            : what ends that;
* `control_after_history`   : how the calls of the control end, in any history of a scene;
* `release_waits_for_good`  : two releases without a thread.
-/

namespace Splittable.Scene

open Sighting

variable {sc sc' : Scene} {c : Checkpoint} {tracker : Tracker} {block : Offset}
  {timeout : Milliseconds} {e : Event}

/-! ## What stays as it is -/

theorem Steps.timeout_eq (h : Steps sc sc') : sc'.timeout = sc.timeout := by
  cases h <;> rfl

theorem Steps.seen (h : Steps sc sc') : ∃ more, sc'.seen = sc.seen ++ more := by
  cases h with
  | start | call | dropTracker | dropControl => exact ⟨[], (List.append_nil _).symm⟩
  | thread | fail | arrive | release => exact ⟨_, rfl⟩

theorem Steps.closed (h : Steps sc sc') (hclosed : sc.signals.closed = true) :
    sc'.signals.closed = true := by
  cases h with
  | start work hopen =>
    rw [hclosed] at hopen
    cases hopen
  | thread i t s' hi hmove =>
    have hall : ∀ t ∈ sc.signals.threads, t.isOver = true := by
      simpa using (Bool.and_eq_true_iff.1 hclosed).2
    have hover := hmove.not_over
    rw [hall t (List.mem_of_getElem? hi)] at hover
    cases hover
  | dropTracker => exact Bool.and_eq_true_iff.2 ⟨rfl, (Bool.and_eq_true_iff.1 hclosed).2⟩
  | call | fail | arrive | release | dropControl => exact hclosed

theorem Steps.attended (h : Steps sc sc')
    (hattended : sc.calling ≠ none → sc.signals.controlled = true) :
    sc'.calling ≠ none → sc'.signals.controlled = true := by
  cases h with
  | start | dropTracker => exact hattended
  | thread i t s' hi hmove => exact fun hcalling => hmove.frame.2.1.trans (hattended hcalling)
  | call _ hcontrolled => exact fun _ => hcontrolled
  | arrive _ _ _ hcalling => exact fun _ => hattended hcalling
  | fail | release => exact fun hcalling => absurd rfl hcalling
  | dropControl hnone => exact fun hcalling => absurd hnone hcalling

theorem run_timeout (events : List Event) :
    ((new tracker block timeout).run events).timeout = timeout :=
  run_induction (P := fun sc => sc.timeout = timeout)
    (fun _ _ h hsteps => hsteps.timeout_eq.trans h) rfl events

theorem run_attended (events : List Event)
    (hcalling : ((new tracker block timeout).run events).calling ≠ none) :
    ((new tracker block timeout).run events).signals.controlled = true :=
  run_induction (P := fun sc => sc.calling ≠ none → sc.signals.controlled = true)
    (fun _ _ h hsteps => hsteps.attended h) (fun h => absurd rfl h) events hcalling

theorem run_closed (h : sc.signals.closed = true) (more : List Event) :
    (sc.run more).signals.closed = true :=
  run_induction (P := fun sc => sc.signals.closed = true) (fun _ _ h hsteps => hsteps.closed h) h
    more

theorem count_le_run (o : Occasion) (c : Checkpoint) (sc : Scene) (more : List Event) :
    count o c sc.seen ≤ count o c (sc.run more).seen := by
  refine run_induction (P := fun later => count o c sc.seen ≤ count o c later.seen)
    (fun later sc' h hsteps => ?_) (Nat.le_refl _) more
  obtain ⟨seen, hseen⟩ := hsteps.seen
  rw [hseen, count_append]
  omega

/-! ## A release that waits -/

/-- The control is at a release and can neither put its token nor fail. -/
structure Blocked (c : Checkpoint) (sc : Scene) : Prop where
  calling : sc.calling = some (.release c)
  controlled : sc.signals.controlled = true
  there : sc.signals.closed = false
  full : (sc.signals.gates.get c).release = true

theorem timeout_of_release (h : sc.calling = some (.release c)) : sc.step .timeout = none := by
  simp [step, expire, h]

theorem proceed_of_release (h : sc.calling = some (.release c)) :
    sc.step .proceed = none ↔
      sc.signals.closed = false ∧ (sc.signals.gates.get c).release = true := by
  simp only [step, proceed, h, Option.map_eq_none_iff, Signals.release?]
  cases sc.signals.closed <;> cases (sc.signals.gates.get c).release <;> simp

theorem calling_of_release (h : sc.calling = some (.release c))
    (hstep : sc.step .proceed = some sc') : sc'.calling = none := by
  simp only [step, proceed, h] at hstep
  obtain ⟨result, -, rfl⟩ := Option.map_eq_some_iff.1 hstep
  cases result <;> rfl

/-- **What ends a wait.**  Nobody has the tracker any more, or a thread goes on from the
checkpoint. -/
theorem Blocked.step (h : sc.Blocked c) (hstep : sc.step e = some sc') :
    sc'.signals.closed = true ∨ count .passed c sc.seen < count .passed c sc'.seen ∨
      sc'.Blocked c := by
  cases hclosed : sc'.signals.closed with
  | true => exact .inl rfl
  | false =>
    refine .inr ?_
    cases e with
    | start work =>
      simp only [Scene.step, h.there] at hstep
      cases hstep
      exact .inr ⟨h.calling, h.controlled, hclosed, h.full⟩
    | step i =>
      obtain ⟨s', hs, rfl⟩ := Option.map_eq_some_iff.1 hstep
      obtain ⟨t, hi, hmove⟩ := Signals.stepThread_iff.1 hs
      obtain ⟨t', -, hshows, htransit⟩ := hmove.transit hi
      have hrelease := htransit.release h.controlled c
      rw [h.full] at hrelease
      by_cases hgoes : t.goesFrom t' = some c
      · left
        simp [hshows, count_passed_shows, hgoes]
      · right
        rw [if_neg hgoes] at hrelease
        exact ⟨h.calling, hmove.frame.2.1.trans h.controlled, hclosed, by simpa using hrelease⟩
    | call call => simp [Scene.step, h.calling] at hstep
    | proceed => simp [(proceed_of_release h.calling).2 ⟨h.there, h.full⟩] at hstep
    | timeout => simp [timeout_of_release h.calling] at hstep
    | dropTracker =>
      cases hstep
      exact .inr ⟨h.calling, h.controlled, hclosed, h.full⟩
    | dropControl => simp [Scene.step, h.calling] at hstep

/-- Until then the control waits, whatever else happens. -/
theorem Blocked.run (h : sc.Blocked c) (more : List Event)
    (hthere : (sc.run more).signals.closed = false)
    (hpassed : count .passed c (sc.run more).seen = count .passed c sc.seen) :
    (sc.run more).Blocked c := by
  induction more generalizing sc with
  | nil => exact h
  | cons e more ih =>
    have hcons : sc.run (e :: more) = (sc.act e).run more := rfl
    rw [hcons] at hthere hpassed ⊢
    cases hstep : sc.step e with
    | none =>
      have hact : sc.act e = sc := by simp [act, hstep]
      rw [hact] at hthere hpassed ⊢
      exact ih h hthere hpassed
    | some sc' =>
      have hact : sc.act e = sc' := by simp [act, hstep]
      rw [hact] at hthere hpassed ⊢
      have hle := count_le_run .passed c sc' more
      rcases h.step hstep with hclosed | hlt | hblocked
      · rw [run_closed hclosed more] at hthere
        cases hthere
      · omega
      · obtain ⟨seen, hseen⟩ := (steps_of_step hstep).seen
        rw [hseen, count_append] at hle
        refine ih hblocked hthere ?_
        rw [hseen, count_append]
        omega

/-! ## Any history -/

/-- **How the calls of the control end**, in any history of a scene.  Awaiting can fail for want of
time whenever it has not ended yet.  A release has no limit of time.  It ends at once, unless
somebody still has the tracker and one token more was released at the checkpoint than threads went
on from it; then it waits until nobody has the tracker, or a thread goes on from there. -/
theorem control_after_history (tracker : Tracker) (block : Offset) (timeout : Milliseconds)
    (events : List Event) :
    let sc := (new tracker block timeout).run events
    (∀ c, sc.calling = some (.await c) ∨ sc.calling = some (.pass c) →
      sc.step .timeout = some (sc.fail (.timedOut timeout c))) ∧
    ∀ c, sc.calling = some (.release c) →
      sc.step .timeout = none ∧
      (∀ sc', sc.step .proceed = some sc' → sc'.calling = none) ∧
      (sc.step .proceed = none ↔ sc.signals.closed = false ∧
        count .released c sc.seen = count .passed c sc.seen + 1) ∧
      (sc.step .proceed = none → ∀ more,
        (sc.run more).signals.closed = false →
        count .passed c (sc.run more).seen = count .passed c sc.seen →
        (sc.run more).calling = some (.release c) ∧ (sc.run more).step .proceed = none ∧
          (sc.run more).step .timeout = none) := by
  intro sc
  have htimeout : sc.timeout = timeout := run_timeout events
  refine ⟨fun c hcalling => ?_, fun c hcalling => ?_⟩
  · rcases hcalling with hcalling | hcalling <;> simp [step, expire, hcalling, htimeout]
  have hcontrolled : sc.signals.controlled = true :=
    run_attended events (by rw [hcalling]; simp)
  refine ⟨timeout_of_release hcalling, fun _ => calling_of_release hcalling, ?_, ?_⟩
  · have hbalanced : sc.Balanced := run_balanced tracker block timeout events hcontrolled
    rw [proceed_of_release hcalling, ← hbalanced.releases c]
    refine and_congr_right fun _ => ?_
    cases (sc.signals.gates.get c).release <;> simp
  · intro hwaits more hthere hpassed
    obtain ⟨hopen, hfull⟩ := (proceed_of_release hcalling).1 hwaits
    have hblocked := Blocked.run ⟨hcalling, hcontrolled, hopen, hfull⟩ more hthere hpassed
    exact ⟨hblocked.calling,
      (proceed_of_release hblocked.calling).2 ⟨hblocked.there, hblocked.full⟩,
      timeout_of_release hblocked.calling⟩

/-- A release before any thread has come takes the room, and a second one waits.  Nothing happens
then, the time that runs out included, unless a thread is started or the tracker is given up. -/
theorem release_waits_for_good :
    let sc := (new (.new ⟨0, 4⟩) 0 100).run
      [.call (.release .claimStarted), .proceed, .call (.release .claimStarted)]
    sc.calling = some (.release .claimStarted) ∧ sc.step .proceed = none ∧
      sc.step .timeout = none ∧
      ∀ more, (∀ e ∈ more, e ≠ .dropTracker ∧ ∀ work, e ≠ .start work) → sc.run more = sc := by
  refine ⟨rfl, rfl, rfl, fun more hmore => ?_⟩
  induction more with
  | nil => rfl
  | cons e more ih =>
    refine Eq.trans ?_ (ih fun e he => hmore e (List.mem_cons_of_mem _ he))
    obtain ⟨htracker, hstart⟩ := hmore e List.mem_cons_self
    cases e with
    | start work => exact absurd rfl (hstart work)
    | dropTracker => exact absurd rfl htracker
    | step | call | proceed | timeout | dropControl => rfl

end Splittable.Scene
