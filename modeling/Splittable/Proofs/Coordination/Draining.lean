import Mathlib.Data.List.Perm.Basic
import Mathlib.Data.Finset.Lattice.Fold
import Mathlib.Logic.Hydra
import Splittable.Proofs.Coordination.Levels
import Splittable.Proofs.Coordination.Serial

/-!
# What happens without a control

Once the control is gone nobody is held for good.  A thread at a gate still waits for its turn, and
a thread in front of the lock for the thread under it, but one of them can always step.  A step
brings its thread nearer to its end and leaves the others where they are.  A work can go on in
infinitely many ways, one for each state of the tracker that it looks at, so how far a thread is
from its end is no number; it is a place in a well-founded order, and a step lowers one of finitely
many such places.

* `Thread.Before`          : nearer to the end;
* `Signals.Runs`           : the threads step and further threads are started, in some order;
* `Signals.exists_bound`   : how long a run can be;
* `drained_after_history`  : what the threads do from any state without a control.
-/

namespace Splittable

/-! ## Nearer to the end -/

section Next

variable {Output : Type}

/-- What a work can go on with after its first request. -/
inductive Work.Next : Work Output → Work Output → Prop where
  | claim {p : Offset} {next : Bool → Work Output} (granted : Bool) :
      Next (next granted) (.claim p next)
  | split {f : Binary64} {next : Except Fault Split → Work Output} (result : Except Fault Split) :
      Next (next result) (.split f next)
  | emit {output : Output} {next : Work Output} : Next next (.emit output next)
  | inspect {next : Tracker → Work Output} (t : Tracker) : Next (next t) (.inspect next)

/-- Every work comes to its end, whatever the replies are. -/
theorem Work.wellFounded_next : WellFounded (@Work.Next Output) := by
  refine ⟨fun work => ?_⟩
  induction work with
  | finish result => exact ⟨_, nofun⟩
  | claim p next ih =>
    refine ⟨_, fun rest h => ?_⟩
    cases h with
    | claim granted => exact ih granted
  | split f next ih =>
    refine ⟨_, fun rest h => ?_⟩
    cases h with
    | split result => exact ih result
  | emit output next ih =>
    refine ⟨_, fun rest h => ?_⟩
    cases h with
    | emit => exact ih
  | inspect next ih =>
    refine ⟨_, fun rest h => ?_⟩
    cases h with
    | inspect t => exact ih t

end Next

/-- The steps that are left to a thread at the spot until its work goes on.  At the last checkpoint
of a claim the work has gone on already, and the thread has yet to come out. -/
def Spot.left : Spot → Nat
  | .held .claimVisible x => 20 - x.rank
  | spot => 16 - spot.level

theorem Gate.Moves.left_lt {controlled : Bool} {i : Nat} {g g' : Gate} {x : Passage}
    {y : Option Passage} (h : Gate.Moves controlled i g x g' y) (c : Checkpoint) :
    (c.spot y).left < (Spot.held c x).left := by
  cases h <;> cases c <;> decide

/-- The thread is nearer to its end: its work has gone on, or it has fewer steps until it does. -/
def Thread.Before : Thread → Thread → Prop :=
  InvImage (Prod.Lex Work.Next (· < ·)) fun t => (t.work, t.spot.left)

theorem Thread.wellFounded_before : WellFounded Thread.Before :=
  InvImage.wf _ (WellFounded.prod_lex Work.wellFounded_next Nat.lt_wfRel.wf)

namespace Thread

variable {t t' : Thread}

theorem before_of_next (h : t'.work.Next t.work) : t'.Before t :=
  Prod.Lex.left _ _ h

theorem before_of_left (hwork : t'.work = t.work) (h : t'.spot.left < t.spot.left) :
    t'.Before t := by
  show Prod.Lex _ _ (t'.work, t'.spot.left) (t.work, t.spot.left)
  rw [hwork]
  exact Prod.Lex.right _ h

end Thread

namespace Signals

variable {s s' : Signals} {i n : Nat} {t : Thread} {work : Work Offset}
  {works rest : List (Work Offset)}

theorem left_callSpot (hc : work.IsCall) : (s.callSpot work).left < Spot.left .outside := by
  unfold callSpot
  cases work with
  | claim p next => by_cases hp : p = s.block <;> simp only [hp, if_true, if_false] <;> decide
  | split => simp only; decide
  | finish | emit | inspect => cases hc

theorem left_lockedSpot : (s.lockedSpot work).left < Spot.left .locking := by
  unfold lockedSpot
  cases work with
  | claim p next => by_cases hp : p = s.block <;> simp only [hp, if_true, if_false] <;> decide
  | split | finish | emit | inspect => simp only; decide

/-- **A step brings its thread nearer to the end.** -/
theorem Moves.before (h : s.Moves i t s') :
    ∃ t', s'.threads = s.threads.set i t' ∧ t'.Before t := by
  cases h with
  | emit _ hw => exact ⟨_, rfl, Thread.before_of_next (by rw [hw]; exact .emit)⟩
  | look _ hw => exact ⟨_, rfl, Thread.before_of_next (by rw [hw]; exact .inspect _)⟩
  | call hs hc => exact ⟨_, rfl, Thread.before_of_left rfl (by rw [hs]; exact left_callSpot hc)⟩
  | pass hs hg => exact ⟨_, rfl, Thread.before_of_left rfl (by rw [hs]; exact hg.left_lt _)⟩
  | lock hs => exact ⟨_, rfl, Thread.before_of_left rfl (by rw [hs]; exact left_lockedSpot)⟩
  | claim _ hw => exact ⟨_, rfl, Thread.before_of_next (by rw [hw]; exact .claim _)⟩
  | split _ hw => exact ⟨_, rfl, Thread.before_of_next (by rw [hw]; exact .split _)⟩

/-! ## Every run comes to its end -/

/-- Some thread is nearer to its end, and the others are where they were. -/
def Nearer : Signals → Signals → Prop :=
  InvImage (Relation.CutExpand Thread.Before) fun s => (s.threads : Multiset Thread)

theorem wellFounded_nearer : WellFounded Nearer :=
  haveI : Std.Irrefl Thread.Before := ⟨Thread.wellFounded_before.irrefl.irrefl⟩
  InvImage.wf _ Thread.wellFounded_before.cutExpand

theorem nearer_of_stepThread (h : s.stepThread i = some s') : s'.Nearer s := by
  obtain ⟨t, hi, hmove⟩ := stepThread_iff.1 h
  obtain ⟨t', hset, hbefore⟩ := hmove.before
  obtain ⟨hlt, rfl⟩ := List.getElem?_eq_some_iff.1 hi
  -- both lists are the other threads and one more
  have hafter : (s'.threads : Multiset Thread) =
      {t'} + (s.threads.eraseIdx i : Multiset Thread) := by
    rw [hset]
    exact Multiset.coe_eq_coe.2 (List.set_perm_cons_eraseIdx hlt t')
  have hhere : (s.threads : Multiset Thread) =
      {s.threads[i]} + (s.threads.eraseIdx i : Multiset Thread) :=
    Multiset.coe_eq_coe.2 (List.getElem_cons_eraseIdx_perm hlt).symm
  show Relation.CutExpand _ (s'.threads : Multiset Thread) (s.threads : Multiset Thread)
  rw [hafter, hhere]
  exact Relation.cutExpand_single_add hbefore _

/-- A run of `n` events without a control, from `s` with `works` still to be started to `s'` with
`rest` still to be started: the threads step, and further threads are started, in some order. -/
inductive Runs : Signals → List (Work Offset) → Nat → Signals → List (Work Offset) → Prop where
  | refl {s : Signals} {works : List (Work Offset)} : Runs s works 0 s works
  | step {s s₁ s' : Signals} {works rest : List (Work Offset)} {n i : Nat} :
      s.stepThread i = some s₁ → Runs s₁ works n s' rest → Runs s works (n + 1) s' rest
  | start {s s' : Signals} {work : Work Offset} {works rest : List (Work Offset)} {n : Nat} :
      Runs (s.spawn work) works n s' rest → Runs s (work :: works) (n + 1) s' rest

/-- No run from here is longer than some bound. -/
def Bounded (s : Signals) (works : List (Work Offset)) : Prop :=
  ∃ bound, ∀ n s' rest, Runs s works n s' rest → n ≤ bound

theorem bounded_of_next (hstep : ∀ i s', s.stepThread i = some s' → Bounded s' works)
    (hstart : ∀ work ws, works = work :: ws → Bounded (s.spawn work) ws) : Bounded s works := by
  have hsteps : ∀ i, ∃ bound, ∀ s₁, s.stepThread i = some s₁ → ∀ n s' rest,
      Runs s₁ works n s' rest → n ≤ bound := by
    intro i
    cases h : s.stepThread i with
    | none => exact ⟨0, fun _ heq => nomatch heq⟩
    | some s₁ =>
      obtain ⟨bound, hbound⟩ := hstep i s₁ h
      exact ⟨bound, fun _ heq => Option.some.inj heq ▸ hbound⟩
  have hstarts : ∃ bound, ∀ work ws, works = work :: ws → ∀ n s' rest,
      Runs (s.spawn work) ws n s' rest → n ≤ bound := by
    cases works with
    | nil => exact ⟨0, fun _ _ heq => nomatch heq⟩
    | cons work ws =>
      obtain ⟨bound, hbound⟩ := hstart work ws rfl
      refine ⟨bound, fun _ _ heq => ?_⟩
      cases heq
      exact hbound
  choose bounds hbounds using hsteps
  obtain ⟨bound, hbound⟩ := hstarts
  refine ⟨max bound ((Finset.range s.threads.length).sup bounds) + 1, fun n s' rest h => ?_⟩
  cases h with
  | refl => exact Nat.zero_le _
  | @step _ s₁ _ _ _ n i hs hruns =>
    obtain ⟨t, hi, -⟩ := stepThread_iff.1 hs
    have hmem : i ∈ Finset.range s.threads.length :=
      Finset.mem_range.2 (List.getElem?_eq_some_iff.1 hi).1
    have hle := hbounds i s₁ hs n s' rest hruns
    have hsup := Finset.le_sup (f := bounds) hmem
    omega
  | @start _ _ work ws _ n hruns =>
    have hle := hbound work ws rfl n s' rest hruns
    omega

/-- **How long a run can be**, whatever the threads are at and whatever is still to be started. -/
theorem exists_bound (s : Signals) (works : List (Work Offset)) : Bounded s works := by
  induction works generalizing s with
  | nil =>
    induction s using wellFounded_nearer.induction with
    | _ s ih => exact bounded_of_next (fun i s' h => ih s' (nearer_of_stepThread h)) nofun
  | cons work works ihworks =>
    induction s using wellFounded_nearer.induction with
    | _ s ih =>
      refine bounded_of_next (fun i s' h => ih s' (nearer_of_stepThread h)) fun w ws heq => ?_
      cases heq
      exact ihworks _

theorem exists_rest (s : Signals) (works : List (Work Offset)) :
    ∃ n s', Runs s works n s' [] ∧ ∀ i, s'.stepThread i = none := by
  induction works generalizing s with
  | nil =>
    induction s using wellFounded_nearer.induction with
    | _ s ih =>
      by_cases hrest : ∀ i, s.stepThread i = none
      · exact ⟨0, s, .refl, hrest⟩
      · obtain ⟨i, hi⟩ := not_forall.1 hrest
        obtain ⟨s₁, hs⟩ := Option.ne_none_iff_exists'.1 hi
        obtain ⟨n, s', hruns, hstuck⟩ := ih s₁ (nearer_of_stepThread hs)
        exact ⟨n + 1, s', .step hs hruns, hstuck⟩
  | cons work works ih =>
    obtain ⟨n, s', hruns, hstuck⟩ := ih (s.spawn work)
    exact ⟨n + 1, s', .start hruns, hstuck⟩

/-! ## Nobody is stuck -/

theorem Runs.coherent (h : Runs s works n s' rest) (hs : s.Coherent) : s'.Coherent := by
  induction h with
  | refl => exact hs
  | step hstep _ ih => exact ih (hs.step hstep)
  | start _ ih => exact ih hs.spawn

theorem Runs.controlled (h : Runs s works n s' rest) : s'.controlled = s.controlled := by
  induction h with
  | refl => rfl
  | step hstep _ ih =>
    obtain ⟨t, _, hmove⟩ := stepThread_iff.1 hstep
    exact ih.trans hmove.frame.2.1
  | start _ ih => exact ih

/-- Without a control, threads that cannot step are over. -/
theorem Coherent.over_of_stuck (h : s.Coherent) (hcontrol : s.controlled = false)
    (hstuck : ∀ i, s.stepThread i = none) (ht : s.threads[i]? = some t) : t.isOver = true := by
  by_contra hover
  have hcontrolled := (h.stuck hstuck ht (by simpa using hover)).1
  rw [hcontrol] at hcontrolled
  cases hcontrolled

theorem Coherent.free_of_stuck (h : s.Coherent) (hcontrol : s.controlled = false)
    (hstuck : ∀ i, s.stepThread i = none) : s.lock = none := by
  cases hl : s.lock with
  | none => rfl
  | some k =>
    have hcontrolled := (h.stuck_lock hstuck hl).1
    rw [hcontrol] at hcontrolled
    cases hcontrolled

end Signals

/-! ## Any state without a control -/

namespace Scene

theorem coherent_run (tracker : Tracker) (block : Offset) (timeout : Milliseconds)
    (events : List Event) : ((new tracker block timeout).run events).signals.Coherent :=
  (run_induction (fun _ _ h hsteps => h.step hsteps) (serial_new block timeout) events :
    Serial tracker _).coherent

/-- **What the threads do without a control**, from any state that a history has led to and with
any works still to be started.  Their runs are no longer than some bound, and some run brings them
to rest.  As long as a thread is not over, some thread can step.  When none can, all of them are
over and the lock is free. -/
theorem drained_after_history (tracker : Tracker) (block : Offset) (timeout : Milliseconds)
    (events : List Event) (works : List (Work Offset))
    (hcontrol : ((new tracker block timeout).run events).signals.controlled = false) :
    let s := ((new tracker block timeout).run events).signals
    (∃ bound, ∀ n s' rest, s.Runs works n s' rest → n ≤ bound) ∧
    (∃ n s', s.Runs works n s' [] ∧ ∀ i, s'.stepThread i = none) ∧
    ∀ n s' rest, s.Runs works n s' rest →
      ((∃ t ∈ s'.threads, t.isOver = false) → ∃ i, (s'.stepThread i).isSome) ∧
      ((∀ i, s'.stepThread i = none) → (∀ t ∈ s'.threads, t.isOver = true) ∧ s'.lock = none) := by
  intro s
  refine ⟨s.exists_bound works, s.exists_rest works, fun n s' rest hruns => ?_⟩
  have hcoherent := hruns.coherent (coherent_run tracker block timeout events)
  have hgone := hruns.controlled.trans hcontrol
  have hall : (∀ i, s'.stepThread i = none) → ∀ t ∈ s'.threads, t.isOver = true := by
    intro hstuck t ht
    obtain ⟨i, hi⟩ := List.mem_iff_getElem?.1 ht
    exact hcoherent.over_of_stuck hgone hstuck hi
  refine ⟨?_, fun hstuck => ⟨hall hstuck, hcoherent.free_of_stuck hgone hstuck⟩⟩
  rintro ⟨t, ht, hover⟩
  by_contra hnone
  have hstuck : ∀ i, s'.stepThread i = none := by simpa using hnone
  rw [hall hstuck t ht] at hover
  cases hover

/-- A claim is held under the lock, another claim of the same offset in front of it at the first
checkpoint, and a third thread waits for the lock, when the control is dropped: with one more claim
to come, all of them are over in the end. -/
theorem drained_after_history_three :
    let claim (p : Offset) : Work Offset := .claim p fun _ => .finish (.ok ())
    let events : List Event :=
      [.start (claim 3), .step 0, .step 0, .step 0, .call (.pass .claimStarted), .proceed, .proceed,
        .step 0, .step 0, .step 0, .step 0, .step 0, .step 0, .start (claim 3), .step 1, .step 1,
        .start (claim 5), .step 2, .dropControl]
    let s := ((new (.new ⟨0, 10⟩) 3 100).run events).signals
    s.controlled = false ∧ s.lock = some 0 ∧
      s.threads.map Thread.spot =
        [.held .claimLocked .leaving, .held .claimStarted .arriving, .locking] ∧
      ∃ n s', s.Runs [claim 4] n s' [] ∧ (∀ t ∈ s'.threads, t.isOver = true) ∧ s'.lock = none := by
  intro claim events s
  have hcontrol : s.controlled = false := by decide
  obtain ⟨-, ⟨n, s', hruns, hstuck⟩, hall⟩ :=
    drained_after_history (.new ⟨0, 10⟩) 3 100 events [claim 4] hcontrol
  exact ⟨hcontrol, by decide, by decide, n, s', hruns, (hall n s' [] hruns).2 hstuck⟩

end Scene

end Splittable
