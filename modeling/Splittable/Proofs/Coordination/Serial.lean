import Mathlib.Data.List.Basic
import Splittable.Proofs.Coordination.Balance

/-!
# Calls one at a time

Threads call the tracker behind its checkpoints at the same time, are held in front of its lock and
under it, and are let go in whatever order the control likes.  What they get for answers is all the
same what a plain tracker gives that serves the calls one at a time, in the order in which the
threads took the lock.

* `Tracker.serveAll`            : a plain tracker that serves one call after the other;
* `Scene.Serial`                : the answers so far are those of the plain tracker;
* `Serial.step`                 : every event keeps it that way;
* `Work.GoesOn`                 : how a work goes on with the answers to its calls;
* `Scene.Driven`, `Driven.step` : so does every thread, from the work that it was started on;
* `Scene.passages_and_answers`  : tokens, held calls and answers in any history of a scene.
-/

namespace Splittable

/-! ## A plain tracker -/

namespace Tracker

/-- One call on a tracker that nobody else uses. -/
def serve (t : Tracker) : Call → Answer × Tracker
  | .claim p => (.claimed (t.claim p).1, (t.claim p).2)
  | .split f => (.split (t.split f).1, (t.split f).2)

/-- The calls of several threads, one after the other; each answer with the thread that gets it. -/
def serveAll : Tracker → List (Nat × Call) → List (Nat × Answer) × Tracker
  | t, [] => ([], t)
  | t, (i, call) :: calls =>
    let (answer, t) := t.serve call
    let (answers, t) := t.serveAll calls
    ((i, answer) :: answers, t)

theorem serveAll_append (t : Tracker) (calls : List (Nat × Call)) (i : Nat) (call : Call) :
    t.serveAll (calls ++ [(i, call)]) =
      ((t.serveAll calls).1 ++ [(i, ((t.serveAll calls).2.serve call).1)],
        ((t.serveAll calls).2.serve call).2) := by
  induction calls generalizing t with
  | nil => rfl
  | cons first calls ih => simp [serveAll, ih]

end Tracker

/-! ## Calls and answers that were seen -/

namespace Sighting

/-- The calls for which the lock was taken, in that order. -/
def calls (seen : List Sighting) : List (Nat × Call) :=
  seen.filterMap fun
    | .locked i call => some (i, call)
    | _ => none

/-- The answers that were given, in that order. -/
def answers (seen : List Sighting) : List (Nat × Answer) :=
  seen.filterMap fun
    | .answered i answer => some (i, answer)
    | _ => none

/-- The answers that were given to the thread `i`. -/
def answersTo (i : Nat) (seen : List Sighting) : List Answer :=
  (answers seen).filterMap fun (j, answer) => if j = i then some answer else none

variable {seen more : List Sighting} {i : Nat}

@[simp] theorem calls_append : calls (seen ++ more) = calls seen ++ calls more :=
  List.filterMap_append

@[simp] theorem answers_append : answers (seen ++ more) = answers seen ++ answers more :=
  List.filterMap_append

@[simp] theorem answersTo_append :
    answersTo i (seen ++ more) = answersTo i seen ++ answersTo i more := by
  simp [answersTo]

end Sighting

open Sighting

section Shows

variable {i : Nat} {t t' : Thread}

theorem calls_shows : calls (t.shows i t') = t.locks.toList.map (i, ·) := by
  cases h : t.locks <;> simp [Thread.shows, h, calls, List.filterMap_map]

theorem answers_shows : answers (t.shows i t') = (t.hears t').toList.map (i, ·) := by
  cases h : t.hears t' <;> simp [Thread.shows, h, answers, List.filterMap_map]

theorem answersTo_shows (j : Nat) :
    answersTo j (t.shows i t') = if i = j then (t.hears t').toList else [] := by
  unfold answersTo
  rw [answers_shows]
  by_cases hj : i = j <;> simp [List.filterMap_map, hj]

theorem mem_reached_shows {j : Nat} {call : Option Call} {c : Checkpoint}
    (h : .reached j call c ∈ t.shows i t') : t.comesTo t' = some c ∧ call = t.work.call? := by
  simp only [Thread.shows, List.mem_append, List.mem_map, Option.mem_toList, reduceCtorEq,
    and_false, exists_false, false_or, Sighting.reached.injEq] at h
  obtain ⟨d, hd, -, rfl, rfl⟩ := h
  exact ⟨hd, rfl⟩

end Shows

/-! ## Works and the answers to their calls -/

/-- A work goes on to another one with some answers to its calls, in their order, and some
outputs; a look at the tracker may find anything. -/
inductive Work.GoesOn {Output : Type} :
    Work Output → List Answer → List Output → Work Output → Prop where
  | stay (work : Work Output) : GoesOn work [] [] work
  | claim {p : Offset} {next : Bool → Work Output} {granted : Bool} {answers : List Answer}
      {outputs : List Output} {last : Work Output} : GoesOn (next granted) answers outputs last →
      GoesOn (.claim p next) (.claimed granted :: answers) outputs last
  | split {f : Binary64} {next : Except Fault Split → Work Output} {result : Except Fault Split}
      {answers : List Answer} {outputs : List Output} {last : Work Output} :
      GoesOn (next result) answers outputs last →
      GoesOn (.split f next) (.split result :: answers) outputs last
  | emit {output : Output} {next : Work Output} {answers : List Answer} {outputs : List Output}
      {last : Work Output} : GoesOn next answers outputs last →
      GoesOn (.emit output next) answers (output :: outputs) last
  | inspect {next : Tracker → Work Output} {t : Tracker} {answers : List Answer}
      {outputs : List Output} {last : Work Output} : GoesOn (next t) answers outputs last →
      GoesOn (.inspect next) answers outputs last

theorem Work.GoesOn.trans {Output : Type} {first work last : Work Output}
    {answers more : List Answer} {outputs others : List Output}
    (h : first.GoesOn answers outputs work) (hwork : work.GoesOn more others last) :
    first.GoesOn (answers ++ more) (outputs ++ others) last := by
  induction h with
  | stay => exact hwork
  | claim _ ih => exact .claim (ih hwork)
  | split _ ih => exact .split (ih hwork)
  | emit _ ih => exact .emit (ih hwork)
  | inspect _ ih => exact .inspect (ih hwork)

/-! ## Steps of threads -/

theorem Work.exists_call {Output : Type} {work : Work Output} (h : work.IsCall) :
    ∃ call, work.call? = some call := by
  cases work with
  | claim p => exact ⟨.claim p, rfl⟩
  | split f => exact ⟨.split f, rfl⟩
  | finish | emit | inspect => cases h

theorem Spot.isCall_of_underLock {spot : Spot} {block : Offset} {work : Work Offset}
    (h : spot.UnderLock) (hsuits : spot.Suits block work) : work.IsCall := by
  cases spot with
  | held c x =>
    cases c with
    | claimLocked =>
      obtain ⟨next, rfl⟩ := hsuits
      trivial
    | splitLocked =>
      obtain ⟨f, next, rfl⟩ := hsuits
      trivial
    | claimStarted | claimVisible | splitStarted => cases h
  | inside => exact hsuits
  | outside | locking => cases h

namespace Signals

variable {s s' : Signals} {i : Nat} {t t' : Thread}

/-- Only a call that is held comes to a checkpoint. -/
theorem Transit.comesTo {c : Checkpoint} (h : Transit s i t s' t') (hc : t.comesTo t' = some c) :
    ∃ call, t.work.call? = some call ∧ call.HeldAt s.block c := by
  cases h with
  | free _ hfree hentrance =>
    unfold Thread.comesTo at hc
    rw [hfree] at hc
    cases hspot : t'.spot with
    | held d x =>
      rw [hspot] at hc
      cases hc
      exact (hentrance _ x hspot).2
    | outside | locking | inside => simp [hspot, Spot.checkpoint?] at hc
  | gate d x g y hspot _ _ hnext =>
    rw [Thread.comesTo_of_gate hspot hnext] at hc
    cases hc

/-- What a step of a thread does to the lock, the tracker and its answers: it leaves the lock where
it is, takes it for a call, or has its answer and gives it back. -/
inductive Turn (s : Signals) (i : Nat) (t : Thread) (s' : Signals) (t' : Thread) : Prop where
  | aside : s'.lock = s.lock → s'.tracker = s.tracker → t'.answers = t.answers →
      (s.lock = some i → t'.work = t.work) → t.locks = none → t.hears t' = none →
      Turn s i t s' t'
  | take (call : Call) : s.lock = none → s'.lock = some i → s'.tracker = s.tracker →
      t'.answers = t.answers → t'.work.call? = some call → t.locks = some call →
      t.hears t' = none → Turn s i t s' t'
  | effect (call : Call) : s.lock = some i → s'.lock = none → t.work.call? = some call →
      s'.tracker = (s.tracker.serve call).2 →
      t'.answers = t.answers ++ [(s.tracker.serve call).1] → t.locks = none →
      t.hears t' = some (s.tracker.serve call).1 → Turn s i t s' t'

theorem Turn.answers (h : Turn s i t s' t') : t'.answers = t.answers ++ (t.hears t').toList := by
  cases h with
  | aside _ _ hanswers _ _ hhears => simp [hanswers, hhears]
  | take _ _ _ _ hanswers _ _ hhears => simp [hanswers, hhears]
  | effect _ _ _ _ _ hanswers _ hhears => simp [hanswers, hhears]

theorem Coherent.lock_ne (h : s.Coherent) (hi : s.threads[i]? = some t) (hs : t.spot = .outside) :
    s.lock ≠ some i := by
  intro hl
  have hunder := (h.lock i).1 hl
  rw [spotOf_eq hi, hs] at hunder
  exact hunder

theorem Coherent.lock_eq (h : s.Coherent) (hi : s.threads[i]? = some t) (hs : t.spot = .inside) :
    s.lock = some i := by
  refine (h.lock i).2 ?_
  rw [spotOf_eq hi, hs]
  trivial

theorem Moves.turn (h : s.Coherent) (hi : s.threads[i]? = some t) (hmove : s.Moves i t s') :
    ∃ t', s'.threads = s.threads.set i t' ∧ s.shows s' i = t.shows i t' ∧ Turn s i t s' t' := by
  cases hmove with
  | emit hs | look hs =>
    exact ⟨_, rfl, shows_put hi rfl, .aside rfl rfl rfl (fun hl => absurd hl (h.lock_ne hi hs))
      (by simp [Thread.locks, hs]) (by simp [Thread.hears, hs])⟩
  | call hs | pass hs =>
    exact ⟨_, rfl, shows_put hi rfl, .aside rfl rfl rfl (fun _ => rfl)
      (by simp [Thread.locks, hs]) (by simp [Thread.hears, hs])⟩
  | lock hs hl =>
    have hsuits := h.suits i t hi
    rw [hs] at hsuits
    obtain ⟨call, hcall⟩ := Work.exists_call hsuits
    exact ⟨_, rfl, shows_put hi rfl, .take call hl rfl rfl rfl hcall
      (by simp [Thread.locks, hs, hcall]) (by simp [Thread.hears, hs])⟩
  | claim hs hw | split hs hw =>
    exact ⟨_, rfl, shows_put hi rfl, .effect _ (h.lock_eq hi hs) rfl (by rw [hw]; rfl) rfl rfl
      (by simp [Thread.locks, hs]) (by simp [Thread.hears, hs, answered, Tracker.serve])⟩

/-- **A thread goes on with its work** by the answer that it gets, if the step gives it one. -/
theorem Moves.goesOn (hmove : s.Moves i t s') :
    ∃ t' answers outputs, s'.threads = s.threads.set i t' ∧
      t.work.GoesOn answers outputs t'.work ∧ t'.answers = t.answers ++ answers ∧
      t'.emitted = t.emitted ++ outputs := by
  cases hmove with
  | emit _ hw =>
    rw [hw]
    exact ⟨_, [], _, rfl, .emit (.stay _), (List.append_nil _).symm, rfl⟩
  | look _ hw =>
    rw [hw]
    exact ⟨_, [], [], rfl, .inspect (.stay _), (List.append_nil _).symm, (List.append_nil _).symm⟩
  | call | pass | lock =>
    exact ⟨_, [], [], rfl, .stay _, (List.append_nil _).symm, (List.append_nil _).symm⟩
  | claim _ hw =>
    rw [hw]
    exact ⟨_, _, [], rfl, .claim (.stay _), rfl, (List.append_nil _).symm⟩
  | split _ hw =>
    rw [hw]
    exact ⟨_, _, [], rfl, .split (.stay _), rfl, (List.append_nil _).symm⟩

/-- The thread that holds the lock, with its call. -/
def holding (s : Signals) : List (Nat × Call) :=
  match s.lock with
  | none => []
  | some i => (s.threads[i]?.bind (·.work.call?)).toList.map (i, ·)

/-- The answers that the thread `i` has. -/
def answersOf (s : Signals) (i : Nat) : List Answer :=
  match s.threads[i]? with
  | some t => t.answers
  | none => []

theorem answersOf_eq (hi : s.threads[i]? = some t) : s.answersOf i = t.answers := by
  simp [answersOf, hi]

theorem answersOf_set (hi : s.threads[i]? = some t) (hset : s'.threads = s.threads.set i t')
    (j : Nat) : s'.answersOf j = if i = j then t'.answers else s.answersOf j := by
  obtain ⟨hlt, -⟩ := List.getElem?_eq_some_iff.1 hi
  unfold answersOf
  rw [hset]
  by_cases hj : i = j
  · subst hj
    simp [hlt]
  · rw [List.getElem?_set_ne hj, if_neg hj]

theorem Coherent.exists_of_lock (h : s.Coherent) (hl : s.lock = some i) :
    ∃ t, s.threads[i]? = some t ∧ ∃ call, t.work.call? = some call := by
  have hunder := (h.lock i).1 hl
  have hthere : s.spotOf i ≠ .outside := by
    intro hout
    rw [hout] at hunder
    exact hunder
  obtain ⟨t, ht, hspot⟩ := exists_of_spotOf hthere
  rw [← hspot] at hunder
  exact ⟨t, ht, Work.exists_call (Spot.isCall_of_underLock hunder (h.suits i t ht))⟩

theorem Coherent.map_holding (h : s.Coherent) : s.holding.map Prod.fst = s.lock.toList := by
  unfold holding
  cases hl : s.lock with
  | none => rfl
  | some i =>
    obtain ⟨t, ht, call, hcall⟩ := h.exists_of_lock hl
    simp [ht, hcall]

theorem holding_aside (hi : s.threads[i]? = some t) (hset : s'.threads = s.threads.set i t')
    (hlock : s'.lock = s.lock) (hwork : s.lock = some i → t'.work = t.work) :
    s'.holding = s.holding := by
  obtain ⟨hlt, hget⟩ := List.getElem?_eq_some_iff.1 hi
  unfold holding
  rw [hlock, hset]
  cases hl : s.lock with
  | none => rfl
  | some j =>
    by_cases hj : i = j
    · subst hj
      simp [hlt, hget, hwork hl]
    · simp only [List.getElem?_set_ne hj]

/-! ## Further threads -/

variable {work : Work Offset}

theorem threads_spawn (j : Nat) : (s.spawn work).threads[j]? =
    if j = s.threads.length then some (.start work) else s.threads[j]? := by
  show (s.threads ++ [Thread.start work])[j]? = _
  rcases Nat.lt_trichotomy j s.threads.length with hj | rfl | hj
  · rw [List.getElem?_append_left hj, if_neg (by omega)]
  · simp
  · rw [if_neg (by omega), List.getElem?_eq_none (by simp; omega),
      List.getElem?_eq_none (by omega)]

theorem spotOf_spawn : (s.spawn work).spotOf = s.spotOf := by
  funext j
  unfold spotOf
  rw [threads_spawn]
  by_cases hj : j = s.threads.length
  · simp [hj, Thread.start]
  · rw [if_neg hj]

theorem answersOf_spawn (j : Nat) : (s.spawn work).answersOf j = s.answersOf j := by
  unfold answersOf
  rw [threads_spawn]
  by_cases hj : j = s.threads.length
  · simp [hj, Thread.start]
  · rw [if_neg hj]

theorem Coherent.spawn (h : s.Coherent) : (s.spawn work).Coherent := by
  refine ⟨?_, ?_, ?_, ?_⟩
  · rw [spotOf_spawn]
    exact h.lock
  · rw [spotOf_spawn]
    exact h.arriving
  · rw [spotOf_spawn]
    exact h.leaving
  · intro j t ht
    rw [threads_spawn] at ht
    split at ht
    · cases ht
      trivial
    · exact h.suits j t ht

theorem Coherent.holding_spawn (h : s.Coherent) : (s.spawn work).holding = s.holding := by
  unfold holding
  show (match s.lock with | none => _ | some i => _) = _
  cases hl : s.lock with
  | none => rfl
  | some i =>
    obtain ⟨t, ht, -⟩ := h.exists_of_lock hl
    have hne : i ≠ s.threads.length := by
      rintro rfl
      simp at ht
    simp only [threads_spawn, if_neg hne]

end Signals

/-! ## Every event keeps it -/

namespace Scene

variable {tracker : Tracker} {sc sc' : Scene}

/-- **The calls are answered one at a time**, in the order in which their threads took the lock. -/
structure Serial (tracker : Tracker) (sc : Scene) : Prop where
  coherent : sc.signals.Coherent
  order : ∃ served, calls sc.seen = served ++ sc.signals.holding ∧
    tracker.serveAll served = (answers sc.seen, sc.signals.tracker)
  heard : ∀ i, sc.signals.answersOf i = answersTo i sc.seen

theorem serial_new (block : Offset) (timeout : Milliseconds) :
    Serial tracker (new tracker block timeout) :=
  ⟨Signals.coherent_of_outside rfl rfl nofun, ⟨[], rfl, rfl⟩, fun _ => rfl⟩

theorem Serial.control (h : Serial tracker sc) {s : Signals} (hs : s.Coherent)
    (hlock : s.lock = sc.signals.lock) (htracker : s.tracker = sc.signals.tracker)
    (hthreads : s.threads = sc.signals.threads) (calling : Option ControlCall)
    (more : List Sighting) (hcalls : calls more = []) (hanswers : answers more = []) :
    Serial tracker { sc with signals := s, calling := calling, seen := sc.seen ++ more } := by
  obtain ⟨served, horder, hserved⟩ := h.order
  refine ⟨hs, ⟨served, ?_, ?_⟩, ?_⟩
  · have hholding : s.holding = sc.signals.holding := by
      unfold Signals.holding
      rw [hlock, hthreads]
    simp [hcalls, horder, hholding]
  · simp [hanswers, hserved, htracker]
  · intro i
    have hheard := h.heard i
    unfold Signals.answersOf at hheard ⊢
    simp [answersTo, hanswers, hthreads, hheard]

theorem Serial.start (h : Serial tracker sc) (work : Work Offset) :
    Serial tracker { sc with signals := sc.signals.spawn work } := by
  obtain ⟨served, horder, hserved⟩ := h.order
  refine ⟨h.coherent.spawn, ⟨served, ?_, hserved⟩, ?_⟩
  · rw [h.coherent.holding_spawn]
    exact horder
  · intro i
    rw [Signals.answersOf_spawn]
    exact h.heard i

/-- A thread that takes the lock is the next to be served; one that has its answer was served. -/
theorem Serial.thread (h : Serial tracker sc) {i : Nat} {t : Thread} {s' : Signals}
    (hi : sc.signals.threads[i]? = some t) (hmove : sc.signals.Moves i t s') :
    Serial tracker { sc with signals := s', seen := sc.seen ++ sc.signals.shows s' i } := by
  have hcoherent : s'.Coherent := h.coherent.step (Signals.stepThread_iff.2 ⟨t, hi, hmove⟩)
  obtain ⟨t', hset, hshows, hturn⟩ := hmove.turn h.coherent hi
  obtain ⟨served, horder, hserved⟩ := h.order
  have hget : s'.threads[i]? = some t' := by
    rw [hset, List.getElem?_set_self (List.getElem?_eq_some_iff.1 hi).1]
  refine ⟨hcoherent, ?_, ?_⟩
  · rw [hshows, calls_append, answers_append, calls_shows, answers_shows, horder]
    cases hturn with
    | aside hlock htracker _ hwork hlocks hhears =>
      refine ⟨served, ?_, ?_⟩
      · rw [hlocks, Signals.holding_aside hi hset hlock hwork]
        simp
      · rw [hhears, htracker]
        simpa using hserved
    | take call hfree hlock htracker _ hcall hlocks hhears =>
      -- nobody was under the lock, so all earlier calls are served and this one is still to be
      refine ⟨served, ?_, ?_⟩
      · simp [hlocks, Signals.holding, hfree, hlock, hget, hcall]
      · rw [hhears, htracker]
        simpa using hserved
    | effect call hlock hfree hcall htracker _ hlocks hhears =>
      -- the call under the lock joins those that are served, on the tracker that they left
      refine ⟨served ++ [(i, call)], ?_, ?_⟩
      · simp [hlocks, Signals.holding, hfree, hlock, hi, hcall]
      · rw [Tracker.serveAll_append, hserved, hhears, htracker]
        rfl
  · intro j
    rw [Signals.answersOf_set hi hset, hshows, answersTo_append, answersTo_shows, ← h.heard j]
    by_cases hj : i = j
    · subst hj
      rw [if_pos rfl, if_pos rfl, hturn.answers, Signals.answersOf_eq hi]
    · simp [hj]

/-- **Every event keeps that.** -/
theorem Serial.step (h : Serial tracker sc) (hsteps : Steps sc sc') : Serial tracker sc' := by
  cases hsteps with
  | start work => exact h.start work
  | thread i t s' hi hmove => exact h.thread hi hmove
  | call => exact ⟨h.coherent, h.order, h.heard⟩
  | fail error => exact h.control h.coherent rfl rfl rfl _ [.failed error] rfl rfl
  | arrive c =>
    refine h.control (h.coherent.token ?_ ?_) rfl rfl rfl _ [.awaited c] rfl rfl <;> rfl
  | release c =>
    refine h.control (h.coherent.token ?_ ?_) rfl rfl rfl _ [.released c] rfl rfl <;> rfl
  | dropTracker => exact ⟨⟨h.coherent.lock, h.coherent.arriving, h.coherent.leaving,
      h.coherent.suits⟩, h.order, h.heard⟩
  | dropControl => exact ⟨h.coherent.dropControl, h.order, h.heard⟩

/-! ## Who is held -/

/-- Whatever comes to a checkpoint is a call that is held there. -/
structure Selective (block : Offset) (sc : Scene) : Prop where
  here : sc.signals.block = block
  held : ∀ i call c, .reached i call c ∈ sc.seen → ∃ k, call = some k ∧ Call.HeldAt block k c

variable {block : Offset}

theorem selective_new (timeout : Milliseconds) : Selective block (new tracker block timeout) :=
  ⟨rfl, nofun⟩

/-- **Every event keeps that.** -/
theorem Selective.step (h : Selective block sc) (hsteps : Steps sc sc') : Selective block sc' := by
  cases hsteps with
  | start | call | dropTracker | dropControl => exact ⟨h.here, h.held⟩
  | thread i t s' hi hmove =>
    refine ⟨hmove.frame.1.trans h.here, ?_⟩
    intro j call c hmem
    obtain ⟨t', -, hshows, htransit⟩ := hmove.transit hi
    rcases List.mem_append.1 hmem with hmem | hmem
    · exact h.held j call c hmem
    · rw [hshows] at hmem
      obtain ⟨hcomes, rfl⟩ := mem_reached_shows hmem
      rw [← h.here]
      exact htransit.comesTo hcomes
  | fail | arrive | release =>
    refine ⟨h.here, ?_⟩
    intro j call c hmem
    rcases List.mem_append.1 hmem with hmem | hmem
    · exact h.held j call c hmem
    · simp at hmem

/-! ## What the threads do with their answers -/

/-- The work of the thread that an event starts, if it starts one. -/
def started (sc : Scene) : Event → List (Work Offset)
  | .start work => if sc.signals.closed then [] else [work]
  | _ => []

/-- The works of the threads that are started in a history, in their order. -/
def works (sc : Scene) : List Event → List (Work Offset)
  | [] => []
  | e :: events => sc.started e ++ (sc.act e).works events

/-- The threads are those that were started on `works`, and each has come from its work to where
it is by the answers that it got, with the outputs that it emitted. -/
structure Driven (works : List (Work Offset)) (sc : Scene) : Prop where
  length : sc.signals.threads.length = works.length
  goesOn : ∀ (i : Nat) (t : Thread), sc.signals.threads[i]? = some t →
    ∃ work : Work Offset, works[i]? = some work ∧ work.GoesOn t.answers t.emitted t.work

theorem threads_arrive {c : Checkpoint} {result : Except ControlError Signals}
    (next : Option ControlCall) (h : sc.signals.await? c = some result) :
    (sc.arrive c next result).signals.threads = sc.signals.threads := by
  unfold Signals.await? at h
  dsimp only at h
  split at h
  · cases h
    rfl
  · split at h <;> cases h
    rfl

theorem threads_letGo {c : Checkpoint} {result : Except ControlError Signals}
    (h : sc.signals.release? c = some result) :
    (sc.letGo c result).signals.threads = sc.signals.threads := by
  unfold Signals.release? at h
  dsimp only at h
  split at h
  · cases h
    rfl
  · split at h <;> cases h
    rfl

theorem threads_control {e : Event} (hstart : ∀ work, e ≠ .start work) (hstep : ∀ i, e ≠ .step i)
    (h : sc.step e = some sc') : sc'.signals.threads = sc.signals.threads := by
  cases e with
  | start work => exact absurd rfl (hstart work)
  | step i => exact absurd rfl (hstep i)
  | call | dropControl =>
    simp only [step] at h
    split at h <;> cases h
    rfl
  | proceed =>
    simp only [step, proceed] at h
    split at h
    · cases h
    · obtain ⟨result, hresult, rfl⟩ := Option.map_eq_some_iff.1 h
      exact threads_arrive none hresult
    · obtain ⟨result, hresult, rfl⟩ := Option.map_eq_some_iff.1 h
      exact threads_letGo hresult
    · obtain ⟨result, hresult, rfl⟩ := Option.map_eq_some_iff.1 h
      exact threads_arrive _ hresult
  | timeout =>
    simp only [step, expire] at h
    split at h <;> cases h <;> rfl
  | dropTracker =>
    cases h
    rfl

variable {works : List (Work Offset)}

theorem Driven.of_threads (h : Driven works sc)
    (hthreads : sc'.signals.threads = sc.signals.threads) : Driven works sc' :=
  ⟨by rw [hthreads]; exact h.length, by rw [hthreads]; exact h.goesOn⟩

theorem Driven.start (h : Driven works sc) (work : Work Offset) :
    Driven (works ++ [work]) { sc with signals := sc.signals.spawn work } := by
  refine ⟨by simp [Signals.spawn, h.length], fun i t ht => ?_⟩
  rw [Signals.threads_spawn, h.length] at ht
  split at ht
  · obtain ⟨rfl, rfl⟩ : i = works.length ∧ t = .start work := ⟨‹_›, by simpa using ht.symm⟩
    exact ⟨work, by simp, .stay work⟩
  · obtain ⟨first, hfirst, hgoesOn⟩ := h.goesOn i t ht
    exact ⟨first, by rw [List.getElem?_append_left (List.getElem?_eq_some_iff.1 hfirst).1, hfirst],
      hgoesOn⟩

theorem Driven.thread (h : Driven works sc) {i : Nat} {t : Thread} {s' : Signals}
    (hi : sc.signals.threads[i]? = some t) (hmove : sc.signals.Moves i t s')
    (more : List Sighting) : Driven works { sc with signals := s', seen := more } := by
  obtain ⟨t', answers, outputs, hset, hwork, hanswers, hemitted⟩ := hmove.goesOn
  refine ⟨by simp [hset, h.length], fun j u hu => ?_⟩
  rw [hset, List.getElem?_set] at hu
  split at hu
  · subst i
    obtain ⟨work, hget, hgoesOn⟩ := h.goesOn j t hi
    obtain rfl : u = t' := by
      simpa [(List.getElem?_eq_some_iff.1 hi).1, eq_comm] using hu
    refine ⟨work, hget, ?_⟩
    rw [hanswers, hemitted]
    exact hgoesOn.trans hwork
  · exact h.goesOn j u hu

theorem Driven.step (h : Driven works sc) {e : Event} (hstep : sc.step e = some sc') :
    Driven (works ++ sc.started e) sc' := by
  cases e with
  | start work =>
    simp only [Scene.step] at hstep
    split at hstep <;> cases hstep
    rename_i hopen
    simpa [started, hopen] using h.start work
  | step i =>
    obtain ⟨s', hs, rfl⟩ := Option.map_eq_some_iff.1 hstep
    obtain ⟨t, ht, hmove⟩ := Signals.stepThread_iff.1 hs
    simpa [started] using h.thread ht hmove _
  | call | proceed | timeout | dropTracker | dropControl =>
    simpa [started] using h.of_threads (threads_control (by simp) (by simp) hstep)

theorem started_eq_nil {e : Event} (h : sc.step e = none) : sc.started e = [] := by
  cases e with
  | start work => simpa [Scene.step, started] using h
  | _ => rfl

/-- **Every event keeps that**, with the work of the thread that it starts. -/
theorem Driven.act (h : Driven works sc) (e : Event) :
    Driven (works ++ sc.started e) (sc.act e) := by
  unfold Scene.act
  cases hact : sc.step e with
  | none =>
    rw [started_eq_nil hact, List.append_nil]
    exact h
  | some sc' => exact h.step hact

theorem driven_new (block : Offset) (timeout : Milliseconds) :
    Driven [] (new tracker block timeout) :=
  ⟨rfl, fun i t ht => by simp [new, Signals.new] at ht⟩

theorem Driven.run (h : Driven works sc) (events : List Event) :
    Driven (works ++ sc.works events) (sc.run events) := by
  induction events generalizing sc works with
  | nil => simpa [Scene.works, Scene.run] using h
  | cons e events ih =>
    rw [Scene.works, ← List.append_assoc]
    exact ih (h.act e)

/-! ## Any history -/

/-- **Passages and answers in any history of a scene.**  While the control is there, no checkpoint
lets on more threads than it was released, nor is awaited more often than it was reached.  Nobody is
held but with a split or a claim of the block position.  The lock was taken for the calls in some
order, the one that somebody has it for now comes last; a plain tracker that serves those before it
in this order gives the same answers and is then the same as the one behind the checkpoints.  The
threads are those that were started, each with the answers given to it, and what is left of its work
is what its work goes on with by these answers. -/
theorem passages_and_answers (tracker : Tracker) (block : Offset) (timeout : Milliseconds)
    (events : List Event) :
    let first := new tracker block timeout
    let sc := first.run events
    (sc.signals.controlled = true → ∀ c,
      count .passed c sc.seen ≤ count .released c sc.seen ∧
        count .awaited c sc.seen ≤ count .reached c sc.seen) ∧
    (∀ i call c, .reached i call c ∈ sc.seen → ∃ k, call = some k ∧ Call.HeldAt block k c) ∧
    (∃ served rest, calls sc.seen = served ++ rest ∧
      rest.map Prod.fst = sc.signals.lock.toList ∧
      tracker.serveAll served = (answers sc.seen, sc.signals.tracker)) ∧
    (∀ i, sc.signals.answersOf i = answersTo i sc.seen) ∧
    sc.signals.threads.length = (first.works events).length ∧
    ∀ (i : Nat) (t : Thread), sc.signals.threads[i]? = some t →
      ∃ work : Work Offset, (first.works events)[i]? = some work ∧
        work.GoesOn t.answers t.emitted t.work := by
  intro first sc
  have hserial : Serial tracker sc :=
    run_induction (fun _ _ h hsteps => h.step hsteps) (serial_new block timeout) events
  have hselective : Selective block sc :=
    run_induction (fun _ _ h hsteps => h.step hsteps) (selective_new timeout) events
  have hdriven : Driven (first.works events) sc := (driven_new block timeout).run events
  refine ⟨?_, hselective.held, ?_, hserial.heard, hdriven.length, hdriven.goesOn⟩
  · intro hcontrolled c
    have hbalanced : sc.Balanced := run_balanced tracker block timeout events hcontrolled
    have harrivals := hbalanced.arrivals c
    have hreleases := hbalanced.releases c
    omega
  · obtain ⟨served, horder, hserved⟩ := hserial.order
    exact ⟨served, _, horder, hserial.coherent.map_holding, hserved⟩

/-- A claim that the control lets on to the lock: it was released once and went on once. -/
example :
    let claim : Work Offset := .claim 3 fun _ => .finish (.ok ())
    let sc := (new (.new ⟨0, 10⟩) 3 10).run
      [.start claim, .step 0, .step 0, .step 0, .call (.pass .claimStarted), .proceed, .proceed,
        .step 0, .step 0, .step 0]
    count .passed .claimStarted sc.seen = 1 ∧ count .released .claimStarted sc.seen = 1 ∧
      sc.signals.controlled = true ∧ sc.signals.lock = some 0 := by
  decide

end Scene

end Splittable
